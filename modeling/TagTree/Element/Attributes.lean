/-!
# Attributes

The attributes of an element: a map from names to values. The entries are kept in increasing
order of their names, which is the order of the names' bytes, so equal maps have equal entries
and the order in which a document writes them does not matter. Writing a name again replaces its
value (`Attributes.get?_insert`).
-/

set_option autoImplicit false

namespace TagTree

/-- A map from attribute names to values. -/
structure Attributes where
  /-- The names with their values. -/
  entries : List (String × String)
  /-- Each name stands once, in increasing order. -/
  sorted : entries.Pairwise fun a b => a.1 < b.1
deriving DecidableEq

namespace Attributes

/-- No attributes. -/
def empty : Attributes := ⟨[], .nil⟩

instance : EmptyCollection Attributes := ⟨empty⟩

instance : Inhabited Attributes := ⟨empty⟩

/-- Put an entry in its place among sorted entries, in the stead of one of the same name. -/
def insertEntry (name value : String) : List (String × String) → List (String × String)
  | [] => [(name, value)]
  | e :: es =>
    if name < e.1 then (name, value) :: e :: es
    else if name = e.1 then (name, value) :: es
    else e :: insertEntry name value es

theorem mem_insertEntry {name value : String} {es : List (String × String)}
    {e : String × String} (h : e ∈ insertEntry name value es) : e = (name, value) ∨ e ∈ es := by
  induction es with
  | nil => simpa [insertEntry] using h
  | cons d ds ih =>
    unfold insertEntry at h
    split at h
    · simpa using h
    · split at h
      · rcases List.mem_cons.1 h with h | h
        · exact Or.inl h
        · exact Or.inr (List.mem_cons_of_mem d h)
      · rcases List.mem_cons.1 h with h | h
        · exact Or.inr (h ▸ List.mem_cons_self)
        · rcases ih h with h | h
          · exact Or.inl h
          · exact Or.inr (List.mem_cons_of_mem d h)

theorem pairwise_insertEntry {name value : String} {es : List (String × String)}
    (h : es.Pairwise fun a b => a.1 < b.1) :
    (insertEntry name value es).Pairwise fun a b => a.1 < b.1 := by
  induction es with
  | nil => simp [insertEntry]
  | cons d ds ih =>
    obtain ⟨hd, hds⟩ := List.pairwise_cons.1 h
    unfold insertEntry
    split
    · rename_i hlt
      refine List.pairwise_cons.2 ⟨?_, h⟩
      intro e he
      rcases List.mem_cons.1 he with rfl | he
      · exact hlt
      · exact String.lt_trans hlt (hd e he)
    · rename_i hnlt
      split
      · rename_i heq
        exact List.pairwise_cons.2 ⟨fun e he => heq ▸ hd e he, hds⟩
      · rename_i hne
        refine List.pairwise_cons.2 ⟨?_, ih hds⟩
        intro e he
        rcases mem_insertEntry he with rfl | he
        · refine Decidable.byContradiction fun h => hne ?_
          exact String.le_antisymm (String.not_lt.1 h) (String.not_lt.1 hnlt)
        · exact hd e he

/-- Give `name` the value `value`. -/
def insert (a : Attributes) (name value : String) : Attributes :=
  ⟨insertEntry name value a.entries, pairwise_insertEntry a.sorted⟩

/-- The map written by the pairs in turn, so that the last pair of a name decides. -/
def ofList (pairs : List (String × String)) : Attributes :=
  pairs.foldl (fun a pair => a.insert pair.1 pair.2) empty

/-- The value of `name`, if it has one. -/
def get? (a : Attributes) (name : String) : Option String :=
  a.entries.lookup name

/-- How many names have a value. -/
def size (a : Attributes) : Nat :=
  a.entries.length

/-! ## Lemmas -/

@[simp] theorem get?_empty (name : String) : empty.get? name = none := rfl

theorem lookup_insertEntry (name value n : String) (es : List (String × String)) :
    (insertEntry name value es).lookup n = if n = name then some value else es.lookup n := by
  induction es with
  | nil =>
    rw [insertEntry, List.lookup_cons, List.lookup_nil]
    by_cases h : n = name
    · simp [h]
    · simp [h, beq_eq_false_iff_ne.2 h]
  | cons d ds ih =>
    obtain ⟨k, v⟩ := d
    have cons (m w : String) (rest : List (String × String)) :
        List.lookup n ((m, w) :: rest) = if n = m then some w else rest.lookup n := by
      rw [List.lookup_cons]
      by_cases h : n = m
      · simp [h]
      · simp [h, beq_eq_false_iff_ne.2 h]
    unfold insertEntry
    split
    · rw [cons]
    · split
      · rename_i heq
        simp only [cons, heq]
        split <;> rfl
      · rename_i hne
        rw [cons, cons, ih]
        split
        · rename_i h
          simp only [← h] at hne
          simp only [Ne.symm hne, if_false]
        · rfl

/-- A write decides its own name and leaves every other name alone. -/
@[simp] theorem get?_insert (a : Attributes) (name value n : String) :
    (a.insert name value).get? n = if n = name then some value else a.get? n :=
  lookup_insertEntry name value n a.entries

end Attributes

end TagTree
