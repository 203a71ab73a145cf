import TagTree.Element.Attributes

/-!
# Writing attributes one by one

What `Attributes.ofList` makes of its pairs. Every entry of the map is one of the pairs, and pairs
that are in the order of their names already are the entries as they stand; in particular a map
is the map of its own entries.

The value of a name is that of the last pair of the name (`Attributes.isLast_ofList`), and a map is
known by its values. So pairs that are rearranged, without a change among those of one name, make
the same map (`Attributes.ofList_eq_of_rearranges`).
-/

set_option autoImplicit false

namespace TagTree

namespace Attributes

/-- The map after further writes. -/
def insertAll (a : Attributes) (pairs : List (String × String)) : Attributes :=
  pairs.foldl (fun a pair => a.insert pair.1 pair.2) a

theorem insertAll_cons (a : Attributes) (pair : String × String)
    (pairs : List (String × String)) :
    a.insertAll (pair :: pairs) = (a.insert pair.1 pair.2).insertAll pairs := rfl

theorem ofList_eq_insertAll (pairs : List (String × String)) :
    ofList pairs = empty.insertAll pairs := rfl

/-- No write brings in an entry beside its own. -/
theorem mem_entries_insertAll {a : Attributes} {pairs : List (String × String)}
    {entry : String × String} (h : entry ∈ (a.insertAll pairs).entries) :
    entry ∈ a.entries ∨ entry ∈ pairs := by
  induction pairs generalizing a with
  | nil => exact Or.inl h
  | cons pair pairs ih =>
      rw [insertAll_cons] at h
      rcases ih h with hentry | hentry
      · rcases mem_insertEntry hentry with rfl | hentry
        · exact Or.inr List.mem_cons_self
        · exact Or.inl hentry
      · exact Or.inr (List.mem_cons_of_mem pair hentry)

theorem mem_entries_ofList {pairs : List (String × String)} {entry : String × String}
    (h : entry ∈ (ofList pairs).entries) : entry ∈ pairs := by
  rw [ofList_eq_insertAll] at h
  rcases mem_entries_insertAll h with hentry | hentry
  · cases hentry
  · exact hentry

/-- A name behind all the others has its place at the end. -/
theorem insertEntry_eq_append {name value : String} {es : List (String × String)}
    (h : ∀ e ∈ es, e.1 < name) : insertEntry name value es = es ++ [(name, value)] := by
  induction es with
  | nil => rfl
  | cons e es ih =>
      have hlt : e.1 < name := h e List.mem_cons_self
      have hnot : ¬ name < e.1 := fun hgt => String.lt_irrefl _ (String.lt_trans hlt hgt)
      have hne : name ≠ e.1 := fun heq => String.lt_irrefl _ (heq ▸ hlt)
      have hlater := ih fun d hd => h d (List.mem_cons_of_mem e hd)
      unfold insertEntry
      rw [if_neg hnot, if_neg hne, hlater]
      rfl

/-- Pairs in the order of their names are written one behind the other. -/
theorem entries_insertAll {a : Attributes} {pairs : List (String × String)}
    (h : (a.entries ++ pairs).Pairwise fun d e => d.1 < e.1) :
    (a.insertAll pairs).entries = a.entries ++ pairs := by
  induction pairs generalizing a with
  | nil => rw [List.append_nil]; rfl
  | cons pair pairs ih =>
      have hlt : ∀ e ∈ a.entries, e.1 < pair.1 := by
        intro e he
        exact (List.pairwise_append.1 h).2.2 e he pair List.mem_cons_self
      have hinsert : (a.insert pair.1 pair.2).entries = a.entries ++ [pair] :=
        insertEntry_eq_append hlt
      rw [insertAll_cons, ih]
      · rw [hinsert, List.append_assoc]
        rfl
      · rw [hinsert, List.append_assoc]
        exact h

/-- A map is the map of its entries. -/
theorem ofList_entries (a : Attributes) : ofList a.entries = a := by
  have hentries : (ofList a.entries).entries = a.entries := by
    rw [ofList_eq_insertAll]
    exact entries_insertAll a.sorted
  cases h : ofList a.entries with
  | mk entries sorted =>
      rw [h] at hentries
      cases a
      cases hentries
      rfl

/-- Further writes are writes behind those of the entries. -/
theorem insertAll_eq_ofList (a : Attributes) (pairs : List (String × String)) :
    a.insertAll pairs = ofList (a.entries ++ pairs) := by
  rw [ofList, List.foldl_append, ← ofList, ofList_entries]
  rfl

/-! ## The last write of a name -/

theorem lookup_cons (name : String) (pair : String × String) (pairs : List (String × String)) :
    (pair :: pairs).lookup name = if name = pair.1 then some pair.2 else pairs.lookup name := by
  rw [List.lookup_cons]
  by_cases h : name = pair.1
  · simp [h]
  · rw [beq_eq_false_iff_ne.2 h, if_neg h]

/-- A value is that of the last pair of the name; there is none if there is no such pair. -/
def IsLast (pairs : List (String × String)) (name : String) : Option String → Prop
  | some value => ∃ earlier later, pairs = earlier ++ (name, value) :: later ∧
      ∀ pair ∈ later, pair.1 ≠ name
  | none => ∀ pair ∈ pairs, pair.1 ≠ name

theorem isLast_lookup_reverse (pairs : List (String × String)) (name : String) :
    IsLast pairs name (pairs.reverse.lookup name) := by
  have hne {pair : String × String} : (name != pair.1) = true ↔ pair.1 ≠ name := by
    rw [bne_iff_ne, ne_comm]
  cases hlookup : pairs.reverse.lookup name with
  | none =>
      intro pair hpair
      exact hne.1 (List.lookup_eq_none_iff.1 hlookup pair (List.mem_reverse.2 hpair))
  | some value =>
      obtain ⟨later, earlier, hpairs, hlater⟩ := List.lookup_eq_some_iff.1 hlookup
      refine ⟨earlier.reverse, later.reverse, ?_, fun pair hpair => ?_⟩
      · rw [← List.reverse_reverse pairs, hpairs]
        simp
      · exact hne.1 (hlater pair (List.mem_reverse.1 hpair))

theorem get?_insertAll (a : Attributes) (pairs : List (String × String)) (name : String) :
    (a.insertAll pairs).get? name = (pairs.reverse.lookup name).or (a.get? name) := by
  induction pairs generalizing a with
  | nil => rfl
  | cons pair pairs ih =>
      rw [insertAll_cons, ih, get?_insert, List.reverse_cons, List.lookup_append, Option.or_assoc,
        lookup_cons]
      split <;> rfl

theorem get?_ofList (pairs : List (String × String)) (name : String) :
    (ofList pairs).get? name = pairs.reverse.lookup name := by
  rw [ofList_eq_insertAll, get?_insertAll, get?_empty, Option.or_none]

/-- The last pair of a name decides. -/
theorem isLast_ofList (pairs : List (String × String)) (name : String) :
    IsLast pairs name ((ofList pairs).get? name) := by
  rw [get?_ofList]
  exact isLast_lookup_reverse pairs name

/-! ## Rearranged pairs -/

/-- Each name stands in one entry only. -/
theorem mem_entries_iff (a : Attributes) (name value : String) :
    (name, value) ∈ a.entries ↔ a.get? name = some value := by
  obtain ⟨entries, sorted⟩ := a
  show _ ↔ entries.lookup name = some value
  induction entries with
  | nil => simp
  | cons entry entries ih =>
      obtain ⟨hfirst, hsorted⟩ := List.pairwise_cons.1 sorted
      rw [List.mem_cons, lookup_cons]
      by_cases h : name = entry.1
      · -- a name that is the first one is none of the others
        have hnone : (name, value) ∉ entries := fun hmem =>
          String.lt_irrefl _ (h ▸ hfirst _ hmem)
        rw [if_pos h, or_iff_left hnone, Option.some.injEq, Prod.ext_iff]
        exact ⟨fun heq => heq.2.symm, fun heq => ⟨h, heq.symm⟩⟩
      · have hne : (name, value) ≠ entry := fun heq => h (congrArg Prod.fst heq)
        rw [if_neg h, or_iff_right hne]
        exact ih hsorted

/-- A map is known by its values. -/
theorem eq_of_get? {a b : Attributes} (h : ∀ name, a.get? name = b.get? name) : a = b := by
  have hnodup (c : Attributes) : c.entries.Nodup := by
    refine c.sorted.imp ?_
    rintro entry entry' hlt rfl
    exact String.lt_irrefl _ hlt
  have hperm : a.entries.Perm b.entries := by
    refine (List.perm_ext_iff_of_nodup (hnodup a) (hnodup b)).2 fun entry => ?_
    obtain ⟨name, value⟩ := entry
    rw [mem_entries_iff, mem_entries_iff, h]
  have hentries : a.entries = b.entries :=
    hperm.eq_of_pairwise (fun _ _ _ _ hlt hgt => absurd hgt (String.lt_asymm hlt)) a.sorted b.sorted
  cases a
  cases b
  cases hentries
  rfl

/-- The pairs are a permutation of the others, in which those of one name keep their order. -/
def Rearranges (pairs pairs' : List (String × String)) : Prop :=
  pairs.Perm pairs' ∧
    ∀ name, pairs.filter (fun pair => pair.1 == name) = pairs'.filter fun pair => pair.1 == name

/-- What is looked up among the pairs of the name is what is looked up among all. -/
theorem lookup_filter (pairs : List (String × String)) (name : String) :
    (pairs.filter fun pair => pair.1 == name).lookup name = pairs.lookup name := by
  induction pairs with
  | nil => rfl
  | cons pair pairs ih =>
      by_cases h : pair.1 = name
      · rw [List.filter_cons_of_pos (by simpa using h), lookup_cons, lookup_cons, if_pos h.symm,
          if_pos h.symm]
      · rw [List.filter_cons_of_neg (by simpa using h), lookup_cons, if_neg (Ne.symm h), ih]

theorem ofList_eq_of_rearranges {pairs pairs' : List (String × String)}
    (h : Rearranges pairs pairs') : ofList pairs = ofList pairs' := by
  refine eq_of_get? fun name => ?_
  rw [get?_ofList, get?_ofList, ← lookup_filter, ← lookup_filter pairs'.reverse,
    List.filter_reverse, List.filter_reverse, h.2 name]

/-- Pairs in front do not matter. -/
theorem Rearranges.append_left {pairs pairs' : List (String × String)} (h : Rearranges pairs pairs')
    (front : List (String × String)) : Rearranges (front ++ pairs) (front ++ pairs') := by
  refine ⟨h.1.append_left front, fun name => ?_⟩
  rw [List.filter_append, List.filter_append, h.2 name]

end Attributes

end TagTree
