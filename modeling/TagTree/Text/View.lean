/-!
# Views of a text

A `View` is a place in a source text: the byte offset of the place and the characters from there
on. Offsets count UTF-8 bytes, so a view can only stand between two characters. `View.Valid` says
that the three fields belong together, and `View.advance?` is the one way to move forward: it
refuses a step that would land inside a character or beyond the end.
-/

set_option autoImplicit false

namespace TagTree

/-- The number of UTF-8 bytes that the characters take. -/
def byteCount (cs : List Char) : Nat :=
  cs.foldr (fun c n => c.utf8Size + n) 0

/-- The characters left after `n` bytes, or `none` where byte `n` is not between two of them. -/
def dropBytes? : List Char → Nat → Option (List Char)
  | cs, 0 => some cs
  | [], _ + 1 => none
  | c :: cs, n + 1 => if c.utf8Size ≤ n + 1 then dropBytes? cs (n + 1 - c.utf8Size) else none

/-- A place in a source text. -/
structure View where
  /-- The whole text. -/
  source : String
  /-- How many bytes of the text lie before the place. -/
  offset : Nat
  /-- The characters from the place on. -/
  rest : List Char
deriving DecidableEq

namespace View

/-- The view of a whole text. -/
def ofSource (source : String) : View :=
  ⟨source, 0, source.toList⟩

/-- A view is valid when its text is some characters, which take `offset` bytes, then `rest`. -/
def Valid (v : View) : Prop :=
  ∃ before, v.source.toList = before ++ v.rest ∧ v.offset = byteCount before

/-- The text from the place on. -/
def remainingText (v : View) : String :=
  String.ofList v.rest

/-- How many bytes of the text lie after the place. -/
def remaining (v : View) : Nat :=
  v.source.utf8ByteSize - v.offset

/-- The view `n` bytes further on; `none` where that is not between two characters. -/
def advance? (v : View) (n : Nat) : Option View :=
  (dropBytes? v.rest n).map fun rest => { v with offset := v.offset + n, rest }

/-- Whether two views are the same place of the same text. -/
def samePlace (v w : View) : Bool :=
  v.offset == w.offset && v.source == w.source

end View

/-! ## Lemmas -/

@[simp] theorem byteCount_nil : byteCount [] = 0 := rfl

@[simp] theorem byteCount_cons (c : Char) (cs : List Char) :
    byteCount (c :: cs) = c.utf8Size + byteCount cs := rfl

@[simp] theorem byteCount_append (cs ds : List Char) :
    byteCount (cs ++ ds) = byteCount cs + byteCount ds := by
  induction cs with
  | nil => simp
  | cons c cs ih => simp [ih, Nat.add_assoc]

/-- A text is as long as its characters are together. -/
@[simp] theorem utf8ByteSize_ofList (cs : List Char) :
    (String.ofList cs).utf8ByteSize = byteCount cs := by
  induction cs with
  | nil => rfl
  | cons c cs ih =>
    have hsplit : String.ofList (c :: cs) = String.singleton c ++ String.ofList cs := by
      rw [String.singleton_eq_ofList, ← String.ofList_append]
      rfl
    rw [hsplit, String.utf8ByteSize_append, ih, byteCount_cons, String.utf8ByteSize_singleton]

theorem byteCount_toList (s : String) : byteCount s.toList = s.utf8ByteSize := by
  rw [← utf8ByteSize_ofList, String.ofList_toList]

/-- The bytes dropped are exactly those of the characters passed. -/
theorem dropBytes?_eq_some_iff {cs rest : List Char} {n : Nat} :
    dropBytes? cs n = some rest ↔ ∃ before, cs = before ++ rest ∧ n = byteCount before := by
  induction cs generalizing n with
  | nil =>
    cases n with
    | zero =>
      simp only [dropBytes?, Option.some.injEq]
      constructor
      · rintro rfl
        exact ⟨[], rfl, rfl⟩
      · rintro ⟨before, h, _⟩
        simp_all
    | succ n =>
      simp only [dropBytes?, reduceCtorEq, false_iff, not_exists, not_and]
      intro before h
      simp_all
  | cons c cs ih =>
    have hc := c.utf8Size_pos
    cases n with
    | zero =>
      simp only [dropBytes?, Option.some.injEq]
      constructor
      · rintro rfl
        exact ⟨[], rfl, rfl⟩
      · rintro ⟨before, h, hn⟩
        cases before with
        | nil => simpa using h
        | cons d ds =>
          have hd := d.utf8Size_pos
          simp only [byteCount_cons] at hn
          omega
    | succ n =>
      simp only [dropBytes?]
      split
      · rename_i hle
        rw [ih]
        constructor
        · rintro ⟨before, rfl, hn⟩
          exact ⟨c :: before, rfl, by simp only [byteCount_cons]; omega⟩
        · rintro ⟨before, h, hn⟩
          cases before with
          | nil => simp at hn
          | cons d ds =>
            simp only [List.cons_append, List.cons.injEq] at h
            obtain ⟨rfl, rfl⟩ := h
            exact ⟨ds, rfl, by simp only [byteCount_cons] at hn; omega⟩
      · rename_i hle
        simp only [reduceCtorEq, false_iff, not_exists, not_and]
        rintro (_ | ⟨d, ds⟩) h hn
        · simp at hn
        · simp only [List.cons_append, List.cons.injEq] at h
          simp only [byteCount_cons, ← h.1] at hn
          omega

namespace View

theorem valid_ofSource (source : String) : (ofSource source).Valid :=
  ⟨[], rfl, rfl⟩

/-- What remains of the text of a valid view is the characters from it on. -/
theorem Valid.remaining_eq {v : View} (hv : v.Valid) : v.remaining = byteCount v.rest := by
  obtain ⟨before, hsource, hoffset⟩ := hv
  have hsize := byteCount_toList v.source
  rw [hsource, byteCount_append] at hsize
  simp only [remaining]
  omega

/-- Moving forward keeps a view valid. -/
theorem Valid.advance {v w : View} {n : Nat} (hv : v.Valid) (h : v.advance? n = some w) :
    w.Valid := by
  obtain ⟨before, hsource, hoffset⟩ := hv
  obtain ⟨rest, hrest, rfl⟩ := Option.map_eq_some_iff.1 h
  obtain ⟨passed, hpassed, hn⟩ := dropBytes?_eq_some_iff.1 hrest
  exact ⟨before ++ passed, by simp [hsource, hpassed], by simp [hoffset, hn]⟩

end View

end TagTree
