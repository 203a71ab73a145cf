import TagTree.Text.View

/-!
# Views further on

`v.Reaches w` says that the view `w` stands in the same text as `v`, at the same place or
further on. A valid view has no freedom beside the text that is left of it: `v.upTo rest` is the
view of the same source before `rest`, and every view that a valid `v` reaches has this form
(`View.Valid.reaches_iff`). Proofs about runs therefore speak of the characters left, and of
offsets only where two of them are compared.
-/

set_option autoImplicit false

namespace TagTree

/-- Every character takes a byte at least. -/
theorem length_le_byteCount (cs : List Char) : cs.length ≤ byteCount cs := by
  induction cs with
  | nil => exact Nat.zero_le _
  | cons c cs ih =>
      have hc : 0 < c.utf8Size := c.utf8Size_pos
      rw [List.length_cons, byteCount_cons]
      omega

/-- A text that ends another one takes no more bytes. -/
theorem byteCount_le_of_suffix {cs ds : List Char} (h : cs <:+ ds) :
    byteCount cs ≤ byteCount ds := by
  obtain ⟨before, rfl⟩ := h
  rw [byteCount_append]
  exact Nat.le_add_left _ _

/-- No character takes no bytes, so a shorter ending takes fewer. -/
theorem byteCount_lt_of_suffix {cs ds : List Char} (h : cs <:+ ds)
    (hlt : cs.length < ds.length) : byteCount cs < byteCount ds := by
  obtain ⟨before, rfl⟩ := h
  cases before with
  | nil => simp at hlt
  | cons c before =>
      have hc : 0 < c.utf8Size := c.utf8Size_pos
      rw [byteCount_append, byteCount_cons]
      omega

namespace View

/-- `w` is a view of the same text, at the place of `v` or further on. -/
def Reaches (v w : View) : Prop :=
  w.source = v.source ∧ ∃ read, v.rest = read ++ w.rest ∧ w.offset = v.offset + byteCount read

/-- The view of the same source that has `rest` left. -/
def upTo (v : View) (rest : List Char) : View :=
  ⟨v.source, v.source.utf8ByteSize - byteCount rest, rest⟩

variable {u v w : View} {rest : List Char}

@[simp] theorem upTo_rest (v : View) (rest : List Char) : (v.upTo rest).rest = rest := rfl

theorem upTo_offset (v : View) (rest : List Char) :
    (v.upTo rest).offset = v.source.utf8ByteSize - byteCount rest := rfl

/-- The place before a rest depends on the source only. -/
theorem upTo_offset_eq (h : w.source = v.source) (rest : List Char) :
    (w.upTo rest).offset = (v.upTo rest).offset := by
  rw [upTo_offset, upTo_offset, h]

/-! ## The order of views -/

@[simp] theorem Reaches.refl (v : View) : v.Reaches v :=
  ⟨rfl, [], rfl, rfl⟩

theorem Reaches.trans (huv : u.Reaches v) (hvw : v.Reaches w) : u.Reaches w := by
  obtain ⟨hsource, read, hrest, hoffset⟩ := huv
  obtain ⟨hsource', read', hrest', hoffset'⟩ := hvw
  refine ⟨hsource'.trans hsource, read ++ read', ?_, ?_⟩
  · calc u.rest = read ++ v.rest := hrest
      _ = read ++ (read' ++ w.rest) := by rw [hrest']
      _ = read ++ read' ++ w.rest := by rw [List.append_assoc]
  · calc w.offset = v.offset + byteCount read' := hoffset'
      _ = u.offset + byteCount read + byteCount read' := by rw [hoffset]
      _ = u.offset + byteCount (read ++ read') := by rw [byteCount_append, Nat.add_assoc]

theorem Reaches.suffix (h : v.Reaches w) : w.rest <:+ v.rest := by
  obtain ⟨_, read, hrest, _⟩ := h
  exact ⟨read, hrest.symm⟩

theorem Reaches.offset_le (h : v.Reaches w) : v.offset ≤ w.offset := by
  obtain ⟨_, read, _, hoffset⟩ := h
  omega

/-- Further on there is less of the text left. -/
theorem Reaches.remaining_le (h : v.Reaches w) : w.remaining ≤ v.remaining := by
  have hle := h.offset_le
  rw [remaining, remaining, h.1]
  omega

theorem Reaches.valid (h : v.Reaches w) (hv : v.Valid) : w.Valid := by
  obtain ⟨hsource, read, hrest, hoffset⟩ := h
  obtain ⟨before, hbefore, hstart⟩ := hv
  refine ⟨before ++ read, ?_, ?_⟩
  · calc w.source.toList = before ++ v.rest := by rw [hsource, hbefore]
      _ = before ++ read ++ w.rest := by rw [hrest, List.append_assoc]
  · rw [hoffset, hstart, byteCount_append]

/-! ## Valid views -/

/-- The rest of a valid view takes no more bytes than its source. -/
theorem Valid.byteCount_le (hv : v.Valid) (h : rest <:+ v.rest) :
    byteCount rest ≤ v.source.utf8ByteSize := by
  obtain ⟨before, hsource, _⟩ := hv
  rw [← byteCount_toList, hsource, byteCount_append]
  exact Nat.le_trans (byteCount_le_of_suffix h) (Nat.le_add_left _ _)

theorem Valid.offset_eq (hv : v.Valid) :
    v.offset = v.source.utf8ByteSize - byteCount v.rest := by
  obtain ⟨before, hsource, hoffset⟩ := hv
  rw [← byteCount_toList, hsource, byteCount_append, hoffset]
  omega

/-- A valid view is known by its source and its rest. -/
theorem Valid.upTo_self (hv : v.Valid) : v.upTo v.rest = v := by
  rw [upTo, ← hv.offset_eq]

/-- A valid view reaches exactly the views before the ends of its rest. -/
theorem Valid.reaches_iff (hv : v.Valid) :
    v.Reaches w ↔ w.rest <:+ v.rest ∧ w = v.upTo w.rest := by
  constructor
  · intro h
    refine ⟨h.suffix, ?_⟩
    rw [upTo, ← h.1]
    exact (h.valid hv).upTo_self.symm
  · rintro ⟨⟨read, hread⟩, hw⟩
    refine ⟨by rw [hw]; rfl, read, hread.symm, ?_⟩
    have hle := hv.byteCount_le (List.suffix_refl v.rest)
    rw [hw, hv.offset_eq, upTo_offset]
    rw [← hread, byteCount_append] at hle ⊢
    omega

theorem Valid.reaches_upTo (hv : v.Valid) (h : rest <:+ v.rest) : v.Reaches (v.upTo rest) :=
  hv.reaches_iff.2 ⟨h, rfl⟩

theorem Valid.upTo (hv : v.Valid) (h : rest <:+ v.rest) : (v.upTo rest).Valid :=
  (hv.reaches_upTo h).valid hv

/-- The view before a shorter rest lies further on. -/
theorem Valid.offset_lt_upTo (hv : v.Valid) (h : rest <:+ v.rest)
    (hlt : rest.length < v.rest.length) : v.offset < (v.upTo rest).offset := by
  have hcount := byteCount_lt_of_suffix h hlt
  have hle := hv.byteCount_le (List.suffix_refl v.rest)
  rw [hv.offset_eq, upTo_offset]
  omega

/-- Further on, strictly, there is strictly less left. -/
theorem Valid.remaining_lt (hv : v.Valid) (h : v.Reaches w) (hlt : v.offset < w.offset) :
    w.remaining < v.remaining := by
  have hw := (h.valid hv).byteCount_le (List.suffix_refl w.rest)
  have hoffset := (h.valid hv).offset_eq
  rw [remaining, remaining, h.1]
  rw [h.1] at hw hoffset
  omega

/-- The view behind the characters at the front. -/
theorem Valid.upTo_eq {read : List Char} (hv : v.Valid) (h : v.rest = read ++ rest) :
    v.upTo rest = ⟨v.source, v.offset + byteCount read, rest⟩ := by
  have hle := hv.byteCount_le (List.suffix_refl v.rest)
  have hoffset := hv.offset_eq
  rw [h, byteCount_append] at hle hoffset
  rw [View.upTo, View.mk.injEq]
  refine ⟨rfl, ?_, rfl⟩
  omega

/-- A step over the characters at the front succeeds. -/
theorem Valid.advance?_eq {read : List Char} (hv : v.Valid) (h : v.rest = read ++ rest) :
    v.advance? (byteCount read) = some (v.upTo rest) := by
  have hdrop : dropBytes? v.rest (byteCount read) = some rest :=
    dropBytes?_eq_some_iff.2 ⟨read, h, rfl⟩
  rw [advance?, hdrop, hv.upTo_eq h]
  rfl

end View

end TagTree
