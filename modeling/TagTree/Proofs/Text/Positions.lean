import Mathlib.Data.List.DropRight
import Mathlib.Data.Prod.Lex
import Mathlib.Order.Bounds.Basic
import TagTree.Proofs.Document.Boundaries

/-!
# Lines and columns are faithful

`Position.locate` walks over the characters in front of an offset. Here the position it comes to
is read off the text as a whole (`Position.walk_start`): a line for every line feed, a column for
every character after the last one. An offset inside a character counts as the end of that
character, and one beyond the text as its end (`RoundsUp`).

Positions are ordered by lines, and within a line by columns. A walk only ever goes on in this
order, so positions come in the order of their offsets, and two boundaries of a text never share
one (`Position.locate_is_faithful`): what a rejected document is told says where it is wrong.
-/

set_option autoImplicit false

namespace TagTree

/-- A byte offset between two characters of a text, or at one of its ends. -/
def IsBoundary (source : String) (offset : Nat) : Prop :=
  (String.Pos.Raw.mk offset).IsValid source

/-- `boundary` is the first boundary of the text at `offset` or behind it; its end, if there is
none. -/
def RoundsUp (source : String) (offset boundary : Nat) : Prop :=
  IsLeast {b | IsBoundary source b ∧ offset ≤ b} boundary ∨
    source.utf8ByteSize < offset ∧ boundary = source.utf8ByteSize

theorem isBoundary_iff {source : String} {offset : Nat} :
    IsBoundary source offset ↔
      ∃ before after, source.toList = before ++ after ∧ offset = byteCount before := by
  rw [IsBoundary, String.Pos.Raw.isValid_iff_exists_append]
  constructor
  · rintro ⟨before, after, rfl, hoffset⟩
    refine ⟨before.toList, after.toList, String.toList_append, ?_⟩
    rw [byteCount_toList]
    exact congrArg String.Pos.Raw.byteIdx hoffset
  · rintro ⟨before, after, hsource, rfl⟩
    refine ⟨String.ofList before, String.ofList after, ?_, ?_⟩
    · rw [← String.ofList_append, ← hsource, String.ofList_toList]
    · rw [← utf8ByteSize_ofList]
      rfl

namespace Position

variable {p q : Position} {cs ds : List Char} {m n : Nat}

/-! ## The order of positions -/

/-- The line first, then the column. -/
def key (p : Position) : ℕ ×ₗ ℕ :=
  toLex (p.line, p.column)

theorem key_injective : Function.Injective key := by
  rintro ⟨line, column⟩ ⟨line', column'⟩ h
  have hpair : (line, column) = (line', column') := h
  cases hpair
  rfl

instance : LinearOrder Position :=
  LinearOrder.lift' key key_injective

theorem lt_iff : p < q ↔ p.line < q.line ∨ p.line = q.line ∧ p.column < q.column :=
  Prod.Lex.toLex_lt_toLex

/-! ## Walking on -/

/-- A character moves the position on: to the next column, or to the next line. -/
theorem lt_after (p : Position) (c : Char) : p < p.after c := by
  unfold after
  split
  · exact lt_iff.2 (Or.inl (Nat.lt_succ_self _))
  · exact lt_iff.2 (Or.inr ⟨rfl, Nat.lt_succ_self _⟩)

theorem le_walk (p : Position) (cs : List Char) (n : Nat) : p ≤ p.walk cs n := by
  induction cs generalizing p n with
  | nil => exact le_of_eq (walk_nil p n).symm
  | cons c cs ih =>
      rcases Nat.eq_zero_or_pos n with rfl | hn
      · exact le_of_eq (walk_zero p (c :: cs)).symm
      · rw [walk_cons p c cs hn]
        exact (lt_after p c).le.trans (ih (p.after c) (n - c.utf8Size))

/-- A longer walk goes at least as far. -/
theorem walk_mono (p : Position) (cs : List Char) : Monotone (p.walk cs) := by
  induction cs generalizing p with
  | nil =>
      intro m n _
      rw [walk_nil, walk_nil]
  | cons c cs ih =>
      intro m n hmn
      rcases Nat.eq_zero_or_pos m with rfl | hm
      · rw [walk_zero]
        exact le_walk p (c :: cs) n
      · rw [walk_cons p c cs hm, walk_cons p c cs (Nat.lt_of_lt_of_le hm hmn)]
        exact ih (p.after c) (Nat.sub_le_sub_right hmn c.utf8Size)

/-- A walk over a character at least goes further on. -/
theorem lt_walk (p : Position) (c : Char) (cs : List Char) (hn : 0 < n) :
    p < p.walk (c :: cs) n := by
  rw [walk_cons p c cs hn]
  exact (lt_after p c).trans_le (le_walk (p.after c) cs _)

/-! ## Where a walk ends -/

/-- Behind a text, lines and columns are counted by its line feeds and by the characters after
the last of them. -/
theorem walk_start (cs : List Char) :
    start.walk cs (byteCount cs) =
      ⟨1 + cs.count '\n', 1 + (cs.rtakeWhile (· != '\n')).length⟩ := by
  -- by induction from the end of the text, for the last character decides on the column
  induction cs using List.reverseRecOn with
  | nil => rfl
  | append_singleton cs c ih =>
      have hc : 0 < c.utf8Size := c.utf8Size_pos
      have hlast : start.walk (cs ++ [c]) (byteCount (cs ++ [c])) =
          (start.walk cs (byteCount cs)).after c := by
        rw [byteCount_append, walk_add, byteCount_cons, walk_cons _ c [] (by omega), walk_nil]
      rw [hlast, ih, after]
      by_cases hfeed : c = '\n'
      · subst hfeed
        rw [if_pos rfl, List.count_append, List.rtakeWhile_concat_neg _ _ _ (by decide)]
        rfl
      · have hkept : (c != '\n') = true := bne_iff_ne.2 hfeed
        have hnone : [c].count '\n' = 0 := by
          rw [List.count_eq_zero, List.mem_singleton]
          exact fun h => hfeed h.symm
        have hcolumn := List.rtakeWhile_concat_pos (· != '\n') cs c hkept
        rw [if_neg hfeed, List.count_append, hnone, hcolumn, List.length_append]
        rfl

/-- A walk passes the characters that begin in front of its end, so it ends at a boundary: the
first one that is not in front of it, or the end of the text. -/
theorem exists_walk_eq (p : Position) (cs : List Char) (n : Nat) :
    ∃ before after, cs = before ++ after ∧ p.walk cs n = p.walk before (byteCount before) ∧
      (n ≤ byteCount before ∨ after = []) ∧
      ∀ shorter longer, cs = shorter ++ longer → n ≤ byteCount shorter →
        byteCount before ≤ byteCount shorter := by
  induction cs generalizing p n with
  | nil => exact ⟨[], [], rfl, walk_nil p n, Or.inr rfl, fun _ _ _ _ => Nat.zero_le _⟩
  | cons c cs ih =>
      rcases Nat.eq_zero_or_pos n with rfl | hn
      · exact ⟨[], c :: cs, rfl, walk_zero p _, Or.inl (Nat.zero_le _),
          fun _ _ _ _ => Nat.zero_le _⟩
      · have hc : 0 < c.utf8Size := c.utf8Size_pos
        obtain ⟨before, after, hcs, hwalk, hend, hleast⟩ := ih (p.after c) (n - c.utf8Size)
        have hover : c.utf8Size + byteCount before - c.utf8Size = byteCount before := by omega
        refine ⟨c :: before, after, by rw [hcs]; rfl, ?_, ?_, ?_⟩
        · rw [walk_cons p c cs hn, byteCount_cons, walk_cons p c before (by omega), hover, hwalk]
        · rcases hend with hend | hend
          · exact Or.inl (by rw [byteCount_cons]; omega)
          · exact Or.inr hend
        · intro shorter longer hcut hle
          cases shorter with
          | nil => exact absurd hle (Nat.not_le_of_gt hn)
          | cons d shorter =>
              rw [List.cons_append, List.cons.injEq] at hcut
              obtain ⟨rfl, hcut⟩ := hcut
              rw [byteCount_cons] at hle
              have hrest := hleast shorter longer hcut (by omega)
              rw [byteCount_cons, byteCount_cons]
              omega

end Position

/-! ## Positions of offsets -/

open Position

variable {source : String} {m n : Nat}

/-- The position of an offset is that of the boundary it is rounded up to. -/
theorem Position.exists_locate_eq (source : String) (offset : Nat) :
    ∃ before after, source = before ++ after ∧ RoundsUp source offset before.utf8ByteSize ∧
      locate source offset =
        ⟨1 + before.toList.count '\n', 1 + (before.toList.rtakeWhile (· != '\n')).length⟩ := by
  obtain ⟨before, after, hsource, hwalk, hend, hleast⟩ :=
    exists_walk_eq start source.toList offset
  refine ⟨String.ofList before, String.ofList after, ?_, ?_, ?_⟩
  · rw [← String.ofList_append, ← hsource, String.ofList_toList]
  · rw [utf8ByteSize_ofList]
    by_cases hle : offset ≤ byteCount before
    · refine Or.inl ⟨⟨isBoundary_iff.2 ⟨before, after, hsource, rfl⟩, hle⟩, ?_⟩
      rintro b ⟨hb, hoffset⟩
      obtain ⟨shorter, longer, hcut, rfl⟩ := isBoundary_iff.1 hb
      exact hleast shorter longer hcut hoffset
    · -- the whole text is passed, and the offset lies beyond it
      have hafter : after = [] := hend.resolve_left hle
      rw [hafter, List.append_nil] at hsource
      have hsize := byteCount_toList source
      rw [hsource] at hsize
      exact Or.inr ⟨hsize ▸ Nat.lt_of_not_le hle, hsize⟩
  · rw [locate, hwalk, walk_start, String.toList_ofList]

theorem Position.locate_mono (source : String) : Monotone (locate source) :=
  walk_mono start source.toList

theorem Position.locate_strictMonoOn (source : String) :
    StrictMonoOn (locate source) {offset | IsBoundary source offset} := by
  intro m hm n hn hlt
  obtain ⟨before, after, hsource, rfl⟩ := isBoundary_iff.1 hm
  -- a later boundary leaves a character between the two
  have hend : n ≤ source.utf8ByteSize := String.Pos.Raw.IsValid.le_utf8ByteSize hn
  rw [← byteCount_toList, hsource, byteCount_append] at hend
  cases after with
  | nil =>
      rw [byteCount_nil] at hend
      omega
  | cons c after =>
      obtain ⟨k, rfl⟩ := Nat.exists_eq_add_of_lt hlt
      rw [locate, locate, hsource, walk_append, Nat.add_assoc, walk_add]
      exact lt_walk _ c after (Nat.succ_pos k)

/-- What a rejected document is told is the position of its failure, which is a boundary. -/
theorem Document.position_of_rejected {maxDepth : Option Nat} {why : Rejection}
    (h : Document.parse maxDepth source = .rejected why) :
    why.position = Position.locate source why.offset ∧ IsBoundary source why.offset := by
  rcases accepted_or_rejected maxDepth source with
    ⟨root, haccepted⟩ | ⟨why', hrejected, hposition, hboundary⟩
  · rw [haccepted] at h
    cases h
  · rw [hrejected] at h
    cases h
    exact ⟨hposition, hboundary.isValid⟩

/-- **Positions are faithful.** The position of an offset counts, in front of the boundary that
the offset is rounded up to, the line feeds, and after the last of them the characters. So
positions never go back while offsets go on, they go on from each boundary to the next, and no two
boundaries have the same; a rejection tells in lines and columns at which offset the text is
wrong. -/
theorem Position.locate_is_faithful :
    (∀ (source : String) (offset : Nat), ∃ before after, source = before ++ after ∧
      RoundsUp source offset before.utf8ByteSize ∧
      locate source offset =
        ⟨1 + before.toList.count '\n', 1 + (before.toList.rtakeWhile (· != '\n')).length⟩) ∧
    (∀ source : String, Monotone (locate source)) ∧
    (∀ source : String, StrictMonoOn (locate source) {offset | IsBoundary source offset}) ∧
    (∀ source : String, Set.InjOn (locate source) {offset | IsBoundary source offset}) ∧
    ∀ (source : String) (maxDepth maxDepth' : Option Nat) (why why' : Rejection),
      Document.parse maxDepth source = .rejected why →
      Document.parse maxDepth' source = .rejected why' →
      why.position = why'.position → why.offset = why'.offset := by
  refine ⟨exists_locate_eq, locate_mono, locate_strictMonoOn,
    fun source => (locate_strictMonoOn source).injOn, ?_⟩
  intro source maxDepth maxDepth' why why' hwhy hwhy' heq
  obtain ⟨hposition, hboundary⟩ := Document.position_of_rejected hwhy
  obtain ⟨hposition', hboundary'⟩ := Document.position_of_rejected hwhy'
  rw [hposition, hposition'] at heq
  exact (locate_strictMonoOn source).injOn hboundary hboundary' heq

/-- A wrong closing tag behind a character of two bytes and a line feed. -/
theorem Position.locate_is_faithful_closing :
    IsBoundary "<a x=\"é\n\"></b>" 6 ∧ IsBoundary "<a x=\"é\n\"></b>" 11 ∧
    locate "<a x=\"é\n\"></b>" 7 ≤ locate "<a x=\"é\n\"></b>" 8 ∧
    locate "<a x=\"é\n\"></b>" 6 < locate "<a x=\"é\n\"></b>" 11 ∧
    Document.parse none "<a x=\"é\n\"></b>" = .rejected ⟨.tagMismatch "a" "b", 11, ⟨2, 3⟩⟩ ∧
    ∀ why, Document.parse (some 1) "<a x=\"é\n\"></b>" = .rejected why →
      why.position = ⟨2, 3⟩ → why.offset = 11 := by
  have hvalue : IsBoundary "<a x=\"é\n\"></b>" 6 :=
    isBoundary_iff.2 ⟨"<a x=\"".toList, "é\n\"></b>".toList, rfl, rfl⟩
  have hclosing : IsBoundary "<a x=\"é\n\"></b>" 11 :=
    isBoundary_iff.2 ⟨"<a x=\"é\n\">".toList, "</b>".toList, rfl, rfl⟩
  have hrejected : Document.parse none "<a x=\"é\n\"></b>" =
      .rejected ⟨.tagMismatch "a" "b", 11, ⟨2, 3⟩⟩ := by decide +kernel
  refine ⟨hvalue, hclosing, ?_, ?_, hrejected, fun why hwhy hposition => ?_⟩
  · exact locate_is_faithful.2.1 _ (by decide : 7 ≤ 8)
  · exact locate_is_faithful.2.2.1 _ hvalue hclosing (by decide : 6 < 11)
  · exact locate_is_faithful.2.2.2.2 _ _ _ _ _ hwhy hrejected hposition

end TagTree
