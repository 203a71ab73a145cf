import TagTree.Proofs.Document.Reading
import TagTree.Proofs.Parser.Shift

/-!
# Text in front

What lies in front of a view is not seen by any parser, and white space in front of a document is
skipped. So white space in front of a text changes nothing in its verdict but the place at which
the text is rejected, which moves on by the bytes of the white space
(`Document.remaining_text_decides`).
-/

set_option autoImplicit false

namespace TagTree

open Grammar
open Scan (skipBlanks)

/-- The verdict on `before ++ source` for the verdict on `source`, if `before` does not count. -/
def Verdict.behind (before source : String) : Verdict → Verdict
  | .accepted root => .accepted root
  | .rejected why =>
    .rejected ⟨why.cause, why.offset + before.utf8ByteSize,
      .locate (before ++ source) (why.offset + before.utf8ByteSize)⟩
  | .broken defect => .broken defect

namespace Document

variable {blanks source : String}

/-- A place in a text lies further on with more text in front. -/
theorem offset_append {rest : List Char} (hrest : rest <:+ source.toList) (before : String) :
    (before ++ source).utf8ByteSize - byteCount rest =
      source.utf8ByteSize - byteCount rest + before.utf8ByteSize := by
  have hcount := byteCount_le_of_suffix hrest
  rw [byteCount_toList] at hcount
  rw [String.utf8ByteSize_append]
  omega

/-- The root stands where it stood, behind the white space in front. -/
theorem rootView_append (hblanks : isBlankText blanks.toList = true) (source : String) :
    rootView (blanks ++ source) =
      (rootView source).shift (blanks ++ source) blanks.utf8ByteSize := by
  have hskip : skipBlanks (blanks ++ source).toList = skipBlanks source.toList := by
    rw [String.toList_append, skipBlanks_append hblanks]
  unfold rootView
  rw [hskip]
  show View.mk (blanks ++ source) _ _ = View.mk (blanks ++ source) _ _
  rw [View.mk.injEq]
  exact ⟨rfl, offset_append (skipBlanks_suffix source.toList) blanks, rfl⟩

/-- What stands behind the root is white space or it is not, whatever stands in front. -/
theorem verdictAfter_append {root : Element} {rest : List Char} (hrest : rest <:+ source.toList)
    (before : String) :
    verdictAfter (before ++ source) root rest =
      (verdictAfter source root rest).behind before source := by
  unfold verdictAfter
  cases hskip : skipBlanks rest with
  | nil => rfl
  | cons c cs =>
      have hsuffix : c :: cs <:+ source.toList := by
        rw [← hskip]
        exact (skipBlanks_suffix rest).trans hrest
      simp only [offset_append hsuffix]
      rfl

/-- White space in front of a document does not count. -/
theorem parse_append (hblanks : isBlankText blanks.toList = true) (maxDepth : Option Nat)
    (source : String) :
    parse maxDepth (blanks ++ source) = (parse maxDepth source).behind blanks source := by
  have hsize : (blanks ++ source).utf8ByteSize =
      (rootView source).source.utf8ByteSize + blanks.utf8ByteSize := by
    show (blanks ++ source).utf8ByteSize = source.utf8ByteSize + blanks.utf8ByteSize
    rw [String.utf8ByteSize_append, Nat.add_comm]
  have hrun : (rootRule maxDepth).run (rootView (blanks ++ source)) =
      ((rootRule maxDepth).run (rootView source)).shift (blanks ++ source)
        blanks.utf8ByteSize := by
    rw [rootView_append hblanks]
    exact Parser.run_shift hsize (.element (rootRule maxDepth))
  have hbounds := (rootRule maxDepth).bounds_run (rootView source)
  rw [parse_eq, parse_eq, hrun, Run.shift]
  rcases hroot : ((rootRule maxDepth).run (rootView source)).outcome with
    (f | defect) | ⟨root, w⟩
  · rfl
  · rfl
  · rw [hroot] at hbounds
    have hsuffix : w.rest <:+ source.toList :=
      (View.Reaches.suffix hbounds).trans (skipBlanks_suffix source.toList)
    exact verdictAfter_append hsuffix blanks

/-- **The text left decides.** The run of a parser from a valid view is its run on the text left
alone, with the view left, the failure and every report moved on by the offset of the view. So a
document with white space in front is what it is without, accepted with the same tree or rejected
for the same cause, as many bytes further on as the white space takes. -/
theorem remaining_text_decides :
    (∀ (α : Type) (p : Parser α) (v : View), v.Valid →
      p.run v = (p.run (View.ofSource v.remainingText)).shift v.source v.offset) ∧
    ∀ (maxDepth : Option Nat) (blanks source : String), isBlankText blanks.toList = true →
      parse maxDepth (blanks ++ source) = (parse maxDepth source).behind blanks source :=
  ⟨fun _ p _ hv => p.run_eq_shift hv, fun maxDepth _ source hblanks =>
    parse_append hblanks maxDepth source⟩

/-- A wrong closing tag, behind a character of two bytes, and behind white space of four. -/
theorem remaining_text_decides_mismatch :
    (View.mk "é<a></b>" 2 "<a></b>".toList).Valid ∧
    ((Parser.element {}).run ⟨"é<a></b>", 2, "<a></b>".toList⟩).failure? =
      some ⟨.tagMismatch "a" "b", 5⟩ ∧
    isBlankText "\u2003\n".toList = true ∧
    parse none ("\u2003\n" ++ "<a></b>") = .rejected ⟨.tagMismatch "a" "b", 7, ⟨2, 4⟩⟩ := by
  have hvalid : (View.mk "é<a></b>" 2 "<a></b>".toList).Valid := ⟨['é'], rfl, rfl⟩
  have hblanks : isBlankText "\u2003\n".toList = true := by decide +kernel
  refine ⟨hvalid, ?_, hblanks, ?_⟩
  · rw [remaining_text_decides.1 Element (.element {}) _ hvalid]
    decide +kernel
  · rw [remaining_text_decides.2 none "\u2003\n" "<a></b>" hblanks]
    decide +kernel

end Document

end TagTree
