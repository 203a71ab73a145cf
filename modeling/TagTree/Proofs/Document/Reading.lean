import TagTree.Document
import TagTree.Proofs.Grammar.Acceptance

/-!
# The reading of a document

A document is read by one run of the rule for elements, behind the white space at its front; what
the root leaves must be white space (`Document.run_document`). So the verdict on a text depends
on the run of its root alone (`Document.parse_eq`), and the texts accepted are the ones derived
whose tree the limit admits (`Document.parse_eq_accepted_iff`).
-/

set_option autoImplicit false

namespace TagTree

open Grammar
open Scan (skipBlanks)

namespace Document

variable {maxDepth : Option Nat} {source : String} {root : Element}

/-! ## The run of a document -/

/-- The rule for the root of a document. -/
def rootRule (maxDepth : Option Nat) : ElementRule :=
  { maxDepth, nestedErrors := true }

/-- The place of the root in a document. -/
def rootView (source : String) : View :=
  (View.ofSource source).upTo (skipBlanks source.toList)

theorem skipBlanks_suffix (cs : List Char) : skipBlanks cs <:+ cs :=
  List.dropWhile_suffix isBlank

theorem valid_rootView (source : String) : (rootView source).Valid :=
  (View.valid_ofSource source).upTo (skipBlanks_suffix source.toList)

/-- What stands behind the root of a document. -/
def tailAt (root : Element) (cs : List Char) : Piece Element :=
  (endAt (skipBlanks cs)).andThen fun _ rest => .read root rest

theorem reads_tail (root : Element) :
    (do
      let _ ← Parser.blanks
      Parser.endOfInput
      return root : Parser Element).Reads (tailAt root) :=
  reads_blanks.bind fun _ => Parser.Reads.endOfInput.bind fun _ => Parser.Reads.pure root

/-- The run of a document is the run of its root, and of what is behind it. -/
theorem run_document (maxDepth : Option Nat) (source : String) :
    (Grammar.document maxDepth).run (View.ofSource source) =
      ((rootRule maxDepth).run (rootView source)).andThen fun root w =>
        .ofPiece w (tailAt root w.rest) := by
  have hv := View.valid_ofSource source
  have hw := valid_rootView source
  have hbounds := (rootRule maxDepth).bounds_run (rootView source)
  have hrun : (Grammar.document maxDepth).runWith ElementRule.run (View.ofSource source) =
      (Parser.blanks.runWith ElementRule.run (View.ofSource source)).andThen fun _ u =>
        ((rootRule maxDepth).run u).andThen fun root w =>
          (do
            let _ ← Parser.blanks
            Parser.endOfInput
            return root : Parser Element).runWith ElementRule.run w := by
    unfold Grammar.document rootRule
    rw [Parser.runWith_bind]
    refine congrArg _ (funext fun _ => funext fun u => ?_)
    rw [Parser.runWith_bind, Parser.runWith]
  rw [Parser.run_eq _ hv, hrun, reads_blanks ElementRule.run _ hv, Run.ofPiece,
    Run.andThen_succeed]
  show ((rootRule maxDepth).run (rootView source)).andThen _ = _
  simp only [Run.andThen]
  cases hroot : ((rootRule maxDepth).run (rootView source)).outcome with
  | error reason => rfl
  | ok result =>
      obtain ⟨root, w⟩ := result
      rw [hroot] at hbounds
      simp only [reads_tail root ElementRule.run w (View.Reaches.valid hbounds hw)]

/-! ## The verdict -/

/-- What a text is, once its root is read and `rest` is left of it. -/
def verdictAfter (source : String) (root : Element) (rest : List Char) : Verdict :=
  match skipBlanks rest with
  | [] => .accepted root
  | c :: cs =>
    .rejected (.ofFailure source ⟨.expectedEnd, source.utf8ByteSize - byteCount (c :: cs)⟩)

/-- The verdict on a text, from the run of its root. -/
theorem parse_eq (maxDepth : Option Nat) (source : String) :
    parse maxDepth source =
      match ((rootRule maxDepth).run (rootView source)).outcome with
      | .ok (root, w) => verdictAfter source root w.rest
      | .error reason => verdictOf source (.error reason) := by
  have hbounds := (rootRule maxDepth).bounds_run (rootView source)
  rw [parse, read, run_document, Run.outcome_andThen]
  cases hroot : ((rootRule maxDepth).run (rootView source)).outcome with
  | error reason => rfl
  | ok result =>
      obtain ⟨root, w⟩ := result
      rw [hroot] at hbounds
      have hsource : w.source = source := hbounds.1
      simp only [verdictAfter, tailAt]
      cases hrest : skipBlanks w.rest with
      | nil => rfl
      | cons c cs =>
          show verdictOf source (.error (.failed ⟨.expectedEnd, (w.upTo (c :: cs)).offset⟩)) = _
          rw [View.upTo_offset, hsource]
          rfl

theorem verdictAfter_eq_accepted_iff {e : Element} {rest : List Char} :
    verdictAfter source root rest = .accepted e ↔ root = e ∧ isBlankText rest = true := by
  rw [← skipBlanks_eq_nil_iff, verdictAfter]
  cases hrest : skipBlanks rest with
  | nil => simp
  | cons c cs => simp

/-- A text is rejected behind its root at the first character that is not white space. -/
theorem eq_of_verdictAfter {rest : List Char} {why : Rejection}
    (h : verdictAfter source root rest = .rejected why) :
    why = .ofFailure source ⟨.expectedEnd, source.utf8ByteSize - byteCount (skipBlanks rest)⟩ := by
  unfold verdictAfter at h
  cases hrest : skipBlanks rest with
  | nil => simp [hrest] at h
  | cons c cs =>
      simp only [hrest, Verdict.rejected.injEq] at h
      exact h.symm

/-- A text is accepted if it is derived and the limit leaves room for its tree. -/
theorem parse_eq_accepted_iff {e : Element} :
    parse maxDepth source = .accepted e ↔
      DerivesDocument source.toList e ∧ ∀ limit, maxDepth = some limit → e.height ≤ limit := by
  have hv := valid_rootView source
  have hadmits : (rootRule maxDepth).Admits e.height ↔
      ∀ limit, maxDepth = some limit → e.height ≤ limit := by
    have hroom (limit : Nat) : 1 + e.height ≤ limit + 1 ↔ e.height ≤ limit := by omega
    simp only [ElementRule.Admits, rootRule, hroom]
  rw [parse_eq]
  constructor
  · intro h
    cases hroot : ((rootRule maxDepth).run (rootView source)).outcome with
    | error reason =>
        rw [hroot] at h
        cases reason <;> cases h
    | ok result =>
        obtain ⟨root, w⟩ := result
        rw [hroot] at h
        obtain ⟨rfl, hafter⟩ := verdictAfter_eq_accepted_iff.1 h
        obtain ⟨text, hrest, -, hderives, hheight⟩ := (ElementRule.outcome_run_iff hv).1 hroot
        -- the text is the white space skipped, the root, and what the root leaves
        obtain ⟨before, hbefore, hsource⟩ := exists_blanks_append source.toList
        have hshape : source.toList = before ++ text ++ w.rest := by
          rw [List.append_assoc, ← hrest]
          exact hsource
        exact ⟨⟨before, text, w.rest, hbefore, hderives, hafter, hshape⟩, hadmits.1 hheight⟩
  · rintro ⟨⟨before, text, after, hbefore, hderives, hafter, hsource⟩, hheight⟩
    have hrest : (rootView source).rest = text ++ after := by
      have hstop : ∀ c ∈ (text ++ after).head?, isBlank c = false := by
        -- the text of an element begins with the sign of its tag
        cases hderives <;> rintro c ⟨⟩ <;> decide
      show skipBlanks source.toList = text ++ after
      rw [hsource, List.append_assoc, skipBlanks_append hbefore, skipBlanks_of_stop hstop]
    have hroot : ((rootRule maxDepth).run (rootView source)).outcome =
        .ok (e, (rootView source).upTo after) :=
      (ElementRule.outcome_run_iff hv).2 ⟨text, hrest, rfl, hderives, hadmits.2 hheight⟩
    rw [hroot]
    exact verdictAfter_eq_accepted_iff.2 ⟨rfl, hafter⟩

/-- **The texts accepted are the texts derived**: without a limit a text is accepted with a tree
exactly if that is the tree of a derivation of it. So a text has one tree, however it is
derived. -/
theorem accepts_exactly_derived :
    (∀ (source : String) (e : Element),
      parse none source = .accepted e ↔ DerivesDocument source.toList e) ∧
    ∀ (text : List Char) (e e' : Element),
      DerivesDocument text e → DerivesDocument text e' → e = e' := by
  have haccepted (source : String) (e : Element) :
      parse none source = .accepted e ↔ DerivesDocument source.toList e := by
    rw [parse_eq_accepted_iff]
    constructor
    · rintro ⟨hderives, -⟩
      exact hderives
    · intro hderives
      exact ⟨hderives, nofun⟩
  refine ⟨haccepted, fun text e e' he he' => ?_⟩
  -- the verdict on the text is one, so it names the tree of either derivation
  have htext : (String.ofList text).toList = text := String.toList_ofList
  rw [← htext, ← haccepted] at he he'
  exact Verdict.accepted.inj (he.symm.trans he')

/-- The text of two attributes of one name, of which the later one decides. -/
theorem accepts_exactly_derived_twice :
    DerivesDocument "<a b=\"1\" b=\"2\"/>".toList ⟨"a", .ofList [("b", "1"), ("b", "2")], []⟩ ∧
    DerivesDocument "<a b=\"1\" b=\"2\"/>".toList ⟨"a", .ofList [("b", "2")], []⟩ ∧
    (⟨"a", .ofList [("b", "1"), ("b", "2")], []⟩ : Element) =
      ⟨"a", .ofList [("b", "2")], []⟩ := by
  have hattributes : DerivesAttributes " b=\"1\" b=\"2\"".toList [("b", "1"), ("b", "2")] :=
    @DerivesAttributes.some [' '] ['b'] ['1'] _ _ rfl nofun rfl rfl
      (@DerivesMore.next [' '] ['b'] ['2'] [] [] rfl rfl rfl (.done rfl))
  have hwritten : DerivesDocument "<a b=\"1\" b=\"2\"/>".toList
      ⟨"a", .ofList [("b", "1"), ("b", "2")], []⟩ :=
    ⟨[], _, [], rfl, @Derives.leaf ['a'] _ _ rfl hattributes, rfl, rfl⟩
  have hread : parse none "<a b=\"1\" b=\"2\"/>" =
      .accepted ⟨"a", .ofList [("b", "2")], []⟩ := by
    decide +kernel
  have hderived := (accepts_exactly_derived.1 _ _).1 hread
  exact ⟨hwritten, hderived, accepts_exactly_derived.2 _ _ _ hwritten hderived⟩

end Document

end TagTree
