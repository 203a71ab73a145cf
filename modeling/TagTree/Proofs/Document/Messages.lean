import TagTree.Proofs.Document.Progress
import TagTree.Proofs.Text.Positions
import TagTree.Text.Lines

/-!
# What a rejection tells

A rejection is told in one line, and with numbers that are no larger than the text. Its message
quotes names that stand in the text, but a name has no line break in it, and nothing else of the
text is ever quoted (`Document.isOneLine_message`). A text has a line for each of its line feeds
and one more, and a column for each character and one more, so lines and columns are bounded by
the bytes of the text (`Document.position_le`).
-/

set_option autoImplicit false

namespace TagTree

/-! ## Texts of one line -/

/-- Whether a text has no character in it that ends a line. -/
def isOneLine (text : String) : Bool :=
  text.toList.all fun c => c != '\n' && c != '\r'

theorem isOneLine_append {text more : String} (h : isOneLine text = true)
    (hmore : isOneLine more = true) : isOneLine (text ++ more) = true := by
  rw [isOneLine, String.toList_append, List.all_append, Bool.and_eq_true]
  exact ⟨h, hmore⟩

/-- A text of one line is the one line of what is written with a line feed behind it. -/
theorem textLines_of_isOneLine {text : String} (h : isOneLine text = true) :
    textLines (text ++ "\n") = [text] := by
  have hkept : ∀ c ∈ text.toList, c ≠ '\n' ∧ c ≠ '\r' := by
    simpa [isOneLine] using h
  have hfeed : '\n' ∉ text.toList := fun hc => (hkept _ hc).1 rfl
  have hreturn : text.toList.getLast? ≠ some '\r' := fun hlast =>
    (hkept _ (List.mem_of_getLast? hlast)).2 rfl
  have htext : (text ++ "\n").toList = text.toList ++ '\n' :: [] := String.toList_append
  rw [textLines, htext, linesFrom_line hfeed hreturn]
  simp [linesFrom]

/-- A text is of one line if its characters are of a kind that does not end lines. -/
theorem isOneLine_of_all {text : String} {test : Char → Bool}
    (h : ∀ c ∈ text.toList, test c = true) (hfeed : test '\n' = false)
    (hreturn : test '\r' = false) : isOneLine text = true := by
  refine List.all_eq_true.2 fun c hc => ?_
  have htest := h c hc
  rw [Bool.and_eq_true, bne_iff_ne, bne_iff_ne]
  constructor
  · rintro rfl
    rw [hfeed] at htest
    cases htest
  · rintro rfl
    rw [hreturn] at htest
    cases htest

theorem isOneLine_of_isName {name : String} (h : isName name.toList = true) :
    isOneLine name = true :=
  isOneLine_of_all (List.all_eq_true.1 (Grammar.all_of_isName h)) rfl rfl

theorem isOneLine_toString (n : Nat) : isOneLine (toString n) = true := by
  have htext : (toString n).toList = Nat.toDigits 10 n := Nat.toList_repr
  have hdigits : ∀ c ∈ (toString n).toList, c.isDigit = true := by
    rw [htext]
    exact fun c hc => Nat.isDigit_of_mem_toDigits (by decide) (by decide) hc
  exact isOneLine_of_all hdigits rfl rfl

/-! ## Messages -/

/-- Whether what a cause quotes is of one line. -/
def Cause.quotesOneLine : Cause → Bool
  | literalMismatch expected => isOneLine expected
  | tagMismatch expected found => isOneLine expected && isOneLine found
  | _ => true

theorem Cause.isOneLine_message {cause : Cause} (h : cause.quotesOneLine = true) :
    isOneLine cause.message = true := by
  cases cause with
  | literalMismatch expected =>
      have hfront : isOneLine ("expected `" ++ expected) = true :=
        isOneLine_append (by decide +kernel) h
      exact isOneLine_append hfront (by decide +kernel)
  | tagMismatch expected found =>
      obtain ⟨hexpected, hfound⟩ := Bool.and_eq_true_iff.1 h
      have hclosing : isOneLine ("closing tag `" ++ found) = true :=
        isOneLine_append (by decide +kernel) hfound
      have hopening : isOneLine ("closing tag `" ++ found ++ "` does not match opening tag `"
          ++ expected) = true :=
        isOneLine_append (isOneLine_append hclosing (by decide +kernel)) hexpected
      exact isOneLine_append hopening (by decide +kernel)
  | nestingTooDeep limit =>
      have hfront : isOneLine ("elements nested deeper than " ++ toString limit) = true :=
        isOneLine_append (by decide +kernel) (isOneLine_toString limit)
      exact isOneLine_append hfront (by decide +kernel)
  | unexpectedEnd => decide +kernel
  | predicateMismatch => decide +kernel
  | noAlternative => decide +kernel
  | expectedEnd => decide +kernel

theorem Rejection.isOneLine_message {why : Rejection} (h : why.cause.quotesOneLine = true) :
    isOneLine why.message = true := by
  have hline : isOneLine ("Parse error at line " ++ toString why.position.line) = true :=
    isOneLine_append (by decide +kernel) (isOneLine_toString _)
  have hcolumn : isOneLine ("Parse error at line " ++ toString why.position.line ++ ", column "
      ++ toString why.position.column) = true :=
    isOneLine_append (isOneLine_append hline (by decide +kernel)) (isOneLine_toString _)
  exact isOneLine_append (isOneLine_append hcolumn (by decide +kernel))
    (Cause.isOneLine_message h)

namespace Scan

open Grammar

variable {maxDepth : Option Nat} {stack outer : List OpenElement} {innermost : OpenElement}
  {cs tag : List Char}

/-- Whatever a tag leads to, if it is being stuck, then for a cause that quotes one line. -/
def Next.QuotesOneLine (next : Next) : Prop :=
  ∀ cause rest, next = .ending (.stuck cause rest) → cause.quotesOneLine = true

theorem quotesOneLine_stuckAt {cause : Cause} (h : cause.quotesOneLine = true)
    (rest : List Char) : (stuckAt cause rest).QuotesOneLine := by
  rintro cause' rest' ⟨⟩
  split
  · rfl
  · exact h

theorem quotesOneLine_place (e : Element) (stack : List OpenElement) (rest : List Char) :
    (place e stack rest).QuotesOneLine := by
  cases stack <;> nofun

theorem quotesOneLine_closeTag (hname : isOneLine innermost.name = true) :
    (closeTag innermost outer tag cs).2.QuotesOneLine := by
  unfold closeTag
  split
  · exact quotesOneLine_stuckAt rfl cs
  · rename_i name rest hread
    split
    · exact quotesOneLine_place _ _ _
    · -- the name found is one that was read
      have hfound : isName (String.ofList name).toList = true := by
        rw [String.toList_ofList]
        exact (name?_eq_some hread).1
      rintro cause rest ⟨⟩
      exact Bool.and_eq_true_iff.2 ⟨hname, isOneLine_of_isName hfound⟩
  · exact quotesOneLine_stuckAt (by decide) _

theorem quotesOneLine_openTag : (openTag maxDepth stack cs).QuotesOneLine := by
  unfold openTag
  split
  · exact quotesOneLine_stuckAt rfl cs
  · simp only
    split
    · exact quotesOneLine_place _ _ _
    · rintro cause rest ⟨⟩
      rfl
    · nofun
    · rintro cause rest ⟨⟩
      rfl
    · exact quotesOneLine_stuckAt (by decide) _

/-- The machine is stuck for causes that quote names of open elements, and names that it has
read. -/
theorem quotesOneLine_step (hnames : ∀ o ∈ stack, isName o.name.toList = true) :
    (step maxDepth ⟨stack, cs⟩).2.QuotesOneLine := by
  unfold step
  split
  · rename_i innermost outer _ hstack _
    have hname := hnames innermost (by rw [show stack = _ from hstack]; exact List.mem_cons_self)
    exact quotesOneLine_closeTag (isOneLine_of_isName hname)
  · exact quotesOneLine_openTag
  · exact quotesOneLine_stuckAt (by decide) _
  · exact quotesOneLine_stuckAt (by decide) _

end Scan

namespace Document

variable {maxDepth : Option Nat} {source : String} {why : Rejection}

/-- A rejection is told in one line. -/
theorem isOneLine_message (h : parse maxDepth source = .rejected why) :
    isOneLine why.message = true := by
  refine Rejection.isOneLine_message ?_
  have hpass := Scan.passFrom_cases maxDepth source.toList
  rw [parse_eq_verdictOn] at h
  generalize Scan.passFrom maxDepth ⟨[], Scan.skipBlanks source.toList⟩ = pass at h hpass
  generalize source.toList = text at hpass
  cases hpass with
  | complete _ =>
      rw [eq_of_verdictAfter h]
      rfl
  | @stuck _ _ rest _ _ cause hcomes _ hstep _ =>
      have hnames := fun (o : Scan.OpenElement) ho =>
        Grammar.isName_of_comesTo hcomes o.name (List.mem_map_of_mem ho)
      cases h
      exact Scan.quotesOneLine_step hnames cause rest (congrArg Prod.snd hstep)

/-- The line and the column of a rejection are at most one more than the bytes of the text. -/
theorem position_le (h : parse maxDepth source = .rejected why) :
    why.position.line ≤ source.utf8ByteSize + 1 ∧
      why.position.column ≤ source.utf8ByteSize + 1 := by
  obtain ⟨before, after, hsource, -, hlocate⟩ := Position.exists_locate_eq source why.offset
  have hlength : before.toList.length ≤ source.utf8ByteSize := by
    have hle := length_le_byteCount before.toList
    rw [byteCount_toList] at hle
    exact hle.trans (hsource ▸ by rw [String.utf8ByteSize_append]; omega)
  have hfeeds : before.toList.count '\n' ≤ before.toList.length := List.count_le_length
  have hlast := (List.rtakeWhile_suffix (· != '\n') before.toList).length_le
  rw [(position_of_rejected h).1, hlocate]
  constructor
  · show 1 + before.toList.count '\n' ≤ _
    omega
  · show 1 + (before.toList.rtakeWhile (· != '\n')).length ≤ _
    omega

end Document

end TagTree
