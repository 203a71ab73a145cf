import TagTree.Proofs.Document.Progress

/-!
# Up to the place of a rejection

A text is rejected at a place, and up to that place it was the beginning of a document
(`Document.rejected_behind_beginning`). The document is built from what the tags have come to:
the tag begun is completed, if there is one, and the closing tags of the elements that are open
follow. A closing tag whose name does not end where it should is the one exception, for the name
may be wrong already.
-/

set_option autoImplicit false

namespace TagTree

namespace Grammar

open Scan (OpenElement)

variable {m m' : Option Nat} {stack : List OpenElement} {text tagText : List Char}
  {closings : List Closing} {closing : Option Closing} {tag : Tag} {progress : Progress}

/-! ## Limits -/

/-- What leads on with a limit does so with one that allows more levels. -/
theorem Leads.mono (h : Leads m stack tag closing progress)
    (hlevels : ∀ level, AllowsLevel m level → AllowsLevel m' level) :
    Leads m' stack tag closing progress := by
  cases h with
  | whole hlevel => exact .whole (hlevels _ hlevel)
  | opening hlevel => exact .opening (hlevels _ hlevel)
  | closing => exact .closing

theorem ComesTo.mono (h : ComesTo m text closings progress)
    (hlevels : ∀ level, AllowsLevel m level → AllowsLevel m' level) :
    ComesTo m' text closings progress := by
  induction h with
  | start hblanks => exact .start hblanks
  | tag _ htag hleads ih => exact ih.tag htag (hleads.mono hlevels)

theorem ComesTo.unlimited (h : ComesTo m text closings progress) :
    ComesTo none text closings progress :=
  h.mono fun level _ => allowsLevel_none level

/-- A start tag leads on at every level that is allowed. -/
theorem exists_leads (hstart : tag.isStart = true) (hlevel : AllowsLevel m (stack.length + 1)) :
    ∃ progress, Leads m stack tag none progress := by
  cases tag with
  | whole e => exact ⟨_, .whole hlevel⟩
  | opening e => exact ⟨_, .opening hlevel⟩
  | closing name => cases hstart

/-! ## Closing what is open -/

/-- Behind the closing tags of the elements that are open the root is complete. -/
theorem exists_complete_inside {o : OpenElement} {outer : List OpenElement}
    (h : ComesTo m text closings (.inside (o :: outer))) :
    ∃ later root,
      ComesTo m (text ++ closingTags ((o :: outer).map OpenElement.name)) later
        (.complete root) := by
  -- by induction on the elements around the innermost one, which its closing tag leaves open
  induction outer generalizing o text closings with
  | nil =>
      have hname := isName_of_comesTo h o.name List.mem_cons_self
      have hclosed := h.tag (spells_closing_iff.2 ⟨hname, rfl⟩) .closing
      have htags : closingTags [o.name] = closingTag o.name := List.append_nil _
      exact ⟨_, o.closed, by rw [List.map_singleton, htags]; exact hclosed⟩
  | cons p outer ih =>
      have hname := isName_of_comesTo h o.name List.mem_cons_self
      have hclosed := h.tag (spells_closing_iff.2 ⟨hname, rfl⟩) .closing
      obtain ⟨later, root, hcomplete⟩ := ih hclosed
      refine ⟨later, root, ?_⟩
      rwa [List.append_assoc] at hcomplete

theorem exists_complete (h : ComesTo m text closings progress) (hne : progress ≠ .inside []) :
    ∃ later root,
      ComesTo m (text ++ closingTags progress.openNames) later (.complete root) := by
  cases progress with
  | complete root => exact ⟨closings, root, by simpa [Progress.openNames, closingTags] using h⟩
  | inside stack =>
      cases stack with
      | nil => exact absurd rfl hne
      | cons o outer => exact exists_complete_inside h

end Grammar

namespace Document

open Grammar
open Scan (OpenElement skipBlanks)

variable {m : Option Nat} {source : String} {text piece completion rest : List Char}
  {closings : List Closing} {stack : List OpenElement} {tag : Tag} {closing : Option Closing}
  {progress : Progress} {root : Element}

/-! ## Acceptance -/

/-- What stands behind the tags that complete the root decides the verdict. -/
theorem parse_of_comesTo (h : ComesTo m text closings (.complete root))
    (hsource : source.toList = text ++ rest) :
    parse m source = verdictAfter source root rest := by
  have hpass := Scan.passFrom_of_comesTo h rest nofun
  rw [parse_eq_verdictOn, hsource, hpass]
  rfl

/-- A text whose tags complete the root is accepted, and white space may follow. -/
theorem accepted_of_comesTo (h : ComesTo m text closings (.complete root))
    (hblank : isBlankText rest = true) :
    parse m (String.ofList (text ++ rest)) = .accepted root := by
  rw [parse_of_comesTo h String.toList_ofList]
  exact verdictAfter_eq_accepted_iff.2 ⟨rfl, hblank⟩

/-- The place in front of what is left of a text, in bytes. -/
theorem size_sub_byteCount {read : List Char} (hsource : source.toList = read ++ rest) :
    source.utf8ByteSize - byteCount rest = byteCount read := by
  rw [← byteCount_toList, hsource, byteCount_append, Nat.add_sub_cancel]

/-- Where the machine is stuck behind the beginning of a document, the text is rejected. -/
theorem parse_of_stuck {cause : Cause} (h : ComesTo m text closings (.inside stack))
    (hblank : stack = [] → ∀ c ∈ (piece ++ rest).head?, isBlank c = false)
    (hstep : Scan.step m ⟨stack, piece ++ rest⟩ = (none, .ending (.stuck cause rest)))
    (hsource : source.toList = text ++ piece ++ rest) :
    parse m source = .rejected (.ofFailure source ⟨cause, byteCount (text ++ piece)⟩) := by
  have hstart : Progress.inside stack = .inside [] →
      ∀ c ∈ (piece ++ rest).head?, isBlank c = false := by
    rintro ⟨⟩
    exact hblank rfl
  rw [← size_sub_byteCount hsource, parse_eq_verdictOn, hsource, List.append_assoc,
    Scan.passFrom_of_comesTo h _ hstart]
  show verdictOn source (Scan.after closings (Scan.passFrom _ _)).2 = _
  rw [Scan.passFrom_eq, hstep]
  rfl

/-- A text cut in two. -/
theorem eq_append_of_toList {read : List Char} (hsource : source.toList = read ++ rest) :
    source = String.ofList read ++ String.ofList rest := by
  rw [← String.ofList_append, ← hsource, String.ofList_toList]

/-- The text can be extended to a document. -/
def Extendable (text : String) : Prop :=
  ∃ more root, parse none (text ++ more) = .accepted root

/-- A tag that leads on can be extended to a document, and so can a piece of it. -/
theorem extendable_of_leads (h : ComesTo m text closings (.inside stack))
    (htag : Spells (piece ++ completion) tag) (hleads : Leads none stack tag closing progress) :
    Extendable (String.ofList (text ++ piece)) := by
  obtain ⟨later, root, hcomplete⟩ :=
    exists_complete (h.unlimited.tag htag hleads) (ne_start_of_leads hleads)
  have haccepted : parse none (String.ofList (_ ++ [])) = .accepted root :=
    accepted_of_comesTo hcomplete rfl
  refine ⟨String.ofList (completion ++ closingTags progress.openNames), root, ?_⟩
  rw [← String.ofList_append]
  simpa using haccepted

/-- Where the machine is stuck the text passed can be extended to a document, unless the end of a
closing tag is missing behind its name: then the text can up to the sign of that tag. -/
theorem extendable_of_stuckAt {cs : List Char} {cause : Cause}
    (h : ComesTo m text closings (.inside stack)) (hstuck : Scan.StuckAt m stack cs cause rest) :
    ∃ piece, cs = piece ++ rest ∧
      (Extendable (String.ofList (text ++ piece)) ∨
      ∃ name, isName name = true ∧ piece = ['<', '/'] ++ name ∧
        cause = causeAt (.literalMismatch ">") rest ∧
        (∀ c ∈ rest.head?, isNamePart c = false ∧ c ≠ '>') ∧
        Extendable (String.ofList (text ++ ['<', '/']))) := by
  cases hstuck with
  | @tooDeep tagText _ tag limit htag hstart _ _ =>
      obtain ⟨progress, hleads⟩ := exists_leads hstart (allowsLevel_none (stack.length + 1))
      have hwhole : Spells (tagText ++ []) tag := by rwa [List.append_nil]
      exact ⟨tagText, rfl, Or.inl (extendable_of_leads h hwhole hleads)⟩
  | @within piece completion _ _ tag closing progress htag hleads _ =>
      exact ⟨piece, rfl, Or.inl (extendable_of_leads h htag hleads)⟩
  | @nameEnd name _ hopen hname hrest =>
      cases stack with
      | nil => exact absurd rfl hopen
      | cons o outer =>
          -- the name of the innermost element would have done
          have hisName := isName_of_comesTo h o.name List.mem_cons_self
          have htag : Spells (['<', '/'] ++ (o.name.toList ++ ['>'])) (.closing o.name) :=
            spells_closing_iff.2 ⟨hisName, rfl⟩
          exact ⟨['<', '/'] ++ name, rfl,
            Or.inr ⟨name, hname, rfl, rfl, hrest, extendable_of_leads h htag .closing⟩⟩

/-- **A rejected text is the beginning of a document up to the place of its rejection**: the text
in front of the place can be extended to a document that is accepted without a limit, whatever the
limit was. The one exception is a closing tag that does not end behind its name. The name need not
be the right one, but up to the sign of the tag the text can be so extended. -/
theorem rejected_behind_beginning (m : Option Nat) (source : String) (why : Rejection)
    (h : parse m source = .rejected why) :
    ∃ read rest, source = read ++ rest ∧ read.utf8ByteSize = why.offset ∧
      (Extendable read ∨
      ∃ before name, read = before ++ "</" ++ name ∧ isName name.toList = true ∧
        why.cause = causeAt (.literalMismatch ">") rest.toList ∧
        (∀ c ∈ rest.toList.head?, isNamePart c = false ∧ c ≠ '>') ∧
        Extendable (before ++ "</")) := by
  have hpass := Scan.passFrom_cases m source.toList
  rw [parse_eq_verdictOn] at h
  generalize Scan.passFrom m ⟨[], skipBlanks source.toList⟩ = pass at h hpass
  generalize hsource : source.toList = cs at hpass
  cases hpass with
  | @complete text rest closings root hcomesTo =>
      obtain ⟨blanks, hblanks, hrest⟩ := exists_blanks_append rest
      have hread : source.toList = (text ++ blanks) ++ skipBlanks rest := by
        rw [hsource, List.append_assoc, ← hrest]
      refine ⟨_, _, eq_append_of_toList hread, ?_, Or.inl ⟨"", root, ?_⟩⟩
      · rw [eq_of_verdictAfter h, utf8ByteSize_ofList]
        exact (size_sub_byteCount hread).symm
      · rw [String.append_empty]
        exact accepted_of_comesTo hcomesTo.unlimited hblanks
  | @stuck text cs rest closings stack cause hcomesTo _ _ hstuck =>
      cases h
      obtain ⟨piece, rfl, hpiece⟩ := extendable_of_stuckAt hcomesTo hstuck
      have hread : source.toList = (text ++ piece) ++ rest := by
        rw [hsource, List.append_assoc]
      refine ⟨_, _, eq_append_of_toList hread, ?_, ?_⟩
      · rw [utf8ByteSize_ofList]
        exact (size_sub_byteCount hread).symm
      · rcases hpiece with hextendable | ⟨name, hname, rfl, hcause, hend, hextendable⟩
        · exact Or.inl hextendable
        · have hsign : String.ofList (text ++ ['<', '/']) = String.ofList text ++ "</" :=
            String.ofList_append
          rw [hsign] at hextendable
          refine Or.inr ⟨String.ofList text, String.ofList name, ?_, ?_, ?_, ?_, hextendable⟩
          · rw [← hsign, ← String.ofList_append, List.append_assoc]
          · rwa [String.toList_ofList]
          · rw [String.toList_ofList]
            exact hcause
          · rwa [String.toList_ofList]

/-- A closing tag of the wrong name: in front of it everything was fine. -/
theorem rejected_behind_beginning_mismatch :
    parse none "<a><b></a></b>" = .rejected ⟨.tagMismatch "b" "a", 6, ⟨1, 7⟩⟩ ∧
    ∃ read rest, "<a><b></a></b>" = read ++ rest ∧ read.utf8ByteSize = 6 ∧ Extendable read := by
  have hrejected : parse none "<a><b></a></b>" =
      .rejected ⟨.tagMismatch "b" "a", 6, ⟨1, 7⟩⟩ := by
    decide +kernel
  refine ⟨hrejected, ?_⟩
  obtain ⟨read, rest, hsource, hsize, hextendable | ⟨before, name, -, -, hcause, -⟩⟩ :=
    rejected_behind_beginning none "<a><b></a></b>" _ hrejected
  · exact ⟨read, rest, hsource, hsize, hextendable⟩
  · unfold causeAt at hcause
    split at hcause <;> cases hcause

end Document

end TagTree
