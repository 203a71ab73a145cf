import TagTree.Proofs.Document.Progress

/-!
# What a reading reports

A reading reports its start, then a closing for every closing tag that it passes, then its
rejection if the text is rejected. The rules that report are tried, given up and tried again, so
it takes an argument that no closing is told twice or left out, and that none is told of a text
that was given up. Here the closings reported are measured by the text alone: they are those of
the tags in it, one after the other as long as they lead on (`Grammar.Account`). In an accepted
document they are the elements of its tree that have a closing tag, in the order in which they
end.
-/

set_option autoImplicit false

namespace TagTree

/-- Whether the element closed has children. -/
def Closing.hasChildren (closing : Closing) : Bool :=
  decide (0 < closing.children)

/-- The closings are some of all elements, in their order, and of the elements that have children
none is left out. -/
structure Selects (closings all : List Closing) : Prop where
  sublist : closings.Sublist all
  parents : closings.filter Closing.hasChildren = all.filter Closing.hasChildren

theorem Selects.refl (closings : List Closing) : Selects closings closings :=
  ⟨List.Sublist.refl closings, rfl⟩

theorem Selects.append {closings all later laterAll : List Closing} (h : Selects closings all)
    (hlater : Selects later laterAll) : Selects (closings ++ later) (all ++ laterAll) := by
  refine ⟨h.sublist.append hlater.sublist, ?_⟩
  rw [List.filter_append, List.filter_append, h.parents, hlater.parents]

/-- An element without children may have no closing tag. -/
theorem selects_nil {closing : Closing} (h : closing.children = 0) : Selects [] [closing] := by
  refine ⟨List.nil_sublist _, ?_⟩
  have hnone : closing.hasChildren = false := by simp [Closing.hasChildren, h]
  rw [List.filter_cons_of_neg (by rw [hnone]; exact Bool.false_ne_true)]

namespace Grammar

open Scan (OpenElement)

variable {maxDepth : Option Nat} {stack : List OpenElement} {text tagText : List Char}
  {closings : List Closing} {closing : Option Closing} {tag : Tag} {progress : Progress}

/-! ## Elements that are complete -/

/-- The elements inside the open ones that have ended, in the order in which they did. -/
def completedIn : List OpenElement → List Closing
  | [] => []
  | o :: outer => completedIn outer ++ Element.postorderAll (outer.length + 2) o.children.reverse

/-- The elements of a document that have ended, in the order in which they did. -/
def Progress.completed : Progress → List Closing
  | .inside stack => completedIn stack
  | .complete root => root.postorder 1

/-- An element that ends does so behind those inside it. -/
theorem postorder_closed (o : OpenElement) (depth : Nat) :
    o.closed.postorder depth =
      Element.postorderAll (depth + 1) o.children.reverse ++
        [⟨o.name, o.children.length, depth⟩] := by
  rw [OpenElement.closed, Element.postorder, List.length_reverse]

/-- An element in its place has ended, and nothing else has. -/
theorem completed_place (e : Element) (stack : List OpenElement) :
    (Progress.place e stack).completed = completedIn stack ++ e.postorder (stack.length + 1) := by
  cases stack with
  | nil => rfl
  | cons o outer =>
      show completedIn (o.add e :: outer) = _
      rw [completedIn, completedIn, OpenElement.add, List.reverse_cons,
        Element.postorderAll_append, List.append_assoc]
      simp [Element.postorderAll]

/-- A tag adds to the elements that have ended the one that it is or closes, and its closing is
told if it has a tag of its own. -/
theorem completed_of_leads (hleads : Leads maxDepth stack tag closing progress)
    (htag : Spells tagText tag) :
    ∃ ended, progress.completed = completedIn stack ++ ended ∧ Selects closing.toList ended := by
  cases hleads with
  | @whole _ e _ =>
      cases htag with
      | @whole name _ pairs hname _ =>
          -- the element of a single tag has no children
          exact ⟨_, completed_place _ _, selects_nil rfl⟩
  | opening _ =>
      refine ⟨[], ?_, Selects.refl []⟩
      simp [Progress.completed, completedIn, Element.postorderAll]
  | @closing o outer =>
      refine ⟨[⟨o.name, o.children.length, outer.length + 1⟩], ?_, Selects.refl _⟩
      rw [completed_place, postorder_closed, ← List.append_assoc]
      rfl

/-- The closings passed are those elements that have ended which have a closing tag. -/
theorem selects_of_comesTo (h : ComesTo maxDepth text closings progress) :
    Selects closings progress.completed := by
  induction h with
  | start _ => exact Selects.refl []
  | tag _ htag hleads ih =>
      obtain ⟨ended, hcompleted, hselects⟩ := completed_of_leads hleads htag
      rw [hcompleted]
      exact ih.append hselects

end Grammar

namespace Scan

open Grammar

variable {maxDepth : Option Nat} {stack : List OpenElement} {source cs rest : List Char}
  {cause : Cause}

/-! ## Accounts and passes -/

/-- Every text has an account. -/
theorem exists_account (maxDepth : Option Nat) (source : List Char) :
    Nonempty (Account maxDepth source) := by
  have hpass := passFrom_cases maxDepth source
  generalize passFrom maxDepth ⟨[], skipBlanks source⟩ = pass at hpass
  cases hpass with
  | @complete text rest closings root h =>
      exact ⟨⟨text, rest, closings, .complete root, rfl, h, trivial⟩⟩
  | @stuck text cs rest closings stack cause h hblank hstep _ =>
      exact ⟨⟨text, cs, closings, .inside stack, rfl, h, hblank, fun _ _ _ _ htag hfront =>
        not_leads_of_stuck hstep htag hfront⟩⟩

/-- Where the machine is stuck it has read some of the text at most. -/
theorem StuckAt.suffix (h : StuckAt maxDepth stack cs cause rest) : rest <:+ cs := by
  cases h with
  | tooDeep => exact List.suffix_append _ _
  | within => exact List.suffix_append _ _
  | @nameEnd name => exact ⟨'<' :: '/' :: name, rfl⟩

/-- How a pass over a text ends, by an account of the text. -/
inductive EndsBy (maxDepth : Option Nat) : Progress → List Char → Ending → Prop where
  | complete {root : Element} {rest : List Char} :
      EndsBy maxDepth (.complete root) rest (.complete root rest)
  | stuck {stack : List OpenElement} {cs rest : List Char} {cause : Cause}
      (h : StuckAt maxDepth stack cs cause rest) :
      EndsBy maxDepth (.inside stack) cs (.stuck cause rest)

theorem EndsBy.of_complete {progress : Progress} {root : Element} {behind : List Char}
    (h : EndsBy maxDepth progress behind (.complete root rest)) :
    progress = .complete root ∧ behind = rest := by
  cases h
  exact ⟨rfl, rfl⟩

/-- A pass over a text passes the closing tags of an account of it, and it ends where the account
does. -/
theorem passFrom_of_account (a : Account maxDepth source) :
    ∃ ending, passFrom maxDepth ⟨[], skipBlanks source⟩ = (a.closings, ending) ∧
      EndsBy maxDepth a.progress a.rest ending := by
  obtain ⟨tags, rest, closings, progress, rfl, hcomesTo, hended⟩ := a
  have hblank : progress = .inside [] → ∀ c ∈ rest.head?, isBlank c = false := by
    rintro rfl
    exact hended.1 rfl
  rw [passFrom_of_comesTo hcomesTo rest hblank]
  cases progress with
  | complete root => exact ⟨_, Prod.ext (List.append_nil closings) rfl, .complete⟩
  | inside stack =>
      have hstep : StepAt maxDepth stack rest (step maxDepth ⟨stack, rest⟩) :=
        stepAt_of_comesTo hcomesTo rest
      generalize hread : step maxDepth ⟨stack, rest⟩ = read at hstep
      show ∃ ending, after closings (passFrom maxDepth ⟨stack, rest⟩) = (closings, ending) ∧ _
      rw [passFrom_eq, hread]
      cases hstep with
      | leads htag hleads => exact absurd hleads (hended.2 _ _ _ _ htag (List.prefix_append _ _))
      | stuck hstuck => exact ⟨_, Prod.ext (List.append_nil closings) rfl, .stuck hstuck⟩

end Scan

namespace Document

open Grammar
open Scan (skipBlanks)

variable {maxDepth : Option Nat} {source : String}

/-! ## Documents -/

/-- A reading tells the closings of an account of its text, and its verdict is told by where the
account ends. -/
theorem read_of_account (a : Account maxDepth source.toList) :
    ∃ e, Scan.EndsBy maxDepth a.progress a.rest e ∧ parse maxDepth source = verdictOn source e ∧
      (read maxDepth source).events =
        .started source.utf8ByteSize maxDepth :: a.closings.map .closed
          ++ ending (parse maxDepth source) := by
  obtain ⟨e, hpass, hends⟩ := Scan.passFrom_of_account a
  have hparse : parse maxDepth source = verdictOn source e := by
    rw [parse_eq_verdictOn, hpass]
  refine ⟨e, hends, hparse, ?_⟩
  rw [hparse, read_eq, hpass]

/-- A text is accepted if white space is all that stands behind its root, and rejected
otherwise. -/
theorem verdictOn_cases (source : String) (e : Scan.Ending) :
    (∃ root rest, e = .complete root rest ∧ isBlankText rest = true ∧
      verdictOn source e = .accepted root) ∨
    ∃ why, verdictOn source e = .rejected why := by
  cases e with
  | stuck cause rest => exact Or.inr ⟨_, rfl⟩
  | complete root rest =>
      cases hrest : skipBlanks rest with
      | nil =>
          have hblank : isBlankText rest = true := skipBlanks_eq_nil_iff.1 hrest
          exact Or.inl ⟨root, rest, rfl, hblank, verdictAfter_eq_accepted_iff.2 ⟨rfl, hblank⟩⟩
      | cons c cs =>
          refine Or.inr ⟨.ofFailure source
            ⟨.expectedEnd, source.utf8ByteSize - byteCount (c :: cs)⟩, ?_⟩
          simp only [verdictOn, verdictAfter, hrest]

/-- The tags of an account are in front of the place of a rejection. -/
theorem byteCount_tags_le {a : Account maxDepth source.toList} {e : Scan.Ending} {why : Rejection}
    (hends : Scan.EndsBy maxDepth a.progress a.rest e)
    (hrejected : verdictOn source e = .rejected why) : byteCount a.tags ≤ why.offset := by
  have hsize : byteCount a.tags + byteCount a.rest = source.utf8ByteSize := by
    rw [← byteCount_append, ← a.source_eq, byteCount_toList]
  have hsuffix : ∃ rest, rest <:+ a.rest ∧ why.offset = source.utf8ByteSize - byteCount rest := by
    generalize a.progress = progress at hends
    generalize a.rest = behind at hends
    cases hends with
    | stuck hstuck =>
        cases hrejected
        exact ⟨_, hstuck.suffix, rfl⟩
    | complete =>
        rw [eq_of_verdictAfter hrejected]
        exact ⟨skipBlanks behind, skipBlanks_suffix behind, rfl⟩
  obtain ⟨rest, hrest, hoffset⟩ := hsuffix
  have hle := byteCount_le_of_suffix hrest
  omega

/-- **The reports of a reading are an exact account of it.** They are, in this order: the start,
with the size of the text and the limit; one closing for each closing tag among the tags that lead
on, in the order of the text, with the name, the number of children and the level of the element
that it closes; and, if and only if the text is rejected, its rejection. All these tags are in
front of the place of a rejection. In an accepted document the closings are elements of its tree in
the order in which they end, each of them once, and none that has children is left out. -/
theorem events_are_account (maxDepth : Option Nat) (source : String) :
    Nonempty (Account maxDepth source.toList) ∧
    ∀ a : Account maxDepth source.toList,
      (∃ root, parse maxDepth source = .accepted root ∧
        (read maxDepth source).events =
          .started source.utf8ByteSize maxDepth :: a.closings.map .closed ∧
        a.progress = .complete root ∧ isBlankText a.rest = true ∧
        Selects a.closings (root.postorder 1)) ∨
      ∃ why, parse maxDepth source = .rejected why ∧
        (read maxDepth source).events =
          .started source.utf8ByteSize maxDepth :: a.closings.map .closed ++ [.rejected why] ∧
        byteCount a.tags ≤ why.offset := by
  refine ⟨Scan.exists_account maxDepth source.toList, fun a => ?_⟩
  obtain ⟨e, hends, hparse, hevents⟩ := read_of_account a
  rcases verdictOn_cases source e with ⟨root, rest, rfl, hblank, hverdict⟩ | ⟨why, hverdict⟩
  · have hselects := selects_of_comesTo a.comesTo
    obtain ⟨hprogress, hrest⟩ := hends.of_complete
    rw [hprogress] at hselects
    rw [hparse, hverdict] at hevents ⊢
    rw [hrest]
    exact Or.inl ⟨root, rfl, hevents.trans (List.append_nil _), hprogress, hblank, hselects⟩
  · rw [hparse, hverdict] at hevents ⊢
    exact Or.inr ⟨why, rfl, hevents, byteCount_tags_le hends hverdict⟩

/-- An element in a single tag has no closing; the two others have one each, though one of them
has no children. -/
theorem events_are_account_siblings :
    ∃ a : Account none "<a><b></b><c/></a>".toList,
      a.closings = [⟨"b", 0, 2⟩, ⟨"a", 2, 1⟩] ∧
      (read none "<a><b></b><c/></a>").events =
        [.started 18 none, .closed ⟨"b", 0, 2⟩, .closed ⟨"a", 2, 1⟩] := by
  have hopenA : ComesTo none "<a>".toList [] (.inside [⟨"a", .ofList [], []⟩]) :=
    (@ComesTo.start none [] rfl).tag (@Spells.opening ['a'] _ _ rfl .none)
      (.opening (allowsLevel_none 1))
  have hopenB : ComesTo none "<a><b>".toList []
      (.inside [⟨"b", .ofList [], []⟩, ⟨"a", .ofList [], []⟩]) :=
    hopenA.tag (@Spells.opening ['b'] _ _ rfl .none) (.opening (allowsLevel_none 2))
  have hcloseB : ComesTo none "<a><b></b>".toList [⟨"b", 0, 2⟩]
      (.inside [⟨"a", .ofList [], [⟨"b", .ofList [], []⟩]⟩]) :=
    hopenB.tag (@Spells.closing ['b'] rfl) .closing
  have hleafC : ComesTo none "<a><b></b><c/>".toList [⟨"b", 0, 2⟩]
      (.inside [⟨"a", .ofList [], [⟨"c", .ofList [], []⟩, ⟨"b", .ofList [], []⟩]⟩]) :=
    hcloseB.tag (@Spells.whole ['c'] _ _ rfl .none) (.whole (allowsLevel_none 2))
  have hcloseA : ComesTo none "<a><b></b><c/></a>".toList [⟨"b", 0, 2⟩, ⟨"a", 2, 1⟩]
      (.complete ⟨"a", .ofList [], [⟨"b", .ofList [], []⟩, ⟨"c", .ofList [], []⟩]⟩) :=
    hleafC.tag (@Spells.closing ['a'] rfl) .closing
  let a : Account none "<a><b></b><c/></a>".toList :=
    ⟨_, [], _, _, (List.append_nil _).symm, hcloseA, trivial⟩
  refine ⟨a, rfl, ?_⟩
  rcases (events_are_account none "<a><b></b><c/></a>").2 a with
    ⟨root, -, hevents, -⟩ | ⟨why, hrejected, -⟩
  · exact hevents
  · have haccepted : parse none "<a><b></b><c/></a>" = .accepted
        ⟨"a", .ofList [], [⟨"b", .ofList [], []⟩, ⟨"c", .ofList [], []⟩]⟩ := by
      decide +kernel
    rw [haccepted] at hrejected
    cases hrejected

end Document

end TagTree
