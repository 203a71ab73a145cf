import TagTree.Proofs.Document.FirstTooDeep
import TagTree.Proofs.Grammar.Depth

/-!
# Closing tags of the wrong name

A document that has a closing tag replaced by one of another name, and anything at all behind
that, is rejected for that tag, at its place (`Document.wrong_closing_tag_is_reported`). It does not
matter how deep the element lies, what stands before it, and whether an element further out has
the name.

The closing tags of a document are found in its derivation: one belongs to the element itself, the
others to the elements among its children (`Grammar.ClosesIn`, `Grammar.ClosesAmong`). In front of
such a tag the document has come to its element, open and innermost, so the one-pass machine can
only compare the two names.
-/

set_option autoImplicit false

namespace TagTree

namespace Grammar

open Scan (OpenElement)

variable {m : Option Nat} {name : String} {text inside attributes : List Char}
  {pairs : List (String × String)} {stack : List OpenElement} {children : List Element}

/-! ## Closing tags in a derivation -/

mutual

/-- The text is this element, and behind `before` there stands in it the closing tag of an element
of the name: of the element itself, or of one inside. -/
inductive ClosesIn (name : String) : List Char → Element → List Char → Prop where
  | own {attributes inside : List Char} {pairs : List (String × String)}
      {children : List Element} (hname : isName name.toList = true)
      (hattributes : DerivesAttributes attributes pairs) (hchildren : DerivesAll inside children) :
      ClosesIn name (openTagText name.toList attributes ++ inside ++ closingTag name)
        ⟨name, .ofList pairs, children⟩ (openTagText name.toList attributes ++ inside)
  | inner {outer : String} {attributes inside before : List Char}
      {pairs : List (String × String)} {children : List Element}
      (houter : isName outer.toList = true) (hattributes : DerivesAttributes attributes pairs)
      (h : ClosesAmong name inside children before) :
      ClosesIn name (openTagText outer.toList attributes ++ inside ++ closingTag outer)
        ⟨outer, .ofList pairs, children⟩ (openTagText outer.toList attributes ++ before)

/-- The text is these elements, and behind `before` there stands the closing tag of an element of
the name in one of them. -/
inductive ClosesAmong (name : String) : List Char → List Element → List Char → Prop where
  | first {text more before : List Char} {e : Element} {es : List Element}
      (h : ClosesIn name text e before) (hes : DerivesAll more es) :
      ClosesAmong name (text ++ more) (e :: es) before
  | later {text more before : List Char} {e : Element} {es : List Element} (he : Derives text e)
      (h : ClosesAmong name more es before) :
      ClosesAmong name (text ++ more) (e :: es) (text ++ before)

end

/-- The text is a document, and behind `before` there stands in it the closing tag of an element of
the name. -/
def ClosesInDocument (name : String) (text before : List Char) : Prop :=
  ∃ blanks inside after e place, isBlankText blanks = true ∧ ClosesIn name inside e place ∧
    isBlankText after = true ∧ text = blanks ++ inside ++ after ∧ before = blanks ++ place

/-- The text of an element with children, from tag to tag. -/
theorem parentText_eq (name attributes inside : List Char) :
    '<' :: (name ++ attributes ++ '>' :: (inside ++ '<' :: '/' :: (name ++ ['>']))) =
      openTagText name attributes ++ inside ++ closingTag (String.ofList name) := by
  simp [openTagText, closingTag]

theorem derives_parent (hname : isName name.toList = true)
    (hattributes : DerivesAttributes attributes pairs) (hchildren : DerivesAll inside children) :
    Derives (openTagText name.toList attributes ++ inside ++ closingTag name)
      ⟨name, .ofList pairs, children⟩ := by
  have hderives := Derives.parent hname hattributes hchildren
  rwa [parentText_eq, String.ofList_toList] at hderives

mutual

theorem derives_of_closesIn {text before : List Char} {e : Element}
    (h : ClosesIn name text e before) : Derives text e := by
  cases h with
  | own hname hattributes hchildren => exact derives_parent hname hattributes hchildren
  | inner houter hattributes h =>
      exact derives_parent houter hattributes (derivesAll_of_closesAmong h)

theorem derivesAll_of_closesAmong {text before : List Char} {children : List Element}
    (h : ClosesAmong name text children before) :
    DerivesAll text children := by
  cases h with
  | first h hes => exact .cons (derives_of_closesIn h) hes
  | later he h => exact .cons he (derivesAll_of_closesAmong h)

end

mutual

/-- The closing tag does stand there. -/
theorem closingTag_of_closesIn {text before : List Char} {e : Element}
    (h : ClosesIn name text e before) :
    before ++ closingTag name <+: text := by
  cases h with
  | own _ _ _ => exact List.prefix_refl _
  | inner _ _ h =>
      rw [List.append_assoc, List.append_assoc]
      exact (List.prefix_append_right_inj _).2
        ((closingTag_of_closesAmong h).trans (List.prefix_append _ _))

theorem closingTag_of_closesAmong {text before : List Char} {children : List Element}
    (h : ClosesAmong name text children before) :
    before ++ closingTag name <+: text := by
  cases h with
  | first h _ => exact (closingTag_of_closesIn h).trans (List.prefix_append _ _)
  | later _ h =>
      rw [List.append_assoc]
      exact (List.prefix_append_right_inj _).2 (closingTag_of_closesAmong h)

end

/-! ## What a derivation comes to -/

/-- The tags of the text have come to this, whatever closing tags are among them. -/
def Arrives (m : Option Nat) (text : List Char) (progress : Progress) : Prop :=
  ∃ closings, ComesTo m text closings progress

theorem Arrives.tag {tagText : List Char} {tag : Tag} {closing : Option Closing}
    {progress : Progress} (h : Arrives m text (.inside stack)) (htag : Spells tagText tag)
    (hleads : Leads m stack tag closing progress) : Arrives m (text ++ tagText) progress := by
  obtain ⟨closings, hcomesTo⟩ := h
  exact ⟨_, hcomesTo.tag htag hleads⟩

/-- Behind an opening tag its element is open, without children. -/
theorem Arrives.opening (h : Arrives m text (.inside stack)) (hname : isName name.toList = true)
    (hattributes : DerivesAttributes attributes pairs)
    (hlevel : AllowsLevel m (stack.length + 1)) :
    Arrives m (text ++ openTagText name.toList attributes)
      (.inside (⟨name, .ofList pairs, []⟩ :: stack)) := by
  have hspells := Spells.opening hname hattributes
  rw [String.ofList_toList] at hspells
  exact h.tag hspells (.opening hlevel)

/-- An element with its children takes the level of its tag, and theirs below. -/
theorem AllowsLevel.parent {n : Nat} {attributes : Attributes}
    (h : AllowsLevel m (n + Element.height ⟨name, attributes, children⟩)) :
    AllowsLevel m (n + 1) ∧ AllowsLevel m (n + 1 + Element.maxHeight children) := by
  have hlevels : AllowsLevel m (n + (Element.maxHeight children + 1)) := h
  exact ⟨hlevels.mono (by omega), hlevels.mono (by omega)⟩

/-- Trees one after the other take the levels of the first one, and those of the others. -/
theorem AllowsLevel.siblings {n : Nat} {e : Element} {es : List Element}
    (h : AllowsLevel m (n + Element.maxHeight (e :: es))) :
    AllowsLevel m (n + e.height) ∧ AllowsLevel m (n + Element.maxHeight es) := by
  have hlevels : AllowsLevel m (n + max e.height (Element.maxHeight es)) := h
  exact ⟨hlevels.mono (by omega), hlevels.mono (by omega)⟩

mutual

/-- Behind the text of an element it stands in its place, if its levels are allowed. -/
theorem arrives_of_derives {text : List Char} {e : Element} (h : Derives text e) :
    ∀ {front : List Char} {stack : List OpenElement}, Arrives m front (.inside stack) →
      AllowsLevel m (stack.length + e.height) → Arrives m (front ++ text) (.place e stack) := by
  cases h with
  | leaf hname hattributes =>
      intro front stack hfront hlevel
      exact hfront.tag (.whole hname hattributes) (.whole hlevel)
  | @parent cs attributes inside pairs children hname hattributes hchildren =>
      intro front stack hfront hlevel
      obtain ⟨name, rfl⟩ : ∃ name : String, cs = name.toList :=
        ⟨String.ofList cs, String.toList_ofList.symm⟩
      obtain ⟨hhere, hbelow⟩ := hlevel.parent
      have hopened := hfront.opening hname hattributes hhere
      have hinside := arrives_of_derivesAll hchildren hopened hbelow
      have hclosed := hinside.tag (spells_closing_iff.2 ⟨hname, rfl⟩) .closing
      rw [List.append_nil, Scan.OpenElement.closed, List.reverse_reverse] at hclosed
      rw [parentText_eq, String.ofList_toList, ← List.append_assoc, ← List.append_assoc]
      exact hclosed

/-- Behind the texts of some elements they are the last children of the innermost open element. -/
theorem arrives_of_derivesAll {text : List Char} {children : List Element}
    (h : DerivesAll text children) :
    ∀ {front : List Char} {o : OpenElement} {outer : List OpenElement},
      Arrives m front (.inside (o :: outer)) →
      AllowsLevel m (outer.length + 1 + Element.maxHeight children) →
      Arrives m (front ++ text)
        (.inside ({ o with children := children.reverse ++ o.children } :: outer)) := by
  cases h with
  | nil =>
      intro front o outer hfront _
      rwa [List.append_nil]
  | @cons text more e es he hes =>
      intro front o outer hfront hlevel
      obtain ⟨hfirst, hothers⟩ := hlevel.siblings
      have hplaced : Arrives m (front ++ text) (.inside (o.add e :: outer)) :=
        arrives_of_derives he hfront hfirst
      have hlater := arrives_of_derivesAll hes hplaced hothers
      rw [List.reverse_cons, List.append_assoc, ← List.append_assoc]
      exact hlater

end

mutual

/-- In front of a closing tag its element is open, and no other one is further in. -/
theorem arrives_of_closesIn {text before : List Char} {e : Element}
    (h : ClosesIn name text e before) :
    ∀ {front : List Char} {stack : List OpenElement}, Arrives m front (.inside stack) →
      AllowsLevel m (stack.length + e.height) →
      ∃ o outer, o.name = name ∧ Arrives m (front ++ before) (.inside (o :: outer)) := by
  cases h with
  | own hname hattributes hchildren =>
      intro front stack hfront hlevel
      obtain ⟨hhere, hbelow⟩ := hlevel.parent
      have hopened := hfront.opening hname hattributes hhere
      have hinside := arrives_of_derivesAll hchildren hopened hbelow
      rw [List.append_assoc] at hinside
      exact ⟨_, _, rfl, hinside⟩
  | inner houter hattributes h =>
      intro front stack hfront hlevel
      obtain ⟨hhere, hbelow⟩ := hlevel.parent
      have hopened := hfront.opening houter hattributes hhere
      rw [← List.append_assoc]
      exact arrives_of_closesAmong h hopened hbelow

theorem arrives_of_closesAmong {text before : List Char} {children : List Element}
    (h : ClosesAmong name text children before) :
    ∀ {front : List Char} {o : OpenElement} {outer : List OpenElement},
      Arrives m front (.inside (o :: outer)) →
      AllowsLevel m (outer.length + 1 + Element.maxHeight children) →
      ∃ o outer, o.name = name ∧ Arrives m (front ++ before) (.inside (o :: outer)) := by
  cases h with
  | first h hes =>
      intro front o outer hfront hlevel
      exact arrives_of_closesIn h hfront hlevel.siblings.1
  | @later text more before e es he h =>
      intro front o outer hfront hlevel
      obtain ⟨hfirst, hothers⟩ := hlevel.siblings
      have hplaced : Arrives m (front ++ text) (.inside (o.add e :: outer)) :=
        arrives_of_derives he hfront hfirst
      rw [← List.append_assoc]
      exact arrives_of_closesAmong h hplaced hothers

end

end Grammar

/-- At a closing tag of another name than that of the innermost element the machine is stuck, in
front of the tag. -/
theorem Scan.step_of_wrongClosing {m : Option Nat} {o : OpenElement} {outer : List OpenElement}
    {found : String} (hfound : isName found.toList = true) (hne : found ≠ o.name)
    (rest : List Char) :
    step m ⟨o :: outer, Grammar.closingTag found ++ rest⟩ =
      (none, .ending (.stuck (.tagMismatch o.name found) (Grammar.closingTag found ++ rest))) := by
  have hshape : Grammar.closingTag found ++ rest =
      '<' :: '/' :: (found.toList ++ '>' :: rest) := by
    simp [Grammar.closingTag]
  have hread : name? (found.toList ++ '>' :: rest) = some (found.toList, '>' :: rest) :=
    Grammar.name?_append hfound (head?_cons_eq_false (by decide) rest)
  rw [hshape]
  show closeTag o outer _ _ = _
  rw [closeTag, hread]
  simp only [String.ofList_toList, if_neg hne]

namespace Document

open Grammar

/-- In front of a closing tag of an accepted document its element is open, and no other one is
further in. -/
theorem arrives_of_closesInDocument {m : Option Nat} {source name : String} {root : Element}
    {before : List Char} (haccepted : parse m source = .accepted root)
    (hcloses : ClosesInDocument name source.toList before) :
    ∃ o outer, o.name = name ∧ Arrives m before (.inside (o :: outer)) := by
  obtain ⟨blanks, inside, after, e, place, hblanks, hin, hafter, hsource, rfl⟩ := hcloses
  obtain ⟨hroot, hheight⟩ := parse_eq_accepted_iff.1 haccepted
  have hderives : DerivesDocument source.toList e :=
    ⟨blanks, inside, after, hblanks, derives_of_closesIn hin, hafter, hsource⟩
  -- a text is one document only, so the levels of this one are those of the root
  have hfound : parse none source = .accepted e := parse_eq_accepted_iff.2 ⟨hderives, nofun⟩
  have hknown : parse none source = .accepted root := parse_eq_accepted_iff.2 ⟨hroot, nofun⟩
  obtain rfl : e = root := Verdict.accepted.inj (hfound.symm.trans hknown)
  have hstart : Arrives m blanks (.inside []) := ⟨[], .start hblanks⟩
  have hlevel : AllowsLevel m (0 + e.height) := by
    rw [Nat.zero_add]
    exact hheight
  exact arrives_of_closesIn hin hstart hlevel

/-- **A closing tag of the wrong name is reported as such, where it stands.** In a document that is
accepted, with a limit or without, replace the closing tag of any element by one of another name,
and what follows it by anything: the text is rejected for the two names, at the place of the
tag. -/
theorem wrong_closing_tag_is_reported (m : Option Nat) (source name before : String)
    (root : Element) (haccepted : parse m source = .accepted root)
    (hcloses : ClosesInDocument name source.toList before.toList) :
    (∃ rest, source = before ++ "</" ++ name ++ ">" ++ rest) ∧
    ∀ found more, isName found.toList = true → found ≠ name →
      parse m (before ++ "</" ++ found ++ ">" ++ more) =
        .rejected ⟨.tagMismatch name found, before.utf8ByteSize,
          .locate (before ++ "</" ++ found ++ ">" ++ more) before.utf8ByteSize⟩ := by
  constructor
  · obtain ⟨blanks, inside, after, e, place, -, hin, -, hsource, hbefore⟩ := hcloses
    obtain ⟨rest, rfl⟩ := closingTag_of_closesIn hin
    refine ⟨String.ofList (rest ++ after), String.toList_injective ?_⟩
    simp [hsource, hbefore, closingTag]
  · intro found more hfound hne
    obtain ⟨o, outer, rfl, closings, hcomesTo⟩ := arrives_of_closesInDocument haccepted hcloses
    have hsource : (before ++ "</" ++ found ++ ">" ++ more).toList =
        before.toList ++ [] ++ (closingTag found ++ more.toList) := by
      simp [closingTag]
    have hrejected := parse_of_stuck hcomesTo (absurd · (List.cons_ne_nil o outer))
      (Scan.step_of_wrongClosing hfound hne _) hsource
    rw [List.append_nil, byteCount_toList] at hrejected
    exact hrejected

/-- A closing tag on the second level, behind a sibling, with the name of the root: it does not
close the root. -/
theorem wrong_closing_tag_is_reported_ancestor :
    parse (some 2) "<a><b/><c></c></a>" =
      .accepted ⟨"a", .ofList [], [⟨"b", .ofList [], []⟩, ⟨"c", .ofList [], []⟩]⟩ ∧
    ClosesInDocument "c" "<a><b/><c></c></a>".toList "<a><b/><c>".toList ∧
    "a" ≠ "c" ∧
    parse (some 2) "<a><b/><c></a>" = .rejected ⟨.tagMismatch "c" "a", 10, ⟨1, 11⟩⟩ := by
  have haccepted : parse (some 2) "<a><b/><c></c></a>" =
      .accepted ⟨"a", .ofList [], [⟨"b", .ofList [], []⟩, ⟨"c", .ofList [], []⟩]⟩ := by
    decide +kernel
  have hown : ClosesIn "c" "<c></c>".toList ⟨"c", .ofList [], []⟩ "<c>".toList :=
    .own (by decide) .none .nil
  have hsibling : Derives "<b/>".toList ⟨"b", .ofList [], []⟩ := @Derives.leaf ['b'] _ _ rfl .none
  have hroot : ClosesIn "c" "<a><b/><c></c></a>".toList
      ⟨"a", .ofList [], [⟨"b", .ofList [], []⟩, ⟨"c", .ofList [], []⟩]⟩ "<a><b/><c>".toList :=
    @ClosesIn.inner "c" "a" _ _ _ _ _ (by decide) .none (.later hsibling (.first hown .nil))
  have hcloses : ClosesInDocument "c" "<a><b/><c></c></a>".toList "<a><b/><c>".toList :=
    ⟨[], _, [], _, _, rfl, hroot, rfl, (List.append_nil _).symm, rfl⟩
  have hne : "a" ≠ "c" := by decide
  obtain ⟨-, hwrong⟩ :=
    wrong_closing_tag_is_reported (some 2) _ "c" "<a><b/><c>" _ haccepted hcloses
  exact ⟨haccepted, hcloses, hne, hwrong "a" "" (by decide) hne⟩

end Document

end TagTree
