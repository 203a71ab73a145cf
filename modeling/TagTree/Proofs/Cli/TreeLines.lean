import TagTree.Cli.Program
import TagTree.Proofs.Element.Outline

/-!
# The lines of a printed tree

Printed as an outline, a tree has a line for every element, and none else, exactly if no value in
it holds a line feed (`Element.oneLineEach_iff`). Values are printed as they stand, so each of
their line feeds ends a line: `Element.count_outlineText` counts them all. The grammar lets a
value hold any character but a quote, hence a document can have such a value
(`Cli.tree_lines_split`).
-/

set_option autoImplicit false

namespace TagTree

/-! ## Lines -/

/-- A text has a piece behind each of its line feeds, and one in front. -/
theorem length_splitOn (text : List Char) :
    (text.splitOn '\n').length = text.count '\n' + 1 := by
  induction text with
  | nil => rfl
  | cons c cs ih =>
      rw [List.splitOn_cons_eq_if_modifyHead, List.count_cons]
      split
      · rw [List.length_cons, ih]
      · rw [List.length_modifyHead, ih]

/-- Lines that are each ended by a line feed, and hold none, are the pieces of their text in
front of its last line feed. -/
theorem splitOn_lines {lines : List (List Char)} (h : ∀ line ∈ lines, '\n' ∉ line) :
    (lines.flatMap (· ++ ['\n'])).splitOn '\n' = lines ++ [[]] := by
  induction lines with
  | nil => rfl
  | cons line lines ih =>
      have hlater := ih fun l hl => h l (List.mem_cons_of_mem _ hl)
      rw [List.flatMap_cons, List.append_assoc, List.singleton_append,
        List.splitOn_append_cons_self_of_not_mem (h line List.mem_cons_self), hlater]
      rfl

namespace Element

open Grammar

/-- The values of an element, one behind the other. -/
def valueText (e : Element) : List Char :=
  e.attributes.entries.flatMap fun entry => entry.2.toList

/-- No value in the tree holds a line feed. -/
def HoldsNoLineFeed (e : Element) : Prop :=
  ∀ d ∈ e :: e.descendants, ∀ entry ∈ d.attributes.entries, '\n' ∉ entry.2.toList

instance (e : Element) : Decidable e.HoldsNoLineFeed :=
  inferInstanceAs (Decidable (∀ d ∈ e :: e.descendants, ∀ entry ∈ d.attributes.entries,
    '\n' ∉ entry.2.toList))

/-- The text has one line for each element of the tree and no other line, and each line begins
with two spaces for each level of its element, and with the element's name. -/
def OneLineEach (text : String) (root : Element) : Prop :=
  ∃ lines, text.toList.splitOn '\n' = lines ++ [[]] ∧
    lines.length = root.descendants.length + 1 ∧
    ∀ (i : Nat) (e : Element) (level : Nat), (root.levelled 0)[i]? = some (e, level) →
      ∃ line, lines[i]? = some line ∧ List.replicate (2 * level) ' ' ++ e.name.toList <+: line

/-- The line of an element, less its line feed. -/
def lineText (e : Element) (level : Nat) : List Char :=
  List.replicate (2 * level) ' ' ++ e.name.toList ++ attributesText e.attributes.entries

/-! ## The lines of an outline -/

mutual

/-- An outline is the lines of the elements in the order of the document. -/
theorem outlineText_eq_lines (level : Nat) : (e : Element) →
    outlineText level e = (levelled level e).flatMap fun entry => entry.1.lineText entry.2 ++ ['\n']
  | ⟨name, attributes, children⟩ => by
      rw [outlineText, levelled, List.flatMap_cons, ← outlineTexts_eq_lines (level + 1) children,
        lineText, List.append_assoc _ ['\n'], List.singleton_append]

theorem outlineTexts_eq_lines (level : Nat) : (cs : List Element) →
    outlineTexts level cs =
      (levelledAll level cs).flatMap fun entry => entry.1.lineText entry.2 ++ ['\n']
  | [] => rfl
  | c :: cs => by
      rw [outlineTexts, levelledAll, List.flatMap_append, outlineText_eq_lines level c,
        outlineTexts_eq_lines level cs]

end

mutual

/-- The names in a well-formed tree are names. -/
theorem isWellFormed_of_mem_preorder : (e : Element) → e.isWellFormed = true →
    ∀ d ∈ e.preorder, isName d.name.toList = true ∧ d.attributes.isWellFormed = true
  | ⟨name, attributes, children⟩, h, d, hd => by
      obtain ⟨hname, hattributes, hchildren⟩ := isWellFormed_iff.1 h
      rw [preorder, List.mem_cons] at hd
      rcases hd with rfl | hd
      · exact ⟨hname, hattributes⟩
      · exact isWellFormed_of_mem_preorderAll children hchildren d hd

theorem isWellFormed_of_mem_preorderAll : (cs : List Element) → allWellFormed cs = true →
    ∀ d ∈ preorderAll cs, isName d.name.toList = true ∧ d.attributes.isWellFormed = true
  | [], _, d, hd => nomatch hd
  | c :: cs, h, d, hd => by
      obtain ⟨hc, hcs⟩ := allWellFormed_cons.1 h
      rw [preorderAll, List.mem_append] at hd
      rcases hd with hd | hd
      · exact isWellFormed_of_mem_preorder c hc d hd
      · exact isWellFormed_of_mem_preorderAll cs hcs d hd

end

/-- A name holds no line feed. -/
theorem count_name {name : List Char} (h : isName name = true) : name.count '\n' = 0 := by
  rw [List.count_eq_zero]
  intro hfeed
  exact absurd (List.all_eq_true.1 (all_of_isName h) '\n' hfeed) (by decide)

theorem count_attributesText {es : List (String × String)}
    (h : ∀ entry ∈ es, isName entry.1.toList = true) :
    (attributesText es).count '\n' = (es.flatMap fun entry => entry.2.toList).count '\n' := by
  induction es with
  | nil => rfl
  | cons entry es ih =>
      have hname := count_name (h entry List.mem_cons_self)
      have hlater := ih fun e he => h e (List.mem_cons_of_mem _ he)
      have htext := attributesText_cons_append entry es []
      rw [List.append_nil, List.append_nil, attributeText_append] at htext
      have hnone {c : Char} (hc : c ≠ '\n') (more : List Char) :
          (c :: more).count '\n' = more.count '\n' := List.count_cons_of_ne hc
      rw [htext, hnone (by decide), List.count_append, hname, hnone (by decide), hnone (by decide),
        List.count_append, hnone (by decide), hlater, List.flatMap_cons, List.count_append,
        Nat.zero_add]

/-- The line feeds in a line are those of its values. -/
theorem count_lineText {e : Element} (level : Nat) (hname : isName e.name.toList = true)
    (hattributes : e.attributes.isWellFormed = true) :
    (e.lineText level).count '\n' = e.valueText.count '\n' := by
  have hspaces : (List.replicate (2 * level) ' ').count '\n' = 0 :=
    List.count_eq_zero.2 fun h => nomatch List.eq_of_mem_replicate h
  have hentries := Attributes.isWellFormed_iff.1 hattributes
  rw [lineText, List.count_append, List.count_append, hspaces, count_name hname,
    count_attributesText fun entry hentry => (hentries entry hentry).1]
  simp [valueText]

theorem isWellFormed_of_mem_levelled {e : Element} (he : e.isWellFormed = true) :
    ∀ entry ∈ levelled 0 e, isName entry.1.name.toList = true ∧
      entry.1.attributes.isWellFormed = true := by
  intro entry hentry
  refine isWellFormed_of_mem_preorder e he entry.1 ?_
  rw [← map_fst_levelled 0 e]
  exact List.mem_map_of_mem hentry

/-- Of lines one behind the other, each ends in a line feed, and the values hold all others. -/
theorem count_lines {entries : List (Element × Nat)}
    (h : ∀ entry ∈ entries, isName entry.1.name.toList = true ∧
      entry.1.attributes.isWellFormed = true) :
    (entries.flatMap fun entry => entry.1.lineText entry.2 ++ ['\n']).count '\n' =
      entries.length + ((entries.map Prod.fst).flatMap valueText).count '\n' := by
  induction entries with
  | nil => rfl
  | cons entry entries ih =>
      obtain ⟨hname, hattributes⟩ := h entry List.mem_cons_self
      have hlater := ih fun d hd => h d (List.mem_cons_of_mem _ hd)
      have hfeed : ['\n'].count '\n' = 1 := rfl
      rw [List.flatMap_cons, List.count_append, List.count_append, hlater, hfeed,
        count_lineText entry.2 hname hattributes, List.length_cons, List.map_cons,
        List.flatMap_cons, List.count_append]
      omega

/-- A line feed for each element, and one for each that a value holds. -/
theorem count_outlineText {e : Element} (he : e.isWellFormed = true) :
    (outlineText 0 e).count '\n' =
      e.descendants.length + 1 + ((e :: e.descendants).flatMap valueText).count '\n' := by
  have hlength := congrArg List.length (map_fst_levelled_eq 0 e)
  rw [List.length_map, List.length_cons] at hlength
  rw [outlineText_eq_lines, count_lines (isWellFormed_of_mem_levelled he), map_fst_levelled_eq,
    hlength]

/-- No value holds a line feed exactly if there is none to count. -/
theorem holdsNoLineFeed_iff {e : Element} :
    e.HoldsNoLineFeed ↔ ((e :: e.descendants).flatMap valueText).count '\n' = 0 := by
  rw [List.count_eq_zero]
  constructor
  · intro h hfeed
    obtain ⟨d, hd, hvalue⟩ := List.mem_flatMap.1 hfeed
    obtain ⟨entry, hentry, hmem⟩ := List.mem_flatMap.1 hvalue
    exact h d hd entry hentry hmem
  · intro h d hd entry hentry hmem
    exact h (List.mem_flatMap.2 ⟨d, hd, List.mem_flatMap.2 ⟨entry, hentry, hmem⟩⟩)

/-- The outline of a well-formed tree has a line for each element, and no other, exactly if no
value breaks a line. -/
theorem oneLineEach_iff {e : Element} (he : e.isWellFormed = true) :
    OneLineEach e.outline e ↔ e.HoldsNoLineFeed := by
  rw [OneLineEach, toList_outline]
  have hcount := count_outlineText he
  constructor
  · rintro ⟨lines, hlines, hlength, -⟩
    have hpieces := length_splitOn (outlineText 0 e)
    rw [hlines, List.length_append, List.length_singleton, hlength] at hpieces
    rw [holdsNoLineFeed_iff]
    omega
  · intro h
    have hnone : ∀ line ∈ (levelled 0 e).map fun entry => entry.1.lineText entry.2,
        '\n' ∉ line := by
      intro line hline
      obtain ⟨⟨d, level⟩, hentry, rfl⟩ := List.mem_map.1 hline
      have hd : d ∈ e :: e.descendants := by
        rw [← map_fst_levelled_eq 0 e]
        exact List.mem_map_of_mem hentry
      obtain ⟨hname, hattributes⟩ := isWellFormed_of_mem_levelled he _ hentry
      rw [← List.count_eq_zero, count_lineText level hname hattributes, List.count_eq_zero]
      intro hfeed
      obtain ⟨entry, hentry, hmem⟩ := List.mem_flatMap.1 hfeed
      exact h d hd entry hentry hmem
    have hsplit := splitOn_lines hnone
    rw [List.flatMap_map, ← outlineText_eq_lines] at hsplit
    refine ⟨_, hsplit, ?_, ?_⟩
    · have hlength := congrArg List.length (map_fst_levelled_eq 0 e)
      rwa [List.length_map] at hlength ⊢
    · intro i d level hi
      refine ⟨d.lineText level, by rw [List.getElem?_map, hi]; rfl, ?_⟩
      exact List.prefix_append _ _

end Element

/-! ## The printed tree -/

namespace Cli

/-- What the program answers to a document that it is to print. -/
theorem Invocation.respond_parse {env : Environment} {path source : String} {format : Format}
    {maxDepth : Option Nat} {root : Element} (verbose : Bool) (htext : env.text path = .ok source)
    (haccepted : Document.parse maxDepth source = .accepted root) :
    ∃ messages, (Invocation.parse path format maxDepth verbose).respond env =
      ⟨0, format.print root, messages⟩ := by
  have hverdict : (Document.read maxDepth source).verdict = .accepted root := haccepted
  rw [respond, withDocument, htext]
  simp only [hverdict]
  exact ⟨_, rfl⟩

/-- **A printed tree has one line for each element exactly if no value breaks a line.** For every
document that the program is asked to print as an outline, it exits with 0, and prints a line feed
for each element and one more for each line feed in a value. So the lines are those of the
elements in their order, each with its indentation and its name, if no value of the document
holds a line feed, and only then. -/
theorem tree_has_one_line_each (env : Environment) (arguments : List String)
    (path source : String) (maxDepth : Option Nat) (verbose : Bool) (root : Element)
    (harguments : Invocation.ofArguments? arguments = some (.parse path .tree maxDepth verbose))
    (htext : env.text path = .ok source)
    (haccepted : Document.parse maxDepth source = .accepted root) :
    (respond env arguments).exit = 0 ∧
    (respond env arguments).stdout.toList.count '\n' =
      root.descendants.length + 1 +
        ((root :: root.descendants).flatMap Element.valueText).count '\n' ∧
    (Element.OneLineEach (respond env arguments).stdout root ↔ root.HoldsNoLineFeed) := by
  have hroot : root.isWellFormed = true := Element.IsRead.isWellFormed (.inl ⟨_, _, haccepted⟩)
  have hanswer : ∃ messages, respond env arguments = ⟨0, root.outline, messages⟩ := by
    rw [respond, harguments]
    exact Invocation.respond_parse verbose htext haccepted
  obtain ⟨messages, hanswer⟩ := hanswer
  rw [hanswer]
  refine ⟨rfl, ?_, Element.oneLineEach_iff hroot⟩
  show root.outline.toList.count '\n' = _
  rw [Element.toList_outline, Element.count_outlineText hroot]

/-- What the program is given when a text is piped into it. -/
def piped (text : String) : Environment :=
  ⟨text.toUTF8, fun _ => .missing, none⟩

/-- A text that is piped into the program is what it reads. -/
theorem text_piped (text : String) : (piped text).text "-" = .ok text := by
  have hdecode : String.fromUTF8? text.toUTF8 = some text := dif_pos text.isValidUTF8
  rw [Environment.text, if_pos rfl, piped, decode, hdecode]
  rfl

/-- Two elements on two lines, the second one level deeper. -/
theorem tree_has_one_line_each_child :
    (respond (piped "<a><b x=\"1\"/></a>") ["parse", "-"]).stdout = "a\n  b x=\"1\"\n" ∧
    Element.OneLineEach (respond (piped "<a><b x=\"1\"/></a>") ["parse", "-"]).stdout
      ⟨"a", ∅, [⟨"b", .ofList [("x", "1")], []⟩]⟩ := by
  have harguments : Invocation.ofArguments? ["parse", "-"] =
      some (.parse "-" .tree none false) := by decide +kernel
  have haccepted : Document.parse none "<a><b x=\"1\"/></a>" =
      .accepted ⟨"a", ∅, [⟨"b", .ofList [("x", "1")], []⟩]⟩ := by decide +kernel
  have hnone : Element.HoldsNoLineFeed ⟨"a", ∅, [⟨"b", .ofList [("x", "1")], []⟩]⟩ := by
    decide +kernel
  refine ⟨by decide +kernel, ?_⟩
  exact (tree_has_one_line_each _ _ _ _ _ _ _ harguments (text_piped _) haccepted).2.2.2 hnone

/-- **A printed tree need not have one line for each element.** The one value of this document is
a line feed, so its one element is printed on two lines. -/
theorem tree_lines_split :
    Invocation.ofArguments? ["parse", "-", "-f", "tree"] = some (.parse "-" .tree none false) ∧
    Document.parse none "<a x=\"\n\"/>" = .accepted ⟨"a", .ofList [("x", "\n")], []⟩ ∧
    (respond (piped "<a x=\"\n\"/>") ["parse", "-", "-f", "tree"]).stdout = "a x=\"\n\"\n" ∧
    ¬ Element.OneLineEach (respond (piped "<a x=\"\n\"/>") ["parse", "-", "-f", "tree"]).stdout
      ⟨"a", .ofList [("x", "\n")], []⟩ := by
  have hprinted : (respond (piped "<a x=\"\n\"/>") ["parse", "-", "-f", "tree"]).stdout =
      "a x=\"\n\"\n" := by decide +kernel
  refine ⟨by decide +kernel, by decide +kernel, hprinted, ?_⟩
  rintro ⟨lines, hlines, hlength, -⟩
  -- one element, and no descendants, so there would have to be one line
  have hpieces := congrArg List.length hlines
  rw [length_splitOn, hprinted, List.length_append, hlength] at hpieces
  exact absurd hpieces (by decide +kernel)

end Cli

end TagTree
