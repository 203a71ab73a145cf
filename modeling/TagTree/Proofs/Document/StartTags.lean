import Mathlib.Data.List.Forall2
import TagTree.Proofs.Document.WrongClosing
import TagTree.Proofs.Element.Traversal

/-!
# The start tags of a document

A document is a row of tags with white space around it (`Grammar.Cut`). There is one way only to
cut it, for no tag is the beginning of another one (`Grammar.Cut.eq_of_ne_nil`). Behind the
text in front of its first start tag stands the root, behind the text in front of the second one
the first element below it, and so on in the order of a traversal (`Grammar.exists_cut`). So the
start tags of a document are as many as the elements of its tree, and they come in the order of
these.

The tree of a document is told by its tags, however they are written
(`Document.accepted_of_same_tags`).
-/

set_option autoImplicit false

namespace TagTree

namespace Grammar

open Scan (skipBlanks)

/-! ## Tags in a row -/

/-- A tag as it is written. -/
structure WrittenTag where
  text : List Char
  tag : Tag
  spells : Spells text tag

/-- The text of tags, one after the other. -/
def tagsText (tags : List WrittenTag) : List Char :=
  tags.flatMap WrittenTag.text

/-- The start tags among them, each given by the text in front of it. What stands in front of all
of them is `front`. -/
def startPlaces (front : List Char) : List WrittenTag → List (List Char)
  | [] => []
  | t :: tags =>
    if t.tag.isStart then front :: startPlaces (front ++ t.text) tags
    else startPlaces (front ++ t.text) tags

theorem tagsText_nil : tagsText [] = [] := rfl

theorem tagsText_singleton (t : WrittenTag) : tagsText [t] = t.text := List.append_nil t.text

theorem tagsText_cons (t : WrittenTag) (tags : List WrittenTag) :
    tagsText (t :: tags) = t.text ++ tagsText tags := rfl

theorem tagsText_append (tags tags' : List WrittenTag) :
    tagsText (tags ++ tags') = tagsText tags ++ tagsText tags' :=
  List.flatMap_append

theorem startPlaces_append (front : List Char) (tags tags' : List WrittenTag) :
    startPlaces front (tags ++ tags') =
      startPlaces front tags ++ startPlaces (front ++ tagsText tags) tags' := by
  induction tags generalizing front with
  | nil => simp [startPlaces, tagsText]
  | cons t tags ih =>
      have hfront : front ++ t.text ++ tagsText tags = front ++ tagsText (t :: tags) := by
        rw [List.append_assoc]
        rfl
      rw [List.cons_append, startPlaces, startPlaces, ih, hfront]
      split <;> rfl

theorem length_startPlaces (front : List Char) (tags : List WrittenTag) :
    (startPlaces front tags).length = tags.countP fun t => t.tag.isStart := by
  induction tags generalizing front with
  | nil => rfl
  | cons t tags ih =>
      rw [startPlaces, List.countP_cons]
      split <;> simp [ih]

/-- In front of a start tag there are the tags before it. -/
theorem exists_of_mem_startPlaces {front place : List Char} {tags : List WrittenTag}
    (h : place ∈ startPlaces front tags) :
    ∃ earlier t later, tags = earlier ++ t :: later ∧ t.tag.isStart = true ∧
      place = front ++ tagsText earlier := by
  induction tags generalizing front with
  | nil => cases h
  | cons t tags ih =>
      have hlater (h : place ∈ startPlaces (front ++ t.text) tags) :
          ∃ earlier t' later, t :: tags = earlier ++ t' :: later ∧ t'.tag.isStart = true ∧
            place = front ++ tagsText earlier := by
        obtain ⟨earlier, t', later, rfl, hstart, rfl⟩ := ih h
        exact ⟨t :: earlier, t', later, rfl, hstart, List.append_assoc _ _ _⟩
      rw [startPlaces] at h
      split at h
      · rename_i hstart
        rcases List.mem_cons.1 h with rfl | h
        · exact ⟨[], t, tags, rfl, hstart, (List.append_nil _).symm⟩
        · exact hlater h
      · exact hlater h

/-! ## A text as a row of tags -/

/-- A text cut into white space, tags one after the other, and white space. -/
structure Cut (source : List Char) where
  before : List Char
  tags : List WrittenTag
  after : List Char
  isBlankText_before : isBlankText before = true
  isBlankText_after : isBlankText after = true
  source_eq : source = before ++ tagsText tags ++ after

namespace Cut

variable {source : List Char}

/-- The texts in front of the start tags, from the first one on. -/
def startPlaces (cut : Cut source) : List (List Char) :=
  Grammar.startPlaces cut.before cut.tags

/-- How many start tags there are, those that are whole elements among them. -/
def startCount (cut : Cut source) : Nat :=
  cut.tags.countP fun t => t.tag.isStart

theorem length_startPlaces (cut : Cut source) : cut.startPlaces.length = cut.startCount :=
  Grammar.length_startPlaces cut.before cut.tags

end Cut

/-! ## There is one cut only -/

variable {text rest rest' : List Char}

/-- A closing tag ends with the name in it. -/
theorem eq_of_closingTag_append {name name' : String} (hname : isName name.toList = true)
    (hname' : isName name'.toList = true)
    (h : closingTag name ++ rest = closingTag name' ++ rest') : name = name' ∧ rest = rest' := by
  have htexts : name.toList ++ '>' :: rest = name'.toList ++ '>' :: rest' := by
    simpa [closingTag] using h
  obtain ⟨hnames, hrests⟩ :=
    eq_of_append_cons (all_of_isName hname) (all_of_isName hname') (by decide) htexts
  exact ⟨String.toList_injective hnames, hrests⟩

/-- The sign behind the first one tells start tags and closing tags apart. -/
theorem atStartTag_eq_isStart (t : WrittenTag) (rest : List Char) :
    atStartTag (t.text ++ rest) = t.tag.isStart := by
  obtain ⟨text, tag, hspells⟩ := t
  cases hkind : tag.isStart with
  | true => exact atStartTag_append hspells hkind rest
  | false => cases hspells <;> first | rfl | cases hkind

theorem Tag.eq_of_not_isStart {tag : Tag} (h : tag.isStart = false) :
    ∃ name, tag = .closing name := by
  cases tag with
  | whole e => cases h
  | opening e => cases h
  | closing name => exact ⟨name, rfl⟩

/-- No tag is the beginning of another one. -/
theorem WrittenTag.eq_of_append {t t' : WrittenTag} (h : t.text ++ rest = t'.text ++ rest') :
    t = t' ∧ rest = rest' := by
  have hstart : t.tag.isStart = t'.tag.isStart := by
    rw [← atStartTag_eq_isStart t rest, h, atStartTag_eq_isStart]
  obtain ⟨text, tag, hspells⟩ := t
  obtain ⟨text', tag', hspells'⟩ := t'
  have hread : tag = tag' ∧ rest = rest' := by
    cases hkind : tag.isStart with
    | true =>
        obtain ⟨s, rfl⟩ := Tag.eq_of_isStart hkind
        obtain ⟨s', rfl⟩ := Tag.eq_of_isStart (hstart.symm.trans hkind)
        have hboth := startTagAt_append hspells rest
        rw [h, startTagAt_append hspells' rest'] at hboth
        cases hboth
        exact ⟨rfl, rfl⟩
    | false =>
        obtain ⟨name, rfl⟩ := Tag.eq_of_not_isStart hkind
        obtain ⟨name', rfl⟩ := Tag.eq_of_not_isStart (hstart.symm.trans hkind)
        obtain ⟨hname, rfl⟩ := spells_closing_iff.1 hspells
        obtain ⟨hname', rfl⟩ := spells_closing_iff.1 hspells'
        obtain ⟨rfl, hrest⟩ := eq_of_closingTag_append hname hname' h
        exact ⟨rfl, hrest⟩
  obtain ⟨rfl, rfl⟩ := hread
  obtain rfl : text = text' := List.append_cancel_right h
  exact ⟨rfl, rfl⟩

/-- There is no tag in white space. -/
theorem isBlankText_tagsText_iff (tags : List WrittenTag) :
    isBlankText (tagsText tags) = true ↔ tags = [] := by
  cases tags with
  | nil => exact ⟨fun _ => rfl, fun _ => rfl⟩
  | cons t tags =>
      have hsign : isBlankText t.text = false := by
        obtain ⟨text, tag, hspells⟩ := t
        cases hspells <;> rfl
      rw [tagsText_cons, isBlankText_append, hsign]
      exact ⟨nofun, nofun⟩

/-- A row of tags with white space behind it is cut in one way only. -/
theorem eq_of_tagsText_append {tags tags' : List WrittenTag}
    (hrest : isBlankText rest = true) (hrest' : isBlankText rest' = true)
    (h : tagsText tags ++ rest = tagsText tags' ++ rest') : tags = tags' ∧ rest = rest' := by
  induction tags generalizing tags' with
  | nil =>
      -- the text is white space, so there are no tags in the other row either
      have hnil : tags' = [] := by
        have hblank : isBlankText (tagsText tags' ++ rest') = true := h ▸ hrest
        rw [isBlankText_append, Bool.and_eq_true] at hblank
        exact (isBlankText_tagsText_iff tags').1 hblank.1
      subst hnil
      exact ⟨rfl, h⟩
  | cons t tags ih =>
      cases tags' with
      | nil =>
          have hblank : isBlankText (tagsText (t :: tags) ++ rest) = true := h ▸ hrest'
          rw [isBlankText_append, Bool.and_eq_true] at hblank
          cases (isBlankText_tagsText_iff _).1 hblank.1
      | cons t' tags' =>
          rw [tagsText_cons, tagsText_cons, List.append_assoc, List.append_assoc] at h
          obtain ⟨rfl, hmore⟩ := WrittenTag.eq_of_append h
          obtain ⟨rfl, hrests⟩ := ih hmore
          exact ⟨rfl, hrests⟩

namespace Cut

variable {source : List Char}

/-- Without the white space in front a cut begins with its first tag. -/
theorem skipBlanks_source (cut : Cut source) (hne : cut.tags ≠ []) :
    skipBlanks source = tagsText cut.tags ++ cut.after := by
  obtain ⟨t, tags, htags⟩ := List.exists_cons_of_ne_nil hne
  refine (congrArg skipBlanks cut.source_eq).trans ?_
  rw [List.append_assoc, skipBlanks_append cut.isBlankText_before, htags, tagsText_cons,
    List.append_assoc]
  exact skipBlanks_of_stop (isBlank_of_head?_spells t.spells _)

/-- A text is white space if it is cut without tags, and only then. -/
theorem isBlankText_source_iff (cut : Cut source) :
    isBlankText source = true ↔ cut.tags = [] := by
  have hsource : isBlankText source = isBlankText (tagsText cut.tags) := by
    refine (congrArg isBlankText cut.source_eq).trans ?_
    rw [isBlankText_append, isBlankText_append, cut.isBlankText_before, cut.isBlankText_after,
      Bool.and_true, Bool.true_and]
  rw [hsource, isBlankText_tagsText_iff]

/-- A text with a tag in it is cut in one way only. -/
theorem eq_of_ne_nil (cut cut' : Cut source) (hne : cut.tags ≠ []) : cut' = cut := by
  have hne' : cut'.tags ≠ [] := by
    rwa [Ne, ← cut'.isBlankText_source_iff, cut.isBlankText_source_iff]
  have htexts : tagsText cut'.tags ++ cut'.after = tagsText cut.tags ++ cut.after := by
    rw [← cut.skipBlanks_source hne, cut'.skipBlanks_source hne']
  obtain ⟨htags, hafter⟩ :=
    eq_of_tagsText_append cut'.isBlankText_after cut.isBlankText_after htexts
  have hbefore : cut'.before = cut.before := by
    have hboth := cut'.source_eq.symm.trans cut.source_eq
    rw [htags, hafter, List.append_assoc, List.append_assoc] at hboth
    exact List.append_cancel_right hboth
  cases cut'
  cases cut
  cases htags
  cases hafter
  cases hbefore
  rfl

/-- A document has tags. -/
theorem tags_ne_nil {root : Element} (cut : Cut source) (h : DerivesDocument source root) :
    cut.tags ≠ [] := by
  obtain ⟨before, text, after, -, hderives, -, hsource⟩ := h
  have hsign : isBlankText text = false := by
    cases hderives <;> rfl
  rw [Ne, ← cut.isBlankText_source_iff, hsource, isBlankText_append, isBlankText_append, hsign,
    Bool.and_false, Bool.false_and]
  exact Bool.false_ne_true

end Cut

/-! ## The elements that begin at the start tags -/

/-- In the source the element is written behind `front`. -/
def StandsBehind (source front : List Char) (e : Element) : Prop :=
  ∃ text after, source = front ++ text ++ after ∧ Derives text e

/-- Behind `front` the source goes on with a text that is these tags in a row; with the start tags
among them these elements begin. -/
structure Begins (source front text : List Char) (tags : List WrittenTag) (es : List Element) :
    Prop where
  text_eq : text = tagsText tags
  stands : List.Forall₂ (StandsBehind source) (startPlaces front tags) es

section Begins

variable {source front text text' : List Char} {tags tags' : List WrittenTag}
  {es es' : List Element}

theorem Begins.append (h : Begins source front text tags es)
    (h' : Begins source (front ++ text) text' tags' es') :
    Begins source front (text ++ text') (tags ++ tags') (es ++ es') := by
  constructor
  · rw [tagsText_append, h.text_eq, h'.text_eq]
  · rw [startPlaces_append, ← h.text_eq]
    exact List.rel_append h.stands h'.stands

/-- With a start tag one element begins. -/
theorem Begins.start {e : Element} (t : WrittenTag) (hstart : t.tag.isStart = true)
    (h : StandsBehind source front e) : Begins source front t.text [t] [e] := by
  constructor
  · simp [tagsText]
  · rw [startPlaces, if_pos hstart]
    exact .cons h .nil

/-- With a closing tag none does. -/
theorem Begins.closing (t : WrittenTag) (hclosing : t.tag.isStart = false) :
    Begins source front t.text [t] [] := by
  constructor
  · simp [tagsText]
  · rw [startPlaces, hclosing]
    exact .nil

mutual

/-- An element is a row of tags, with which it begins, and the elements below it in their order. -/
theorem exists_begins {source text : List Char} {e : Element} (h : Derives text e) :
    ∀ {front after : List Char}, source = front ++ text ++ after →
      ∃ tags, Begins source front text tags e.preorder := by
  cases h with
  | leaf hname hattributes =>
      intro front after hsource
      exact ⟨_, .start ⟨_, _, .whole hname hattributes⟩ rfl
        ⟨_, after, hsource, .leaf hname hattributes⟩⟩
  | @parent name attributes inside pairs children hname hattributes hchildren =>
      intro front after hsource
      have hstands : StandsBehind source front ⟨String.ofList name, .ofList pairs, children⟩ :=
        ⟨_, after, hsource, .parent hname hattributes hchildren⟩
      rw [parentText_eq] at hsource ⊢
      have hopening : Begins source front (openTagText name attributes) _ _ :=
        .start ⟨_, _, .opening hname hattributes⟩ rfl hstands
      have hinside : source = (front ++ openTagText name attributes) ++ inside ++
          (closingTag (String.ofList name) ++ after) := by
        rw [hsource]
        simp only [List.append_assoc]
      obtain ⟨tags, hbelow⟩ := exists_begins_all hchildren hinside
      have hspells : Spells (closingTag (String.ofList name)) (.closing (String.ofList name)) :=
        spells_closing_iff.2 ⟨by rwa [String.toList_ofList], rfl⟩
      have hclosing := @Begins.closing source (front ++ (openTagText name attributes ++ inside))
        ⟨_, _, hspells⟩ rfl
      have hall := (hopening.append hbelow).append hclosing
      rw [List.append_nil] at hall
      exact ⟨_, hall⟩

theorem exists_begins_all {source text : List Char} {es : List Element} (h : DerivesAll text es) :
    ∀ {front after : List Char}, source = front ++ text ++ after →
      ∃ tags, Begins source front text tags (Element.preorderAll es) := by
  cases h with
  | nil => exact fun _ => ⟨[], rfl, .nil⟩
  | @cons text more e es he hes =>
      intro front after hsource
      have hfirst : source = front ++ text ++ (more ++ after) := by
        rw [hsource]
        simp only [List.append_assoc]
      have hlater : source = (front ++ text) ++ more ++ after := by
        rw [hsource]
        simp only [List.append_assoc]
      obtain ⟨tags, hbegins⟩ := exists_begins he hfirst
      obtain ⟨tags', hbegins'⟩ := exists_begins_all hes hlater
      exact ⟨_, hbegins.append hbegins'⟩

end

end Begins

/-- The text of a document can be cut into tags, and behind the texts in front of its start tags
the root stands and the elements below it, in the order of the document. -/
theorem exists_cut {source : List Char} {root : Element} (h : DerivesDocument source root) :
    ∃ cut : Cut source, List.Forall₂ (StandsBehind source) cut.startPlaces root.preorder := by
  obtain ⟨before, text, after, hbefore, hderives, hafter, hsource⟩ := h
  obtain ⟨tags, rfl, hstands⟩ := exists_begins hderives hsource
  exact ⟨⟨before, tags, after, hbefore, hafter, hsource⟩, hstands⟩

/-- However the text of a document is cut. -/
theorem forall₂_startPlaces {source : List Char} {root : Element}
    (h : DerivesDocument source root) (cut : Cut source) :
    List.Forall₂ (StandsBehind source) cut.startPlaces (root :: root.descendants) := by
  obtain ⟨cut', hstands⟩ := exists_cut h
  rw [Element.preorder_eq] at hstands
  rwa [cut'.eq_of_ne_nil cut (cut'.tags_ne_nil h)]

/-! ## Documents of the same tags -/

section SameTags

variable {m : Option Nat} {text : List Char} {closings : List Closing} {progress : Progress}

/-- What the tags of a text come to does not depend on how they are written. -/
theorem exists_tags_of_comesTo (h : ComesTo m text closings progress) :
    ∃ before tags, isBlankText before = true ∧ text = before ++ tagsText tags ∧
      ∀ before' tags', isBlankText before' = true →
        tags'.map WrittenTag.tag = tags.map WrittenTag.tag →
        ComesTo m (before' ++ tagsText tags') closings progress := by
  induction h with
  | @start blanks hblanks =>
      refine ⟨blanks, [], hblanks, (List.append_nil _).symm, fun before' tags' hbefore' htags => ?_⟩
      rw [List.map_eq_nil_iff.1 htags, tagsText_nil, List.append_nil]
      exact .start hbefore'
  | @tag text tagText closings stack tag closing progress _ htag hleads ih =>
      obtain ⟨before, tags, hbefore, rfl, hsame⟩ := ih
      refine ⟨before, tags ++ [⟨tagText, tag, htag⟩], hbefore, ?_,
        fun before' tags' hbefore' htags => ?_⟩
      · rw [tagsText_append, List.append_assoc, tagsText_singleton]
      · -- the last tag leads on as it did, whatever its text
        rw [List.map_append] at htags
        obtain ⟨init, last, rfl, hinit, hlast⟩ := List.map_eq_append_iff.1 htags
        obtain ⟨⟨tagText', tag', htag'⟩, rfl, rfl⟩ := List.map_eq_singleton_iff.1 hlast
        rw [tagsText_append, tagsText_singleton, ← List.append_assoc]
        exact (hsame before' init hbefore' hinit).tag htag' hleads

end SameTags

end Grammar

namespace Document

open Grammar

/-- What is accepted depends on its tags alone, and not on how they are written. -/
theorem accepted_of_same_tags {m : Option Nat} {source source' : String} {root : Element}
    (haccepted : parse m source = .accepted root) (cut : Cut source.toList)
    (cut' : Cut source'.toList)
    (htags : cut'.tags.map WrittenTag.tag = cut.tags.map WrittenTag.tag) :
    parse m source' = .accepted root := by
  obtain ⟨hdocument, hheight⟩ := parse_eq_accepted_iff.1 haccepted
  have hne := cut.tags_ne_nil hdocument
  obtain ⟨before, text, after, hbefore, hderives, hafter, hsource⟩ := hdocument
  have hstart : Arrives m before (.inside []) := ⟨[], .start hbefore⟩
  have hlevel : AllowsLevel m (0 + root.height) := by
    rw [Nat.zero_add]
    exact hheight
  obtain ⟨closings, hcomesTo⟩ := arrives_of_derives hderives hstart hlevel
  obtain ⟨blanks, tags, hblanks, htext, hsame⟩ := exists_tags_of_comesTo hcomesTo
  -- the tags that come to the root are those of the cut
  have hcut := cut.eq_of_ne_nil ⟨blanks, tags, after, hblanks, hafter, hsource.trans (htext ▸ rfl)⟩
    hne
  rw [← hcut] at htags
  rw [parse_of_comesTo (hsame cut'.before cut'.tags cut'.isBlankText_before htags) cut'.source_eq]
  exact verdictAfter_eq_accepted_iff.2 ⟨rfl, cut'.isBlankText_after⟩

/-- A start tag may be replaced by another text of it. -/
theorem accepted_of_replaced_tag {m : Option Nat} {source : String} {root : Element}
    (haccepted : parse m source = .accepted root) (cut : Cut source.toList)
    {front text text' rest : List Char} (hfront : front ∈ cut.startPlaces) {tag : Tag}
    (htag : Spells text tag) (htag' : Spells text' tag)
    (hsource : source.toList = front ++ text ++ rest) :
    parse m (String.ofList (front ++ text' ++ rest)) = .accepted root := by
  obtain ⟨earlier, t, later, htags, -, rfl⟩ := exists_of_mem_startPlaces hfront
  have htexts : t.text ++ (tagsText later ++ cut.after) = text ++ rest := by
    have hboth := cut.source_eq.symm.trans hsource
    simpa [htags, tagsText_append, tagsText_cons] using hboth
  obtain ⟨rfl, rfl⟩ := @WrittenTag.eq_of_append _ _ t ⟨text, tag, htag⟩ htexts
  refine accepted_of_same_tags haccepted cut
    ⟨cut.before, earlier ++ ⟨text', tag, htag'⟩ :: later, cut.after, cut.isBlankText_before,
      cut.isBlankText_after, ?_⟩ ?_
  · simp [tagsText_append, tagsText_cons]
  · simp [htags]

end Document

end TagTree
