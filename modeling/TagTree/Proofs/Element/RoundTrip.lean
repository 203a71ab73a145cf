import TagTree.Element.Markup
import TagTree.Element.WellFormed
import TagTree.Proofs.Document.Reading
import TagTree.Proofs.Element.Attributes

/-!
# Markup reads back

The text of a well-formed element is derived by the grammar, as that element
(`Element.derives_markup`), and whatever is derived is well formed
(`Grammar.isWellFormed_of_derives`). With the characterisation of the runs that succeed this is
all there is to say about writing and reading: a tree survives exactly if it is well formed.

A value may hold any character but a double quote, the signs of a tag among them, so the text of a
tree is not to be cut at them; the derivation follows the tree.
-/

set_option autoImplicit false

namespace TagTree

open Grammar

/-! ## The text of a well-formed element -/

theorem toList_attributeMarkup (name value : String) :
    (attributeMarkup (name, value)).toList = ' ' :: attributeText name.toList value.toList := by
  simp [attributeMarkup, attributeText]

/-- The texts of well-formed attributes, one behind the other. -/
theorem derivesMore_markup {es : List (String × String)}
    (h : ∀ e ∈ es, isName e.1.toList = true ∧ isValue e.2.toList = true) :
    DerivesMore (String.join (es.map attributeMarkup)).toList es := by
  induction es with
  | nil => exact .done rfl
  | cons e es ih =>
      obtain ⟨name, value⟩ := e
      obtain ⟨hname, hvalue⟩ := h (name, value) List.mem_cons_self
      have hmore := ih fun d hd => h d (List.mem_cons_of_mem _ hd)
      -- one space stands before each attribute, and none behind it
      have hblank : isBlankText [' '] = true := rfl
      have hderives := DerivesMore.next hblank hname hvalue hmore
      rw [String.ofList_toList, String.ofList_toList] at hderives
      simpa [toList_attributeMarkup] using hderives

theorem Attributes.isWellFormed_iff {a : Attributes} :
    a.isWellFormed = true ↔
      ∀ e ∈ a.entries, isName e.1.toList = true ∧ isValue e.2.toList = true := by
  simp only [isWellFormed, List.all_eq_true, Bool.and_eq_true]

theorem Attributes.derives_markup {a : Attributes} (h : a.isWellFormed = true) :
    DerivesAttributes a.markup.toList a.entries := by
  have hentries := isWellFormed_iff.1 h
  unfold markup
  cases hcases : a.entries with
  | nil => exact .none
  | cons e es =>
      rw [hcases] at hentries
      obtain ⟨name, value⟩ := e
      obtain ⟨hname, hvalue⟩ := hentries (name, value) List.mem_cons_self
      have hmore := derivesMore_markup fun d hd => hentries d (List.mem_cons_of_mem _ hd)
      have hblank : isBlankText [' '] = true := rfl
      have hderives := DerivesAttributes.some hblank nofun hname hvalue hmore
      rw [String.ofList_toList, String.ofList_toList] at hderives
      simpa [toList_attributeMarkup] using hderives

namespace Element

theorem isWellFormed_iff {name : String} {attributes : Attributes} {children : List Element} :
    isWellFormed ⟨name, attributes, children⟩ = true ↔
      isName name.toList = true ∧ attributes.isWellFormed = true ∧
        allWellFormed children = true := by
  rw [isWellFormed, Bool.and_eq_true, Bool.and_eq_true, and_assoc]

theorem allWellFormed_cons {c : Element} {cs : List Element} :
    allWellFormed (c :: cs) = true ↔ c.isWellFormed = true ∧ allWellFormed cs = true := by
  rw [allWellFormed, Bool.and_eq_true]

/-- The text of an element without children. -/
theorem toList_markup_nil (name : String) (attributes : Attributes) :
    (markup ⟨name, attributes, []⟩).toList =
      '<' :: (name.toList ++ attributes.markup.toList ++ ['/', '>']) := by
  simp [markup]

/-- The text of an element with children. -/
theorem toList_markup_cons (name : String) (attributes : Attributes) (c : Element)
    (cs : List Element) :
    (markup ⟨name, attributes, c :: cs⟩).toList =
      '<' :: (name.toList ++ attributes.markup.toList ++
        '>' :: ((markupAfter "" (c :: cs)).toList ++
          '<' :: '/' :: (name.toList ++ ['>']))) := by
  rw [markup, markupAfter_eq]
  simp

mutual

/-- The text of a well-formed element is this element, by the grammar. -/
theorem derives_markup : (e : Element) → e.isWellFormed = true → Derives e.markup.toList e
  | ⟨name, attributes, []⟩, h => by
      obtain ⟨hname, hattributes, -⟩ := isWellFormed_iff.1 h
      have hderives := Derives.leaf hname (Attributes.derives_markup hattributes)
      rw [String.ofList_toList, Attributes.ofList_entries] at hderives
      rw [toList_markup_nil]
      exact hderives
  | ⟨name, attributes, c :: cs⟩, h => by
      obtain ⟨hname, hattributes, hchildren⟩ := isWellFormed_iff.1 h
      have hderives := Derives.parent hname (Attributes.derives_markup hattributes)
        (derivesAll_markup (c :: cs) hchildren)
      rw [String.ofList_toList, Attributes.ofList_entries] at hderives
      rw [toList_markup_cons]
      exact hderives

theorem derivesAll_markup :
    (cs : List Element) → allWellFormed cs = true → DerivesAll (markupAfter "" cs).toList cs
  | [], _ => .nil
  | c :: cs, h => by
      obtain ⟨hc, hcs⟩ := allWellFormed_cons.1 h
      rw [markupAfter_cons, String.empty_append, String.toList_append]
      exact .cons (derives_markup c hc) (derivesAll_markup cs hcs)

end

end Element

/-! ## What is derived is well formed -/

namespace Grammar

theorem isWellFormed_of_derivesMore {text : List Char} {pairs : List (String × String)}
    (h : DerivesMore text pairs) :
    ∀ e ∈ pairs, isName e.1.toList = true ∧ isValue e.2.toList = true := by
  induction h with
  | done hblanks => exact nofun
  | next hblanks hname hvalue hmore ih =>
      intro e he
      rcases List.mem_cons.1 he with rfl | he
      · rw [String.toList_ofList, String.toList_ofList]
        exact ⟨hname, hvalue⟩
      · exact ih e he

theorem isWellFormed_of_derivesAttributes {text : List Char} {pairs : List (String × String)}
    (h : DerivesAttributes text pairs) : (Attributes.ofList pairs).isWellFormed = true := by
  rw [Attributes.isWellFormed_iff]
  intro e he
  have hpair := Attributes.mem_entries_ofList he
  cases h with
  | none => cases hpair
  | some hblanks hne hname hvalue hmore =>
      -- the first attribute is one like the others, with white space that must be there
      exact isWellFormed_of_derivesMore (.next hblanks hname hvalue hmore) e hpair

mutual

/-- Names and values of an element that is derived are such. -/
theorem isWellFormed_of_derives {text : List Char} {e : Element} (h : Derives text e) :
    e.isWellFormed = true := by
  cases h with
  | leaf hname hattributes =>
      rw [Element.isWellFormed_iff, String.toList_ofList]
      exact ⟨hname, isWellFormed_of_derivesAttributes hattributes, rfl⟩
  | parent hname hattributes hchildren =>
      rw [Element.isWellFormed_iff, String.toList_ofList]
      exact ⟨hname, isWellFormed_of_derivesAttributes hattributes,
        allWellFormed_of_derivesAll hchildren⟩

theorem allWellFormed_of_derivesAll {text : List Char} {es : List Element}
    (h : DerivesAll text es) : Element.allWellFormed es = true := by
  cases h with
  | nil => rfl
  | cons he hes =>
      rw [Element.allWellFormed_cons]
      exact ⟨isWellFormed_of_derives he, allWellFormed_of_derivesAll hes⟩

end

end Grammar

/-! ## Writing and reading -/

namespace Element

/-- **Markup reads back exactly if it is well formed.** The text of a well-formed element is read
as that element, whatever text follows it and in either mode; what is read from any text is well
formed; so the text of an element is a document of it if and only if it is well formed. -/
theorem markup_reads_back :
    (∀ (e : Element) (nestedErrors : Bool) (depth : Nat) (v : View) (rest : List Char),
      e.isWellFormed = true → v.Valid → v.rest = e.markup.toList ++ rest →
      ((Parser.element { nestedErrors, depth }).run v).outcome =
        .ok (e, ⟨v.source, v.offset + e.markup.utf8ByteSize, rest⟩)) ∧
    (∀ (r : ElementRule) (v w : View) (e : Element),
      v.Valid → ((Parser.element r).run v).outcome = .ok (e, w) → e.isWellFormed = true) ∧
    ∀ e : Element, Document.parse none e.markup = .accepted e ↔ e.isWellFormed = true := by
  refine ⟨?_, ?_, ?_⟩
  · intro e nestedErrors depth v rest he hv hrest
    have hview := hv.upTo_eq hrest
    rw [byteCount_toList] at hview
    rw [← hview]
    exact ElementRule.outcome_run_of_derives (derives_markup e he)
      (ElementRule.admits_of_maxDepth_eq_none rfl _) hv hrest
  · intro r v w e hv hok
    obtain ⟨text, -, -, hderives, -⟩ := (ElementRule.outcome_run_iff hv).1 hok
    exact isWellFormed_of_derives hderives
  · intro e
    rw [Document.parse_eq_accepted_iff]
    constructor
    · rintro ⟨⟨before, text, after, -, hderives, -, -⟩, -⟩
      exact isWellFormed_of_derives hderives
    · intro he
      have hshape : e.markup.toList = [] ++ e.markup.toList ++ [] := by
        rw [List.nil_append, List.append_nil]
      exact ⟨⟨[], _, [], rfl, derives_markup e he, rfl, hshape⟩, nofun⟩

/-- A value that looks like a tag, and a child, with an unfinished tag behind them. -/
theorem markup_reads_back_tag :
    ((Parser.element { nestedErrors := true }).run
      (View.ofSource "<a k=\"<b>\"><b/></a></c")).outcome =
        .ok (⟨"a", .ofList [("k", "<b>")], [⟨"b", ∅, []⟩]⟩,
          ⟨"<a k=\"<b>\"><b/></a></c", 19, ['<', '/', 'c']⟩) ∧
    isWellFormed ⟨"a", .ofList [("k", "<b>")], [⟨"b", ∅, []⟩]⟩ = true := by
  have hread := markup_reads_back.1 ⟨"a", .ofList [("k", "<b>")], [⟨"b", ∅, []⟩]⟩ true 1
    (View.ofSource "<a k=\"<b>\"><b/></a></c") ['<', '/', 'c'] (by decide +kernel)
    (View.valid_ofSource _) (by decide +kernel)
  have hsize : (markup ⟨"a", .ofList [("k", "<b>")], [⟨"b", ∅, []⟩]⟩).utf8ByteSize = 19 := by
    decide +kernel
  rw [hsize] at hread
  exact ⟨hread, markup_reads_back.2.1 _ _ _ _ (View.valid_ofSource _) hread⟩

end Element

end TagTree
