import TagTree.Element.Outline
import TagTree.Proofs.Element.RoundTrip
import TagTree.Proofs.Element.Traversal

/-!
# Outlines lose nothing

The outline that is written from a stack is the outline written by recursion on the tree
(`Element.toList_outline`): the line of the root, then the outlines of its children, one level
deeper.

An outline of well-formed elements can be read back. A name ends where a character stands that is
in no name, and a value at its closing quote, so a value may hold line feeds and spaces and still
be told from the lines behind it. A line then shows by its indentation whether it belongs to a
child of the line before or not: `Element.Above` says of a text that it is not indented as deep as
a level. With it outlines are prefix-free (`Element.eq_of_outlineText`), which is more than that
equal outlines come from equal elements.
-/

set_option autoImplicit false

namespace TagTree

open Grammar

/-- Attributes one behind the other, each with a space before it. -/
def attributesText (entries : List (String × String)) : List Char :=
  entries.flatMap fun entry => ' ' :: attributeText entry.1.toList entry.2.toList

theorem attributesText_cons_append (entry : String × String) (es : List (String × String))
    (rest : List Char) :
    attributesText (entry :: es) ++ rest =
      ' ' :: (attributeText entry.1.toList entry.2.toList ++ (attributesText es ++ rest)) := by
  rw [attributesText, attributesText, List.flatMap_cons, List.append_assoc, List.cons_append]

theorem Attributes.toList_markup (a : Attributes) :
    a.markup.toList = attributesText a.entries := by
  unfold markup attributesText
  induction a.entries with
  | nil => rfl
  | cons entry entries ih =>
      rw [List.map_cons, String.join_cons, String.toList_append, ih, toList_attributeMarkup]
      rfl

namespace Element

/-! ## The outline by recursion -/

mutual

/-- The outline of a tree whose root lies at `level`: two spaces for each level, the name, the
attributes and a line feed, and then the children, one level deeper. -/
def outlineText (level : Nat) : Element → List Char
  | ⟨name, attributes, children⟩ =>
    List.replicate (2 * level) ' ' ++ name.toList ++ attributesText attributes.entries ++
      '\n' :: outlineTexts (level + 1) children

/-- The outlines of the trees, tree by tree. -/
def outlineTexts (level : Nat) : List Element → List Char
  | [] => []
  | c :: cs => outlineText level c ++ outlineTexts level cs

end

theorem toList_outlineLine (e : Element) (level : Nat) :
    (e.outlineLine level).toList =
      List.replicate (2 * level) ' ' ++ e.name.toList ++ attributesText e.attributes.entries ++
        ['\n'] := by
  simp [outlineLine, Attributes.toList_markup]

theorem flatMap_atDepth (level : Nat) (cs : List Element) :
    ((atDepth level cs).flatMap fun entry => outlineText entry.2 entry.1) =
      outlineTexts level cs := by
  induction cs with
  | nil => rfl
  | cons c cs ih =>
      rw [outlineTexts, ← ih]
      rfl

/-- The stack holds trees whose outlines are still to be written. -/
theorem toList_outlineAfter (out : String) (stack : List (Element × Nat)) :
    (outlineAfter out stack).toList =
      out.toList ++ stack.flatMap fun entry => outlineText entry.2 entry.1 := by
  fun_induction outlineAfter out stack with
  | case1 out => simp
  | case2 out e level stack ih =>
      cases e
      rw [ih, List.flatMap_append, flatMap_atDepth, String.toList_append, toList_outlineLine,
        List.flatMap_cons, outlineText]
      simp

theorem toList_outline (e : Element) : e.outline.toList = outlineText 0 e := by
  rw [outline, toList_outlineAfter]
  simp

/-! ## Lines are prefix-free -/

variable {level : Nat} {rest rest' : List Char}

/-- Attributes are told from the end of their line. -/
theorem eq_of_attributesText {es es' : List (String × String)}
    (hes : ∀ e ∈ es, isName e.1.toList = true ∧ isValue e.2.toList = true)
    (hes' : ∀ e ∈ es', isName e.1.toList = true ∧ isValue e.2.toList = true)
    (h : attributesText es ++ '\n' :: rest = attributesText es' ++ '\n' :: rest') :
    es = es' ∧ rest = rest' := by
  induction es generalizing es' with
  | nil =>
      cases es' with
      | nil =>
          cases h
          exact ⟨rfl, rfl⟩
      | cons e' es' => cases h
  | cons e es ih =>
      cases es' with
      | nil => cases h
      | cons e' es' =>
          obtain ⟨name, value⟩ := e
          obtain ⟨name', value'⟩ := e'
          obtain ⟨hname, hvalue⟩ := hes (name, value) List.mem_cons_self
          obtain ⟨hname', hvalue'⟩ := hes' (name', value') List.mem_cons_self
          rw [attributesText_cons_append, attributesText_cons_append] at h
          have hfirst := List.tail_eq_of_cons_eq h
          -- the reader of attributes finds one attribute at the front of either text
          have hread : Scan.attribute? (attributeText name.toList value.toList ++
              (attributesText es ++ '\n' :: rest)) = some ((String.ofList name.toList,
                String.ofList value.toList), attributesText es ++ '\n' :: rest) :=
            attribute?_append hname hvalue
          rw [hfirst, attribute?_append hname' hvalue'] at hread
          simp only [Option.some.injEq, Prod.mk.injEq, String.ofList_toList] at hread
          obtain ⟨⟨rfl, rfl⟩, hmore⟩ := hread
          obtain ⟨rfl, hrest⟩ := ih (fun e he => hes e (List.mem_cons_of_mem _ he))
            (fun e he => hes' e (List.mem_cons_of_mem _ he)) hmore.symm
          exact ⟨rfl, hrest⟩

/-- A line of a level gives back the name and the attributes that it was made of. -/
theorem eq_of_line {name name' : String} {attributes attributes' : Attributes}
    (hname : isName name.toList = true) (hname' : isName name'.toList = true)
    (hattributes : attributes.isWellFormed = true) (hattributes' : attributes'.isWellFormed = true)
    (h : List.replicate (2 * level) ' ' ++ name.toList ++ attributesText attributes.entries ++
        '\n' :: rest =
      List.replicate (2 * level) ' ' ++ name'.toList ++ attributesText attributes'.entries ++
        '\n' :: rest') :
    name = name' ∧ attributes = attributes' ∧ rest = rest' := by
  have hends (es : List (String × String)) (rest : List Char) :
      ∀ c ∈ (attributesText es ++ '\n' :: rest).head?, isNamePart c = false := by
    cases es <;> rintro c ⟨⟩ <;> decide
  simp only [List.append_assoc, List.append_cancel_left_eq] at h
  -- a name is told from what follows it by the first character that is in no name
  obtain ⟨hnames, hmore⟩ := eq_of_append_of_stop (all_of_isName hname) (all_of_isName hname')
    (hends _ rest) (hends _ rest') h
  obtain ⟨hentries, hrest⟩ := eq_of_attributesText (Attributes.isWellFormed_iff.1 hattributes)
    (Attributes.isWellFormed_iff.1 hattributes') hmore
  refine ⟨String.toList_injective hnames, ?_, hrest⟩
  cases attributes
  cases attributes'
  cases hentries
  rfl

/-! ## Indentation -/

/-- One level more is two spaces more. -/
theorem indentation_succ (level : Nat) :
    List.replicate (2 * (level + 1)) ' ' = List.replicate (2 * level) ' ' ++ [' ', ' '] := by
  rw [Nat.mul_succ, ← List.replicate_append_replicate]
  rfl

/-- The text is not indented as deep as a line of the level, or it ends there. -/
def Above (level : Nat) (text : List Char) : Prop :=
  ∀ more, text = List.replicate (2 * level) ' ' ++ more → more = []

theorem above_nil (level : Nat) : Above level [] := by
  intro more h
  exact (List.append_eq_nil_iff.1 h.symm).2

theorem Above.succ (h : Above level rest) : Above (level + 1) rest := by
  intro more hrest
  have hdeeper : rest = List.replicate (2 * level) ' ' ++ ' ' :: ' ' :: more := by
    rw [hrest, indentation_succ, List.append_assoc]
    rfl
  cases h _ hdeeper

/-- A line of the level is indented as deep as the level. -/
theorem not_above {c : Element} (hc : c.isWellFormed = true) (rest : List Char) :
    ¬ Above level (outlineText level c ++ rest) := by
  obtain ⟨name, attributes, children⟩ := c
  obtain ⟨hname, -⟩ := isWellFormed_iff.1 hc
  intro h
  have hempty := h (name.toList ++ (attributesText attributes.entries ++
    '\n' :: (outlineTexts (level + 1) children ++ rest))) (by simp [outlineText])
  simp at hempty

/-- A line of the level is not indented deeper, for names do not begin with spaces. -/
theorem above_succ_outlineTexts {cs : List Element} (hcs : allWellFormed cs = true)
    (h : Above level rest) : Above (level + 1) (outlineTexts level cs ++ rest) := by
  cases cs with
  | nil => exact h.succ
  | cons c cs =>
      obtain ⟨name, attributes, children⟩ := c
      obtain ⟨hc, -⟩ := allWellFormed_cons.1 hcs
      obtain ⟨hname, -⟩ := isWellFormed_iff.1 hc
      intro more hmore
      rw [outlineTexts, outlineText, indentation_succ] at hmore
      simp only [List.append_assoc, List.append_cancel_left_eq] at hmore
      cases hcs : name.toList with
      | nil => rw [hcs] at hname; cases hname
      | cons c cs =>
          rw [hcs] at hname hmore
          have hspace : c = ' ' := (List.cons.inj hmore).1
          rw [hspace] at hname
          cases hname

/-! ## Outlines are prefix-free -/

mutual

/-- An outline is told from what is indented less. -/
theorem eq_of_outlineText : (c d : Element) → ∀ {level : Nat} {rest rest' : List Char},
    c.isWellFormed = true → d.isWellFormed = true → Above (level + 1) rest →
    Above (level + 1) rest' → outlineText level c ++ rest = outlineText level d ++ rest' →
    c = d ∧ rest = rest'
  | ⟨name, attributes, children⟩, ⟨name', attributes', children'⟩, level, rest, rest', hc, hd,
      hrest, hrest', h => by
      obtain ⟨hname, hattributes, hchildren⟩ := isWellFormed_iff.1 hc
      obtain ⟨hname', hattributes', hchildren'⟩ := isWellFormed_iff.1 hd
      rw [outlineText, outlineText, List.append_assoc, List.append_assoc _ _ rest',
        List.cons_append, List.cons_append] at h
      obtain ⟨rfl, rfl, hinside⟩ := eq_of_line hname hname' hattributes hattributes' h
      obtain ⟨rfl, hends⟩ :=
        eq_of_outlineTexts children children' hchildren hchildren' hrest hrest' hinside
      exact ⟨rfl, hends⟩

theorem eq_of_outlineTexts : (cs ds : List Element) → ∀ {level : Nat} {rest rest' : List Char},
    allWellFormed cs = true → allWellFormed ds = true → Above level rest → Above level rest' →
    outlineTexts level cs ++ rest = outlineTexts level ds ++ rest' → cs = ds ∧ rest = rest'
  | [], [], _, _, _, _, _, _, _, h => ⟨rfl, h⟩
  | [], d :: ds, level, rest, rest', _, hds, hrest, _, h => by
      rw [outlineTexts, outlineTexts, List.append_assoc, List.nil_append] at h
      rw [h] at hrest
      exact absurd hrest (not_above (allWellFormed_cons.1 hds).1 _)
  | c :: cs, [], level, rest, rest', hcs, _, _, hrest', h => by
      rw [outlineTexts, outlineTexts, List.append_assoc, List.nil_append] at h
      rw [← h] at hrest'
      exact absurd hrest' (not_above (allWellFormed_cons.1 hcs).1 _)
  | c :: cs, d :: ds, level, rest, rest', hcs, hds, hrest, hrest', h => by
      obtain ⟨hc, hcs'⟩ := allWellFormed_cons.1 hcs
      obtain ⟨hd, hds'⟩ := allWellFormed_cons.1 hds
      rw [outlineTexts, outlineTexts, List.append_assoc, List.append_assoc] at h
      -- what follows a tree of the level lies at the level again, or above it
      obtain ⟨rfl, hmore⟩ := eq_of_outlineText c d hc hd (above_succ_outlineTexts hcs' hrest)
        (above_succ_outlineTexts hds' hrest') h
      obtain ⟨rfl, hends⟩ := eq_of_outlineTexts cs ds hcs' hds' hrest hrest' hmore
      exact ⟨rfl, hends⟩

end

/-- Well-formed elements with equal outlines are equal. -/
theorem eq_of_outline {e d : Element} (he : e.isWellFormed = true) (hd : d.isWellFormed = true)
    (h : e.outline = d.outline) : e = d := by
  have htexts : outlineText 0 e ++ [] = outlineText 0 d ++ [] := by
    rw [← toList_outline, ← toList_outline, h]
  exact (eq_of_outlineText e d he hd (above_nil 1) (above_nil 1) htexts).1

/-! ## Elements that are read -/

/-- The element is what some text is read as: a whole document, or a piece of a text, by the rule
for elements in some mode. -/
def IsRead (e : Element) : Prop :=
  (∃ maxDepth source, Document.parse maxDepth source = .accepted e) ∨
    ∃ (r : ElementRule) (v w : View), v.Valid ∧ ((Parser.element r).run v).outcome = .ok (e, w)

theorem IsRead.isWellFormed {e : Element} (h : e.IsRead) : e.isWellFormed = true := by
  rcases h with ⟨maxDepth, source, haccepted⟩ | ⟨r, v, w, hv, hok⟩
  · obtain ⟨⟨before, inside, after, -, hderives, -⟩, -⟩ :=
      Document.parse_eq_accepted_iff.1 haccepted
    exact isWellFormed_of_derives hderives
  · obtain ⟨text, -, -, hderives, -⟩ := (ElementRule.outcome_run_iff hv).1 hok
    exact isWellFormed_of_derives hderives

/-- **The outline is the outline by recursion, and it loses nothing.** Written from a stack, the
outline of any tree is the line of its root and then the outlines of its children, one level
deeper. Of two elements that were read from texts the outlines are equal only if the elements
are. -/
theorem outline_loses_nothing :
    (∀ e : Element, e.outline.toList = outlineText 0 e) ∧
    ∀ e d : Element, e.IsRead → d.IsRead → e.outline = d.outline → e = d :=
  ⟨toList_outline, fun _ _ he hd h => eq_of_outline he.isWellFormed hd.isWellFormed h⟩

/-- A value that looks like the line of a child, in two documents of one outline. -/
theorem outline_loses_nothing_value :
    Document.parse none "<a k=\"\n  b\" x=\"\"/>" =
      .accepted ⟨"a", .ofList [("k", "\n  b"), ("x", "")], []⟩ ∧
    Document.parse none "<a x=\"\" k=\"\n  b\"></a>" =
      .accepted ⟨"a", .ofList [("x", ""), ("k", "\n  b")], []⟩ ∧
    outline ⟨"a", .ofList [("k", "\n  b"), ("x", "")], []⟩ =
      outline ⟨"a", .ofList [("x", ""), ("k", "\n  b")], []⟩ ∧
    (⟨"a", .ofList [("k", "\n  b"), ("x", "")], []⟩ : Element) =
      ⟨"a", .ofList [("x", ""), ("k", "\n  b")], []⟩ := by
  have hleaf : Document.parse none "<a k=\"\n  b\" x=\"\"/>" =
      .accepted ⟨"a", .ofList [("k", "\n  b"), ("x", "")], []⟩ := by decide +kernel
  have hpair : Document.parse none "<a x=\"\" k=\"\n  b\"></a>" =
      .accepted ⟨"a", .ofList [("x", ""), ("k", "\n  b")], []⟩ := by decide +kernel
  have houtlines : outline ⟨"a", .ofList [("k", "\n  b"), ("x", "")], []⟩ =
      outline ⟨"a", .ofList [("x", ""), ("k", "\n  b")], []⟩ := by decide +kernel
  refine ⟨hleaf, hpair, houtlines, ?_⟩
  exact outline_loses_nothing.2 _ _ (.inl ⟨_, _, hleaf⟩) (.inl ⟨_, _, hpair⟩) houtlines

end Element

end TagTree
