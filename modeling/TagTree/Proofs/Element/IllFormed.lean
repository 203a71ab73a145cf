import TagTree.Proofs.Document.Boundaries
import TagTree.Proofs.Element.Outline

/-!
# Markup of ill-formed elements

Names and values are written as they stand, so the text of an ill-formed element may be the text
of another element: a double quote in a value ends the value, and if what stands behind it goes on
as a tag does, nothing is wrong with the text. With `1" l="2` for the value of `k` it is the text
of an element with two attributes.

Such a text is never read as the element it was written from
(`Element.markup_of_ill_formed`), for what is read is well formed. It is no document at all if
nothing in the element can pass for more of a tag (`Element.isInert`): no name holds a character
that ends a name, and in no value the text behind the first double quote begins like another
attribute or like the end of the tag (`breaksOut`). Then a derivation of the text has to cut it
where it was put together, name by name and value by value, so all of them are such. Otherwise it
may well be a document (`Element.parse_markup_of_breakout`).
-/

set_option autoImplicit false

namespace TagTree

open Grammar
open Scan (name? skipBlanks)

/-! ## Inert elements -/

/-- Whether `c` may stand behind the name of a tag: white space, or a sign of the end of a tag. -/
def isNameEnd (c : Char) : Bool :=
  isBlank c || c == '/' || c == '>'

/-- Whether the text goes on as a tag may behind a value: with the end of the tag, or with a name
and an equals sign. -/
def goesOn : List Char → Bool
  | '/' :: '>' :: _ => true
  | '>' :: _ => true
  | cs =>
    match name? cs with
    | some (_, '=' :: _) => true
    | _ => false

/-- Whether what a value holds behind its first double quote may pass for more of the tag. -/
def breaksOut (value : List Char) : Bool :=
  goesOn (skipBlanks ((value.dropWhile isValuePart).drop 1))

/-- Whether an attribute cannot pass for anything but one attribute, or for none. -/
def isInertEntry (entry : String × String) : Bool :=
  (entry.1.toList.all fun c => !isNameEnd c && c != '=') && !breaksOut entry.2.toList

namespace Element

mutual

/-- Whether no name and no value can pass for more than that, at any level. -/
def isInert : Element → Bool
  | ⟨name, attributes, children⟩ =>
    (name.toList.all fun c => !isNameEnd c) && attributes.entries.all isInertEntry &&
      allInert children

/-- Whether all the trees are inert. -/
def allInert : List Element → Bool
  | [] => true
  | c :: cs => c.isInert && allInert cs

end

end Element

namespace Grammar

variable {cs rest rest' name : List Char}

/-! ## What may stand behind a name or a value -/

/-- A text that begins with the end of a start tag. -/
inductive EndsTag : List Char → Prop where
  | whole (rest : List Char) : EndsTag ('/' :: '>' :: rest)
  | opening (rest : List Char) : EndsTag ('>' :: rest)

theorem EndsTag.isNameEnd (h : EndsTag cs) : ∀ c ∈ cs.head?, isNameEnd c = true := by
  cases h <;> rintro c ⟨⟩ <;> rfl

theorem EndsTag.append (h : EndsTag cs) (rest : List Char) : EndsTag (cs ++ rest) := by
  cases h with
  | whole more => exact .whole (more ++ rest)
  | opening more => exact .opening (more ++ rest)

theorem EndsTag.skipBlanks_eq (h : EndsTag cs) : skipBlanks cs = cs := by
  cases h <;> rfl

theorem goesOn_iff :
    goesOn cs = true ↔ EndsTag cs ∨ ∃ name rest, isName name = true ∧ cs = name ++ '=' :: rest := by
  constructor
  · fun_cases goesOn cs with
    | case1 rest => exact fun _ => Or.inl (.whole rest)
    | case2 rest => exact fun _ => Or.inl (.opening rest)
    | case3 _ _ _ name rest hread =>
        obtain ⟨hname, hcs, -⟩ := name?_eq_some hread
        exact fun _ => Or.inr ⟨name, rest, hname, hcs⟩
    | case4 => nofun
  · rintro ((⟨rest⟩ | ⟨rest⟩) | ⟨name, rest, hname, rfl⟩)
    · rfl
    · rfl
    · have hread : name? (name ++ '=' :: rest) = some (name, '=' :: rest) :=
        name?_append hname (head?_cons_eq_false rfl rest)
      unfold goesOn
      split
      · rfl
      · rfl
      · rw [hread]
        rfl

/-- Behind a value stands the end of the tag, or the name of another attribute. -/
theorem goesOn_of_derivesMore {text : List Char} {pairs : List (String × String)}
    (h : DerivesMore text pairs) (hend : EndsTag rest) :
    goesOn (skipBlanks (text ++ rest)) = true := by
  rw [goesOn_iff]
  cases h with
  | done hblanks =>
      rw [skipBlanks_append hblanks, hend.skipBlanks_eq]
      exact Or.inl hend
  | @next blanks name value text pairs hblanks hname hvalue hmore =>
      rw [List.append_assoc, List.append_assoc, skipBlanks_append hblanks,
        skipBlanks_attributeText hname]
      exact Or.inr ⟨name, _, hname, attributeText_append name value _⟩

/-- Whether a text goes on as a tag does shows in front of the next double quote, for there is none
in a name or in the end of a tag. -/
theorem goesOn_of_append_quote (h : goesOn (cs ++ '"' :: rest) = true) : goesOn cs = true := by
  rw [goesOn_iff] at h ⊢
  rcases h with hend | ⟨name, rest', hname, hcut⟩
  · left
    generalize htext : cs ++ '"' :: rest = text at hend
    cases hend with
    | whole more =>
        rcases cs with _ | ⟨c, _ | ⟨d, cs⟩⟩ <;> cases htext
        exact .whole cs
    | opening more =>
        rcases cs with _ | ⟨c, cs⟩ <;> cases htext
        exact .opening cs
  · right
    rcases List.append_eq_append_iff.1 hcut with ⟨more, hname', hsign⟩ | ⟨more, hcs, hsign⟩
    · -- the quote would be part of the name
      cases more with
      | nil => cases hsign
      | cons c more =>
          cases hsign
          have hquote := List.all_eq_true.1 (all_of_isName hname) '"' (by simp [hname'])
          cases hquote
    · cases more with
      | nil => cases hsign
      | cons c more =>
          cases hsign
          exact ⟨name, more, hname, hcs⟩

theorem skipBlanks_append_quote (cs rest : List Char) :
    skipBlanks (cs ++ '"' :: rest) = skipBlanks cs ++ '"' :: rest := by
  rw [skipBlanks, List.dropWhile_append]
  split
  · rename_i hempty
    rw [skipBlanks, List.isEmpty_iff.1 hempty]
    rfl
  · rfl

/-! ## Where the text of a tag is cut -/

theorem isNameEnd_of_isNamePart {c : Char} (h : isNamePart c = true) : isNameEnd c = false := by
  have hblank := isBlank_of_isNamePart h
  have hslash : c ≠ '/' := by rintro rfl; cases h
  have hgreater : c ≠ '>' := by rintro rfl; cases h
  simp [isNameEnd, hblank, hslash, hgreater]

theorem isBlank_of_not_isNameEnd {c : Char} (h : isNameEnd c = false) : isBlank c = false := by
  simp only [isNameEnd, Bool.or_eq_false_iff] at h
  exact h.1.1

theorem isInertEntry_iff {entry : String × String} :
    isInertEntry entry = true ↔
      (∀ c ∈ entry.1.toList, isNameEnd c = false ∧ c ≠ '=') ∧ breaksOut entry.2.toList = false := by
  simp [isInertEntry]

/-- A name ends at the equals sign, on either side. -/
theorem eq_of_name_sign {written : List Char} (hname : isName name = true)
    (hwritten : ∀ c ∈ written, c ≠ '=') (h : name ++ '=' :: rest = written ++ '=' :: rest') :
    name = written ∧ rest = rest' := by
  have hplain : (name.all fun c => c != '=') = true := by
    refine List.all_eq_true.2 fun c hc => bne_iff_ne.2 ?_
    rintro rfl
    exact absurd (List.all_eq_true.1 (all_of_isName hname) '=' hc) (by decide)
  have hplain' : (written.all fun c => c != '=') = true :=
    List.all_eq_true.2 fun c hc => bne_iff_ne.2 (hwritten c hc)
  exact eq_of_append_cons hplain hplain' rfl h

/-- A value ends at the quote behind it, on either side, if what follows it goes on as a tag does
and what the written value holds behind its first quote does not. -/
theorem eq_of_value_quote {value written : List Char} (hvalue : isValue value = true)
    (hwritten : breaksOut written = false) (hmore : goesOn (skipBlanks rest) = true)
    (h : value ++ '"' :: rest = written ++ '"' :: rest') :
    value = written ∧ rest = rest' := by
  have hpieces := List.takeWhile_append_dropWhile (p := isValuePart) (l := written)
  cases hdrop : written.dropWhile isValuePart with
  | nil =>
      have hplain : written.all isValuePart = true := by
        rw [← hpieces, hdrop, List.append_nil]
        exact List.all_takeWhile
      exact eq_of_append_cons hvalue hplain rfl h
  | cons c behind =>
      -- the value read ends at the first quote of the value written
      rw [← hpieces, hdrop, eq_quote_of_dropWhile hdrop, List.append_assoc] at h
      have hbehind : rest = behind ++ '"' :: rest' :=
        (eq_of_append_cons hvalue List.all_takeWhile rfl h).2
      rw [hbehind, skipBlanks_append_quote] at hmore
      rw [breaksOut, hdrop, List.drop_one, List.tail_cons, goesOn_of_append_quote hmore] at hwritten
      cases hwritten

/-- No name begins with white space or with the end of a tag. -/
theorem isNameEnd_of_name_sign {written : List Char}
    (hwritten : ∀ c ∈ written, isNameEnd c = false) :
    ∀ c ∈ (written ++ '=' :: rest).head?, isNameEnd c = false := by
  cases written with
  | nil =>
      rintro c ⟨⟩
      rfl
  | cons d ds =>
      rintro c ⟨⟩
      exact hwritten d List.mem_cons_self

/-- One space stands in front of an attribute that is written. -/
theorem skipBlanks_attributesText_cons {entry : String × String}
    (hentry : ∀ c ∈ entry.1.toList, isNameEnd c = false) (es : List (String × String))
    (rest : List Char) :
    skipBlanks (attributesText (entry :: es) ++ rest) =
      attributeText entry.1.toList entry.2.toList ++ (attributesText es ++ rest) := by
  have hblank (more : List Char) : skipBlanks (' ' :: more) = skipBlanks more := rfl
  rw [attributesText_cons_append, hblank, attributeText_append]
  exact skipBlanks_of_stop fun c hc =>
    isBlank_of_not_isNameEnd (isNameEnd_of_name_sign hentry c hc)

/-- Inert attributes in whose place a derivation has attributes are such. -/
theorem isWellFormed_of_attributesText {es : List (String × String)}
    (hes : es.all isInertEntry = true) {text : List Char} {pairs : List (String × String)}
    (h : DerivesMore text pairs) (hend : EndsTag rest)
    (hcut : text ++ rest = attributesText es ++ rest') :
    ∀ e ∈ es, isName e.1.toList = true ∧ isValue e.2.toList = true := by
  induction es generalizing text pairs with
  | nil => exact nofun
  | cons e es ih =>
      rw [List.all_cons, Bool.and_eq_true] at hes
      obtain ⟨he, hes⟩ := hes
      obtain ⟨hplain, hkept⟩ := isInertEntry_iff.1 he
      have hname' : ∀ c ∈ e.1.toList, isNameEnd c = false := fun c hc => (hplain c hc).1
      -- behind the white space the derivation has what is written behind the space
      have hskip := skipBlanks_attributesText_cons hname' es rest'
      rw [← hcut, attributeText_append] at hskip
      cases h with
      | done hblanks =>
          -- the attribute would begin with a sign of the end of the tag
          rw [skipBlanks_append hblanks, hend.skipBlanks_eq] at hskip
          have hhead : ∀ c ∈ rest.head?, isNameEnd c = false := by
            rw [hskip]
            exact isNameEnd_of_name_sign hname'
          cases hend with
          | whole more => exact absurd (hhead '/' rfl) (by decide)
          | opening more => exact absurd (hhead '>' rfl) (by decide)
      | @next blanks name value text pairs hblanks hname hvalue hmore =>
          rw [List.append_assoc, List.append_assoc, skipBlanks_append hblanks,
            skipBlanks_attributeText hname, attributeText_append] at hskip
          obtain ⟨rfl, hquoted⟩ := eq_of_name_sign hname (fun c hc => (hplain c hc).2) hskip
          obtain ⟨rfl, hrests⟩ := eq_of_value_quote hvalue hkept
            (goesOn_of_derivesMore hmore hend) (List.tail_eq_of_cons_eq hquoted)
          intro d hd
          rcases List.mem_cons.1 hd with rfl | hd
          · exact ⟨hname, hvalue⟩
          · exact ih hes hmore hrests d hd

/-- Attributes are a text of more attributes. -/
theorem DerivesAttributes.more {text : List Char} {pairs : List (String × String)}
    (h : DerivesAttributes text pairs) : DerivesMore text pairs := by
  cases h with
  | none => exact .done rfl
  | some hblanks hne hname hvalue hmore => exact .next hblanks hname hvalue hmore

/-- The name of a tag ends where a derivation has its attributes or the end of the tag. -/
theorem isNameEnd_of_derivesAttributes {text : List Char} {pairs : List (String × String)}
    (h : DerivesAttributes text pairs) (hend : EndsTag rest) :
    ∀ c ∈ (text ++ rest).head?, isNameEnd c = true := by
  cases h with
  | none => exact hend.isNameEnd
  | @some blanks name value text pairs hblanks hne hname hvalue hmore =>
      cases blanks with
      | nil => exact absurd rfl hne
      | cons d blanks =>
          rintro c ⟨⟩
          have hd : isBlank d = true := List.all_eq_true.1 hblanks d List.mem_cons_self
          rw [isNameEnd, hd]
          rfl

/-- It ends where attributes are written as well. -/
theorem isNameEnd_of_attributesText (es : List (String × String)) (hend : EndsTag rest) :
    ∀ c ∈ (attributesText es ++ rest).head?, isNameEnd c = true := by
  cases es with
  | nil => exact hend.isNameEnd
  | cons e es =>
      rintro c ⟨⟩
      rfl

/-- A start tag of inert parts in whose place a derivation has a start tag is one. -/
theorem isWellFormed_of_startTag {written attributes : List Char} {a : Attributes}
    {pairs : List (String × String)} (hwritten : (written.all fun c => !isNameEnd c) = true)
    (ha : a.entries.all isInertEntry = true) (hname : isName name = true)
    (hattributes : DerivesAttributes attributes pairs) (hend : EndsTag rest)
    (hend' : EndsTag rest')
    (hcut : name ++ (attributes ++ rest) = written ++ (attributesText a.entries ++ rest')) :
    isName written = true ∧ a.isWellFormed = true := by
  have hplain : (name.all fun c => !isNameEnd c) = true := by
    refine List.all_eq_true.2 fun c hc => ?_
    rw [isNameEnd_of_isNamePart (List.all_eq_true.1 (all_of_isName hname) c hc)]
    rfl
  have hstop {more : List Char} (h : ∀ c ∈ more.head?, isNameEnd c = true) :
      ∀ c ∈ more.head?, (!isNameEnd c) = false := by
    intro c hc
    rw [h c hc]
    rfl
  obtain ⟨rfl, htags⟩ := eq_of_append_of_stop hplain hwritten
    (hstop (isNameEnd_of_derivesAttributes hattributes hend))
    (hstop (isNameEnd_of_attributesText a.entries hend')) hcut
  exact ⟨hname, Attributes.isWellFormed_iff.2
    (isWellFormed_of_attributesText ha hattributes.more hend htags)⟩

end Grammar

/-! ## Where the text of an element is cut -/

namespace Element

variable {name rest rest' : List Char}

theorem isInert_iff {name : String} {attributes : Attributes} {children : List Element} :
    isInert ⟨name, attributes, children⟩ = true ↔
      (name.toList.all fun c => !isNameEnd c) = true ∧
        attributes.entries.all isInertEntry = true ∧ allInert children = true := by
  rw [isInert, Bool.and_eq_true, Bool.and_eq_true, and_assoc]

theorem allInert_cons {c : Element} {cs : List Element} :
    allInert (c :: cs) = true ↔ c.isInert = true ∧ allInert cs = true := by
  rw [allInert, Bool.and_eq_true]

/-- The text of an element is a sign, its name, its attributes, and what begins with the end of a
tag. -/
theorem exists_markup_eq (e : Element) :
    ∃ rest, EndsTag rest ∧
      e.markup.toList = '<' :: (e.name.toList ++ (attributesText e.attributes.entries ++ rest)) := by
  obtain ⟨name, attributes, _ | ⟨c, cs⟩⟩ := e
  · refine ⟨_, .whole [], ?_⟩
    rw [toList_markup_nil, Attributes.toList_markup, List.append_assoc]
  · refine ⟨'>' :: ((markupAfter "" (c :: cs)).toList ++ '<' :: '/' :: (name.toList ++ ['>'])),
      .opening _, ?_⟩
    rw [toList_markup_cons, Attributes.toList_markup, List.append_assoc]

/-- So is the text of a derivation. -/
theorem exists_derives_eq {text : List Char} {d : Element} (h : Derives text d) :
    ∃ name attributes pairs rest, isName name = true ∧ DerivesAttributes attributes pairs ∧
      EndsTag rest ∧ text = '<' :: (name ++ (attributes ++ rest)) := by
  cases h with
  | @leaf name attributes pairs hname hattributes =>
      refine ⟨name, attributes, pairs, _, hname, hattributes, .whole [], ?_⟩
      rw [List.append_assoc]
  | @parent name attributes inside pairs children hname hattributes hchildren =>
      refine ⟨name, attributes, pairs, '>' :: (inside ++ '<' :: '/' :: (name ++ ['>'])), hname,
        hattributes, .opening _, ?_⟩
      rw [List.append_assoc]

/-- An inert element is not written as a closing tag. -/
theorem not_closing_of_isInert {e : Element} (he : e.isInert = true) (hname : isName name = true)
    (h : e.markup.toList ++ rest = '<' :: '/' :: (name ++ rest')) : False := by
  obtain ⟨tail, htail, hmarkup⟩ := exists_markup_eq e
  obtain ⟨written, ⟨entries, hsorted⟩, children⟩ := e
  obtain ⟨hplain, -, -⟩ := isInert_iff.1 he
  rw [hmarkup, List.cons_append, List.cons.injEq] at h
  obtain ⟨-, h⟩ := h
  have hslash : ∀ c ∈ ('/' :: (name ++ rest')).head?, c = '/' := by
    rintro c ⟨⟩
    rfl
  cases hchars : written.toList with
  | cons c cs =>
      -- the name would begin with the sign of the closing tag
      rw [hchars] at h hplain
      have hc : c = '/' := hslash c (by rw [← h]; rfl)
      rw [hc] at hplain
      cases hplain
  | nil =>
      rw [hchars] at h
      cases entries with
      | cons entry entries => exact absurd (hslash ' ' (by rw [← h]; rfl)) (by decide)
      | nil =>
          cases htail with
          | opening more => exact absurd (hslash '>' (by rw [← h]; rfl)) (by decide)
          | whole more =>
              -- the closing tag would have no name
              cases name with
              | nil => cases hname
              | cons c cs =>
                  have hc : '>' = c := (List.cons.inj (List.cons.inj h).2).1
                  rw [← hc] at hname
                  cases hname

/-- Behind an opening tag a derivation has elements and a closing tag. -/
theorem exists_inside_of_derives {text attributes : List Char} {pairs : List (String × String)}
    {d : Element} (hderives : Derives text d) (hname : isName name = true)
    (hattributes : DerivesAttributes attributes pairs)
    (hcut : text ++ rest = '<' :: (name ++ attributes ++ '>' :: rest')) :
    ∃ inside ds closing, DerivesAll inside ds ∧ isName closing = true ∧
      inside ++ '<' :: '/' :: (closing ++ '>' :: rest) = rest' := by
  -- both are read as start tags, and with the same result
  have htag : startTagAt ('<' :: (name ++ attributes ++ '>' :: rest')) =
      .read (.opening ⟨String.ofList name, .ofList pairs, []⟩) rest' :=
    startTagAt_opening hname hattributes
  rw [← hcut] at htag
  cases hderives with
  | @leaf name attributes pairs hname hattributes =>
      have hwhole : startTagAt ('<' :: (name ++ attributes ++ '/' :: '>' :: rest)) =
          .read (.whole ⟨String.ofList name, .ofList pairs, []⟩) rest :=
        startTagAt_whole hname hattributes
      have hshape : '<' :: (name ++ attributes ++ '/' :: '>' :: rest) =
          '<' :: (name ++ attributes ++ ['/', '>']) ++ rest := by simp
      rw [hshape, htag] at hwhole
      cases hwhole
  | @parent name attributes inside pairs children hname hattributes hchildren =>
      have hopening : startTagAt ('<' :: (name ++ attributes ++
            '>' :: (inside ++ '<' :: '/' :: (name ++ '>' :: rest)))) =
          .read (.opening ⟨String.ofList name, .ofList pairs, []⟩)
            (inside ++ '<' :: '/' :: (name ++ '>' :: rest)) :=
        startTagAt_opening hname hattributes
      have hshape : '<' :: (name ++ attributes ++
            '>' :: (inside ++ '<' :: '/' :: (name ++ '>' :: rest))) =
          '<' :: (name ++ attributes ++ '>' :: (inside ++ '<' :: '/' :: (name ++ ['>']))) ++
            rest := by simp
      rw [hshape, htag] at hopening
      injection hopening with _ hinside
      exact ⟨inside, children, name, hchildren, hname, hinside.symm⟩

mutual

/-- An inert element in whose place a derivation has an element is well formed. -/
theorem isWellFormed_of_markup :
    (e : Element) → e.isInert = true → ∀ (text rest rest' : List Char) (d : Element),
      Derives text d → text ++ rest = e.markup.toList ++ rest' → e.isWellFormed = true
  | ⟨written, a, children⟩, hinert => by
      intro text rest rest' d hderives hcut
      obtain ⟨hplain, hentries, hchildren⟩ := isInert_iff.1 hinert
      have htag : isName written.toList = true ∧ a.isWellFormed = true := by
        obtain ⟨tail, htail, hmarkup⟩ := exists_markup_eq ⟨written, a, children⟩
        obtain ⟨name, attributes, pairs, tail', hname, hattributes, htail', rfl⟩ :=
          exists_derives_eq hderives
        rw [hmarkup, List.cons_append, List.cons_append, List.cons.injEq] at hcut
        refine isWellFormed_of_startTag hplain hentries hname hattributes (htail'.append rest)
          (htail.append rest') ?_
        simpa using hcut.2
      cases children with
      | nil => exact isWellFormed_iff.2 ⟨htag.1, htag.2, rfl⟩
      | cons c cs =>
          have hopening : text ++ rest = '<' :: (written.toList ++ a.markup.toList ++
              '>' :: ((markupAfter "" (c :: cs)).toList ++
                '<' :: '/' :: (written.toList ++ '>' :: rest'))) := by
            rw [hcut, toList_markup_cons]
            simp
          obtain ⟨inside, ds, closing, hds, hclosing, hinside⟩ :=
            exists_inside_of_derives hderives htag.1 (Attributes.derives_markup htag.2) hopening
          exact isWellFormed_iff.2 ⟨htag.1, htag.2, allWellFormed_of_markup (c :: cs) hchildren
            inside closing _ _ ds hds hclosing hinside⟩

theorem allWellFormed_of_markup :
    (cs : List Element) → allInert cs = true → ∀ (inside name rest rest' : List Char)
      (ds : List Element), DerivesAll inside ds → isName name = true →
      inside ++ '<' :: '/' :: (name ++ rest) = (markupAfter "" cs).toList ++ rest' →
      allWellFormed cs = true
  | [], _ => fun _ _ _ _ _ _ _ _ => rfl
  | c :: cs, hinert => by
      intro inside name rest rest' ds hderives hname hcut
      obtain ⟨hc, hcs⟩ := allInert_cons.1 hinert
      rw [markupAfter_cons, String.empty_append, String.toList_append, List.append_assoc] at hcut
      cases hderives with
      | nil => exact (not_closing_of_isInert hc hname hcut.symm).elim
      | @cons text more d ds hd hds =>
          rw [List.append_assoc] at hcut
          have hwell := isWellFormed_of_markup c hc _ _ _ d hd hcut
          have hrests := ElementRule.eq_of_derives_append hd (derives_markup c hwell) hcut
          exact allWellFormed_cons.2
            ⟨hwell, allWellFormed_of_markup cs hcs _ _ _ _ ds hds hname hrests⟩

end

/-! ## Documents -/

/-- An inert element whose text is a document is well formed. -/
theorem isWellFormed_of_accepted {e d : Element} {maxDepth : Option Nat} (he : e.isInert = true)
    (h : Document.parse maxDepth e.markup = .accepted d) : e.isWellFormed = true := by
  obtain ⟨⟨before, text, after, hbefore, hderives, -, hcut⟩, -⟩ :=
    Document.parse_eq_accepted_iff.1 h
  -- no white space stands before the sign of the first tag
  have hnone : before = [] := by
    obtain ⟨rest, -, hmarkup⟩ := exists_markup_eq e
    rw [hmarkup] at hcut
    cases before with
    | nil => rfl
    | cons c before =>
        have hc : '<' = c := (List.cons.inj hcut).1
        rw [← hc] at hbefore
        cases hbefore
  rw [hnone, List.nil_append] at hcut
  exact isWellFormed_of_markup e he text after [] d hderives (by rw [← hcut, List.append_nil])

/-- **The text of an ill-formed element is never read as that element**: what it is read as, under
any limit, is well formed and another one. Without a limit it is rejected exactly if the grammar
has no element for it, and so it is, under any limit, whenever nothing in the element can pass for
more of a tag. -/
theorem markup_of_ill_formed (e : Element) (he : e.isWellFormed = false) :
    (∀ (maxDepth : Option Nat) (d : Element),
      Document.parse maxDepth e.markup = .accepted d → d.isWellFormed = true ∧ d ≠ e) ∧
    ((∃ why, Document.parse none e.markup = .rejected why) ↔
      ∀ d, ¬ DerivesDocument e.markup.toList d) ∧
    (e.isInert = true → ∀ maxDepth : Option Nat,
      ∃ why, Document.parse maxDepth e.markup = .rejected why) := by
  refine ⟨fun maxDepth d haccepted => ?_, ⟨?_, fun hnone => ?_⟩, fun hinert maxDepth => ?_⟩
  · obtain ⟨⟨before, text, after, -, hderives, -⟩, -⟩ :=
      Document.parse_eq_accepted_iff.1 haccepted
    have hd := isWellFormed_of_derives hderives
    refine ⟨hd, ?_⟩
    rintro rfl
    rw [hd] at he
    cases he
  · rintro ⟨why, hrejected⟩ d hderives
    have haccepted : Document.parse none e.markup = .accepted d :=
      Document.parse_eq_accepted_iff.2 ⟨hderives, nofun⟩
    rw [hrejected] at haccepted
    cases haccepted
  · rcases Document.accepted_or_rejected none e.markup with
      ⟨d, haccepted⟩ | ⟨why, hrejected, -⟩
    · exact absurd (Document.parse_eq_accepted_iff.1 haccepted).1 (hnone d)
    · exact ⟨why, hrejected⟩
  · rcases Document.accepted_or_rejected maxDepth e.markup with
      ⟨d, haccepted⟩ | ⟨why, hrejected, -⟩
    · rw [isWellFormed_of_accepted hinert haccepted] at he
      cases he
    · exact ⟨why, hrejected⟩

/-- A quotation for a value is rejected, and so is a name that begins with a digit, behind a child
that is well formed. -/
theorem markup_of_ill_formed_quotation :
    (∃ why, Document.parse none "<a k=\"say \"hi\"\"/>" = .rejected why) ∧
    (∃ why, Document.parse (some 2) "<a><b/><1/></a>" = .rejected why) ∧
    (⟨"a", .ofList [("k", "1"), ("l", "2")], []⟩ : Element) ≠
      ⟨"a", .ofList [("k", "1\" l=\"2")], []⟩ := by
  have hquotation := markup_of_ill_formed ⟨"a", .ofList [("k", "say \"hi\"")], []⟩
    (by decide +kernel)
  have hdigit := markup_of_ill_formed ⟨"a", ∅, [⟨"b", ∅, []⟩, ⟨"1", ∅, []⟩]⟩ (by decide +kernel)
  have hother := markup_of_ill_formed ⟨"a", .ofList [("k", "1\" l=\"2")], []⟩ (by decide +kernel)
  refine ⟨hquotation.2.2 (by decide +kernel) none, hdigit.2.2 (by decide +kernel) (some 2), ?_⟩
  exact (hother.1 none _ (by decide +kernel)).2

/-- A value that holds the end of its own attribute, and another attribute up to its last quote,
is read as both. -/
theorem parse_markup_of_breakout {name k v l w : String} (hname : isName name.toList = true)
    (hk : isName k.toList = true) (hv : isValue v.toList = true) (hl : isName l.toList = true)
    (hw : isValue w.toList = true) :
    Document.parse none (markup ⟨name, .ofList [(k, v ++ "\" " ++ l ++ "=\"" ++ w)], []⟩) =
      .accepted ⟨name, .ofList [(k, v), (l, w)], []⟩ := by
  have hblank : isBlankText [' '] = true := rfl
  have hderives := Derives.leaf hname
    (.some hblank nofun hk hv (.next hblank hl hw (@DerivesMore.done [] rfl)))
  simp only [String.ofList_toList] at hderives
  rw [Document.parse_eq_accepted_iff]
  refine ⟨⟨[], _, [], rfl, hderives, rfl, ?_⟩, nofun⟩
  have hentries : (Attributes.ofList [(k, v ++ "\" " ++ l ++ "=\"" ++ w)]).entries =
      [(k, v ++ "\" " ++ l ++ "=\"" ++ w)] := rfl
  rw [toList_markup_nil, Attributes.toList_markup, hentries]
  simp [attributesText, attributeText]

/-- An ill-formed element whose text is a document. -/
theorem ill_formed_markup_is_accepted :
    isWellFormed ⟨"a", .ofList [("k", "1\" l=\"2")], []⟩ = false ∧
    Document.parse none (markup ⟨"a", .ofList [("k", "1\" l=\"2")], []⟩) =
      .accepted ⟨"a", .ofList [("k", "1"), ("l", "2")], []⟩ := by
  have hvalue : "1\" l=\"2" = "1" ++ "\" " ++ "l" ++ "=\"" ++ "2" := by decide
  refine ⟨by decide +kernel, ?_⟩
  rw [hvalue]
  exact parse_markup_of_breakout (by decide) (by decide) (by decide) (by decide) (by decide)

end Element

end TagTree
