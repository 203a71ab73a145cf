import TagTree.Proofs.Grammar.AttributeRows

/-!
# The texts of tags

What the readers of attributes and tags find is what the grammar derives. The grammar may split a
text in any way that fits, the readers take the longest piece. The two agree because a name is
followed by white space or by the end of its tag, never by a character that could go on in it, and
because the end of a tag begins no attribute.
-/

set_option autoImplicit false

namespace TagTree

namespace Grammar

open Scan (name? attribute? skipBlanks)

variable {cs rest name value : List Char}

/-! ## Attributes -/

/-- More attributes are a row, with white space in front of it. -/
theorem derivesMore_iff {text : List Char} {pairs : List (String × String)} :
    DerivesMore text pairs ↔ ∃ blanks row, isBlankText blanks = true ∧
      text = blanks ++ rowText row ∧ pairs = row.map WrittenAttribute.pair := by
  constructor
  · intro h
    induction h with
    | @done blanks hblanks => exact ⟨blanks, [], hblanks, (List.append_nil _).symm, rfl⟩
    | @next blanks name value text pairs hblanks hname hvalue hmore ih =>
        obtain ⟨after, row, hafter, rfl, rfl⟩ := ih
        let a : WrittenAttribute := ⟨blanks, name, value, after, hblanks, hname, hvalue, hafter⟩
        exact ⟨[], a :: row, rfl, (rowText_cons_eq a row).symm, rfl⟩
  · rintro ⟨blanks, row, hblanks, rfl, rfl⟩
    induction row generalizing blanks with
    | nil => exact (List.append_nil blanks).symm ▸ .done hblanks
    | cons a row ih =>
        have hbefore : isBlankText (blanks ++ a.before) = true := by
          rw [isBlankText_append, hblanks, a.isBlankText_before]
          rfl
        rw [rowText_cons_eq, List.append_assoc a.before, ← List.append_assoc blanks,
          ← List.append_assoc (blanks ++ a.before)]
        exact .next hbefore a.isName_name a.isValue_value (ih a.after a.isBlankText_after)

/-- The attributes of a tag are a row that has white space in front of it, if there are any. -/
theorem derivesAttributes_iff {text : List Char} {pairs : List (String × String)} :
    DerivesAttributes text pairs ↔ ∃ row : List WrittenAttribute,
      (∀ a ∈ row.head?, a.before ≠ []) ∧ text = rowText row ∧
        pairs = row.map WrittenAttribute.pair := by
  constructor
  · intro h
    cases h with
    | none => exact ⟨[], nofun, rfl, rfl⟩
    | @some blanks name value text pairs hblanks hne hname hvalue hmore =>
        obtain ⟨after, row, hafter, rfl, rfl⟩ := derivesMore_iff.1 hmore
        let a : WrittenAttribute := ⟨blanks, name, value, after, hblanks, hname, hvalue, hafter⟩
        refine ⟨a :: row, ?_, (rowText_cons_eq a row).symm, rfl⟩
        rintro b ⟨⟩
        exact hne
  · rintro ⟨row, hbefore, rfl, rfl⟩
    cases row with
    | nil => exact .none
    | cons a row =>
        have hmore := derivesMore_iff.2 ⟨a.after, row, a.isBlankText_after, rfl, rfl⟩
        rw [rowText_cons_eq]
        exact .some a.isBlankText_before (hbefore a rfl) a.isName_name a.isValue_value hmore

/-- Behind a name the reader finds what the grammar derives. -/
theorem exists_derivesAttributes (hcs : ∀ c ∈ cs.head?, isNamePart c = false) :
    ∃ text, cs = text ++ (Scan.attributes cs).2 ∧
      DerivesAttributes text (Scan.attributes cs).1 := by
  obtain ⟨row, hrow, hpairs⟩ := exists_isWholeRow cs
  refine ⟨rowText row, hrow.text_eq, derivesAttributes_iff.2 ⟨row, ?_, rfl, hpairs.symm⟩⟩
  cases row with
  | nil => nofun
  | cons a row =>
      rintro b ⟨⟩ hbefore
      -- without white space the attribute would go on in the name before it
      have hfront : cs = attributeText a.name a.value ++
          (a.after ++ rowText row ++ (Scan.attributes cs).2) := by
        refine hrow.text_eq.trans ?_
        rw [rowText_cons_eq, hbefore, List.nil_append, List.append_assoc]
      cases hname : a.name with
      | nil =>
          have hisName := a.isName_name
          rw [hname] at hisName
          cases hisName
      | cons c name =>
          have hhead : cs.head? = some c := by rw [hfront, hname]; rfl
          have hpart := head?_attributeText a.isName_name a.value _ c (hfront ▸ hhead)
          rw [hcs c hhead] at hpart
          cases hpart

/-- A text at whose front no attribute stands, nor white space. -/
def EndsAttributes (cs : List Char) : Prop :=
  ∀ c ∈ cs.head?, isBlank c = false ∧ isNamePart c = false

theorem not_beginsAttribute_of_endsAttributes (h : EndsAttributes rest) :
    ¬ BeginsAttribute rest := by
  refine attribute?_eq_none_iff.1 ?_
  rw [skipBlanks_of_stop fun c hc => (h c hc).1, attribute?,
    name?_eq_none fun c hc => (h c hc).2]

/-- In front of a text that ends them the attributes of a tag are read. -/
theorem attributes_of_derivesAttributes {text : List Char} {pairs : List (String × String)}
    (h : DerivesAttributes text pairs) (hrest : EndsAttributes rest) :
    Scan.attributes (text ++ rest) = (pairs, rest) := by
  obtain ⟨row, -, rfl, rfl⟩ := derivesAttributes_iff.1 h
  have hrow : IsWholeRow row (rowText row ++ rest) rest :=
    ⟨rfl, not_beginsAttribute_of_endsAttributes hrest, fun _ c hc => (hrest c hc).1⟩
  exact hrow.attributes_eq

/-- Attributes begin with white space, if there are any: they do not go on in a name. -/
theorem head?_derivesAttributes {text : List Char} {pairs : List (String × String)}
    (h : DerivesAttributes text pairs) (hrest : EndsAttributes rest) :
    ∀ c ∈ (text ++ rest).head?, isNamePart c = false := by
  cases h with
  | none => exact fun c hc => (hrest c hc).2
  | @some blanks name value text pairs hblanks hne hname hvalue hmore =>
      cases blanks with
      | nil => exact absurd rfl hne
      | cons d blanks =>
          rintro c ⟨⟩
          -- the first character is white space, which is in no name
          have hd : isBlank d = true := List.all_eq_true.1 hblanks d List.mem_cons_self
          cases hpart : isNamePart d with
          | false => rfl
          | true =>
              rw [isBlank_of_isNamePart hpart] at hd
              cases hd

/-! ## Tags -/

theorem shellAt_append {attributes : List Char} {pairs : List (String × String)}
    (hname : isName name = true) (hattributes : DerivesAttributes attributes pairs)
    (hrest : EndsAttributes rest) :
    shellAt ('<' :: (name ++ attributes ++ rest)) =
      .read ⟨String.ofList name, .ofList pairs, []⟩ rest := by
  have hread : name? (name ++ (attributes ++ rest)) = some (name, attributes ++ rest) :=
    name?_append hname (head?_derivesAttributes hattributes hrest)
  rw [shellAt, charAt, if_pos rfl, Piece.andThen_read, nameAt, List.append_assoc, hread]
  simp only [Piece.andThen_read, attributes_of_derivesAttributes hattributes hrest]

theorem shellAt_eq_read {e : Element} (h : shellAt cs = .read e rest) :
    ∃ name attributes pairs, isName name = true ∧ DerivesAttributes attributes pairs ∧
      e = ⟨String.ofList name, .ofList pairs, []⟩ ∧ cs = '<' :: (name ++ attributes ++ rest) := by
  rw [shellAt] at h
  cases cs with
  | nil => cases h
  | cons d cs =>
      rw [charAt] at h
      split at h
      · rename_i hd
        rw [Piece.andThen_read, nameAt] at h
        cases hname : name? cs with
        | none => rw [hname] at h; cases h
        | some found =>
            obtain ⟨name, after⟩ := found
            rw [hname] at h
            cases h
            obtain ⟨hisName, hcs, hstop⟩ := name?_eq_some hname
            obtain ⟨text, hafter, hderives⟩ := exists_derivesAttributes hstop
            refine ⟨name, text, _, hisName, hderives, rfl, ?_⟩
            rw [hd, hcs, List.append_assoc, ← hafter]
      · cases h

/-- The texts of the two start tags. -/
theorem startTagAt_eq_read {tag : StartTag} (h : startTagAt cs = .read tag rest) :
    ∃ name attributes pairs, isName name = true ∧ DerivesAttributes attributes pairs ∧
      ((tag = .whole ⟨String.ofList name, .ofList pairs, []⟩ ∧
          cs = '<' :: (name ++ attributes ++ '/' :: '>' :: rest)) ∨
        (tag = .opening ⟨String.ofList name, .ofList pairs, []⟩ ∧
          cs = '<' :: (name ++ attributes ++ '>' :: rest))) := by
  rw [startTagAt] at h
  cases hshell : shellAt cs with
  | stuck cause after => rw [hshell] at h; cases h
  | read e after =>
      rw [hshell, Piece.andThen_read] at h
      obtain ⟨name, attributes, pairs, hname, hattributes, rfl, hcs⟩ := shellAt_eq_read hshell
      refine ⟨name, attributes, pairs, hname, hattributes, ?_⟩
      revert h
      fun_cases tagEndAt _ after with
      | case1 rest' => rintro ⟨⟩; exact Or.inl ⟨rfl, hcs⟩
      | case2 rest' => rintro ⟨⟩; exact Or.inr ⟨rfl, hcs⟩
      | case3 => rintro ⟨⟩

theorem startTagAt_whole {attributes : List Char} {pairs : List (String × String)}
    (hname : isName name = true) (hattributes : DerivesAttributes attributes pairs) :
    startTagAt ('<' :: (name ++ attributes ++ '/' :: '>' :: rest)) =
      .read (.whole ⟨String.ofList name, .ofList pairs, []⟩) rest := by
  have hend : EndsAttributes ('/' :: '>' :: rest) := by rintro c ⟨⟩; decide
  rw [startTagAt, shellAt_append hname hattributes hend]
  rfl

theorem startTagAt_opening {attributes : List Char} {pairs : List (String × String)}
    (hname : isName name = true) (hattributes : DerivesAttributes attributes pairs) :
    startTagAt ('<' :: (name ++ attributes ++ '>' :: rest)) =
      .read (.opening ⟨String.ofList name, .ofList pairs, []⟩) rest := by
  have hend : EndsAttributes ('>' :: rest) := by rintro c ⟨⟩; decide
  rw [startTagAt, shellAt_append hname hattributes hend]
  rfl

/-- A start tag takes three characters at least. -/
theorem startTagAt_suffix {tag : StartTag} (h : startTagAt cs = .read tag rest) :
    rest <:+ cs ∧ rest.length + 3 ≤ cs.length := by
  obtain ⟨name, attributes, pairs, hname, -, ⟨-, rfl⟩ | ⟨-, rfl⟩⟩ := startTagAt_eq_read h
  -- a name has a character, its sign and its end make two more
  all_goals
    have hpos : 0 < name.length := by
      cases name with
      | nil => cases hname
      | cons c name => exact Nat.succ_pos _
    constructor
  · exact ⟨'<' :: (name ++ attributes ++ ['/', '>']), by simp⟩
  · simp only [List.length_cons, List.length_append]
    omega
  · exact ⟨'<' :: (name ++ attributes ++ ['>']), by simp⟩
  · simp only [List.length_cons, List.length_append]
    omega

/-- The closing tag of an element is read where it stands, and nowhere else. -/
theorem closeElementAt_eq_read {expected found : String}
    (h : closeElementAt expected cs = .read found rest) :
    isName expected.toList = true ∧ cs = '<' :: '/' :: (expected.toList ++ '>' :: rest) := by
  rw [closeElementAt, closeTagAt] at h
  cases hsign : literalAt "</" cs with
  | stuck cause after => rw [hsign] at h; cases h
  | read _ after =>
      have hcs := eq_append_of_literalAt hsign
      rw [hsign, Piece.andThen_read, nameAt] at h
      cases hname : name? after with
      | none => rw [hname] at h; cases h
      | some read =>
          obtain ⟨name, ending⟩ := read
          obtain ⟨hisName, hafter, -⟩ := name?_eq_some hname
          rw [hname] at h
          cases ending with
          | nil => cases h
          | cons d ending =>
              rw [Piece.andThen_read, charAt] at h
              by_cases hd : d = '>'
              · rw [if_pos hd, Piece.andThen_read, Piece.checked] at h
                by_cases hexpected : String.ofList name = expected
                · rw [if_pos hexpected] at h
                  cases h
                  rw [← hexpected, String.toList_ofList]
                  refine ⟨hisName, ?_⟩
                  rw [hcs, hafter, hd]
                  rfl
                · rw [if_neg hexpected] at h
                  cases h
              · rw [if_neg hd] at h
                cases h

theorem closeElementAt_append (hname : isName name = true) :
    closeElementAt (String.ofList name) ('<' :: '/' :: (name ++ '>' :: rest)) =
      .read (String.ofList name) rest := by
  have hsign : literalAt "</" ('<' :: '/' :: (name ++ '>' :: rest)) =
      .read () (name ++ '>' :: rest) := by
    simp [literalAt, List.isPrefixOf]
  have hread : name? (name ++ '>' :: rest) = some (name, '>' :: rest) :=
    name?_append hname (head?_cons_eq_false (by decide) rest)
  rw [closeElementAt, closeTagAt, hsign, Piece.andThen_read, nameAt, hread]
  simp [charAt, Piece.checked]

end Grammar

end TagTree
