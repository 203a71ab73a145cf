import TagTree.Grammar.Derivation
import TagTree.Proofs.Grammar.Names

/-!
# Rows of attributes

What the rule for attributes takes from the front of a text, however that goes on. It is a row of
written attributes, each with the white space around it. The row is whole when no attribute is
left behind it, nor white space that the last one could take (`Grammar.IsWholeRow`). A text has a
whole row at its front (`Grammar.exists_isWholeRow`), two of them say and leave the same
(`Grammar.IsWholeRow.attributes_eq`), and no beginning of the text that is a row is longer
(`Grammar.IsWholeRow.isLongest`). So an attribute that breaks off, behind its name, behind the
equals sign or for want of a quote, is given back from its name on, and white space is given back
where there is no attribute in front of it and none behind.
-/

set_option autoImplicit false

namespace TagTree

namespace Grammar

open Scan (name? attribute? skipBlanks)

variable {cs rest name value : List Char} {v w : View}

/-! ## Attributes and white space -/

theorem attributeText_append (name value rest : List Char) :
    attributeText name value ++ rest = name ++ '=' :: '"' :: (value ++ '"' :: rest) := by
  simp [attributeText]

theorem attribute?_append (hname : isName name = true) (hvalue : isValue value = true) :
    attribute? (attributeText name value ++ rest) =
      some ((String.ofList name, String.ofList value), rest) := by
  have hread : name? (attributeText name value ++ rest) =
      some (name, '=' :: '"' :: (value ++ '"' :: rest)) := by
    rw [attributeText_append]
    exact name?_append hname (head?_cons_eq_false rfl _)
  have hstop : ∀ c ∈ ('"' :: rest).head?, isValuePart c = false := head?_cons_eq_false rfl rest
  rw [attribute?, hread]
  simp only [dropWhile_append_of_stop hvalue hstop, takeWhile_append_of_stop hvalue hstop]

theorem attribute?_eq_some {pair : String × String} (h : attribute? cs = some (pair, rest)) :
    ∃ name value, isName name = true ∧ isValue value = true ∧
      pair = (String.ofList name, String.ofList value) ∧ cs = attributeText name value ++ rest := by
  rw [attribute?] at h
  split at h
  · rename_i name after hname
    obtain ⟨hisName, hcs, -⟩ := name?_eq_some hname
    split at h
    · cases h
    · rename_i d rest' hdrop
      cases h
      refine ⟨name, after.takeWhile isValuePart, hisName, List.all_takeWhile, rfl, ?_⟩
      have hafter := List.takeWhile_append_dropWhile (p := isValuePart) (l := after)
      rw [hdrop, eq_quote_of_dropWhile hdrop] at hafter
      rw [attributeText_append, hafter, hcs]
  · cases h

theorem isBlankText_append (cs ds : List Char) :
    isBlankText (cs ++ ds) = (isBlankText cs && isBlankText ds) :=
  List.all_append

theorem skipBlanks_append {blanks : List Char} (hblanks : isBlankText blanks = true) :
    skipBlanks (blanks ++ rest) = skipBlanks rest :=
  List.dropWhile_append_of_pos (List.all_eq_true.1 hblanks)

theorem skipBlanks_of_stop (h : ∀ c ∈ cs.head?, isBlank c = false) : skipBlanks cs = cs := by
  cases cs with
  | nil => rfl
  | cons c cs =>
      have hc : isBlank c = false := h c rfl
      rw [skipBlanks, List.dropWhile_cons, hc]
      rfl

theorem skipBlanks_skipBlanks (cs : List Char) : skipBlanks (skipBlanks cs) = skipBlanks cs :=
  skipBlanks_of_stop (head?_dropWhile_eq_false isBlank cs)

/-- White space, and the text behind it. -/
theorem exists_blanks_append (cs : List Char) :
    ∃ blanks, isBlankText blanks = true ∧ cs = blanks ++ skipBlanks cs :=
  ⟨cs.takeWhile isBlank, List.all_takeWhile, List.takeWhile_append_dropWhile.symm⟩

theorem skipBlanks_eq_nil_iff : skipBlanks cs = [] ↔ isBlankText cs = true := by
  constructor
  · intro h
    obtain ⟨blanks, hblanks, hcs⟩ := exists_blanks_append cs
    rw [h, List.append_nil] at hcs
    rw [hcs, hblanks]
  · intro h
    have hskip : skipBlanks (cs ++ []) = skipBlanks [] := skipBlanks_append h
    rwa [List.append_nil] at hskip

/-- A text with an attribute at its front begins like a name. -/
theorem head?_attributeText (hname : isName name = true) (value rest : List Char) :
    ∀ c ∈ (attributeText name value ++ rest).head?, isNamePart c = true := by
  cases name with
  | nil => cases hname
  | cons d ds =>
      rintro c ⟨⟩
      exact isNamePart_of_isNameStart (isName_cons hname).1

theorem skipBlanks_attributeText (hname : isName name = true) (value rest : List Char) :
    skipBlanks (attributeText name value ++ rest) = attributeText name value ++ rest :=
  skipBlanks_of_stop fun c hc => isBlank_of_isNamePart (head?_attributeText hname value rest c hc)

/-! ## Rows -/

/-- An attribute as it is written, with the white space around it. -/
structure WrittenAttribute where
  before : List Char
  name : List Char
  value : List Char
  after : List Char
  isBlankText_before : isBlankText before = true
  isName_name : isName name = true
  isValue_value : isValue value = true
  isBlankText_after : isBlankText after = true

namespace WrittenAttribute

/-- The attribute up to its last quote, with the white space before it. -/
def front (a : WrittenAttribute) : List Char :=
  a.before ++ attributeText a.name a.value

def text (a : WrittenAttribute) : List Char :=
  a.front ++ a.after

/-- What the attribute says. -/
def pair (a : WrittenAttribute) : String × String :=
  (String.ofList a.name, String.ofList a.value)

theorem text_ne_nil (a : WrittenAttribute) : a.text ≠ [] := by
  simp [text, front, attributeText]

/-- The reader finds the attribute where it stands, and goes on behind its last quote. -/
theorem attribute?_front (a : WrittenAttribute) (rest : List Char) :
    attribute? (skipBlanks (a.front ++ rest)) = some (a.pair, rest) := by
  rw [front, List.append_assoc, skipBlanks_append a.isBlankText_before,
    skipBlanks_attributeText a.isName_name, attribute?_append a.isName_name a.isValue_value]
  rfl

theorem attribute?_text (a : WrittenAttribute) (rest : List Char) :
    attribute? (skipBlanks (a.text ++ rest)) = some (a.pair, a.after ++ rest) := by
  rw [text, List.append_assoc, attribute?_front]

end WrittenAttribute

/-- The text of attributes in a row. -/
def rowText (row : List WrittenAttribute) : List Char :=
  row.flatMap WrittenAttribute.text

/-- The text is a row of attributes, or nothing at all. -/
def IsRow (text : List Char) : Prop :=
  ∃ row, text = rowText row

/-- An attribute stands at the front of the text, with white space before it or without. -/
def BeginsAttribute (text : List Char) : Prop :=
  ∃ a : WrittenAttribute, a.front <+: text

/-- The text begins with the row and goes on with `rest`, where no attribute is left, nor white
space behind the last one. -/
structure IsWholeRow (row : List WrittenAttribute) (text rest : List Char) : Prop where
  text_eq : text = rowText row ++ rest
  noneLeft : ¬ BeginsAttribute rest
  noBlankLeft : rowText row ≠ [] → ∀ c ∈ rest.head?, isBlank c = false

variable {row : List WrittenAttribute}

theorem rowText_cons (a : WrittenAttribute) (row : List WrittenAttribute) :
    rowText (a :: row) = a.text ++ rowText row := rfl

/-- The text of a row, cut behind the last quote of its first attribute. -/
theorem rowText_cons_eq (a : WrittenAttribute) (row : List WrittenAttribute) :
    rowText (a :: row) =
      a.before ++ attributeText a.name a.value ++ (a.after ++ rowText row) := by
  rw [rowText_cons, WrittenAttribute.text, List.append_assoc]
  rfl

theorem rowText_cons_ne_nil (a : WrittenAttribute) (row : List WrittenAttribute) :
    rowText (a :: row) ≠ [] :=
  fun h => a.text_ne_nil (List.append_eq_nil_iff.1 h).1

/-! ## Reading a row -/

/-- An attribute that is read is written there. -/
theorem exists_writtenAttribute {pair : String × String}
    (h : attribute? (skipBlanks cs) = some (pair, rest)) :
    ∃ a : WrittenAttribute, a.pair = pair ∧ cs = a.text ++ skipBlanks rest := by
  obtain ⟨name, value, hname, hvalue, rfl, htext⟩ := attribute?_eq_some h
  obtain ⟨before, hbefore, hcs⟩ := exists_blanks_append cs
  obtain ⟨after, hafter, hrest⟩ := exists_blanks_append rest
  refine ⟨⟨before, name, value, after, hbefore, hname, hvalue, hafter⟩, rfl, ?_⟩
  calc cs = before ++ (attributeText name value ++ rest) := by rw [← htext, ← hcs]
    _ = before ++ (attributeText name value ++ (after ++ skipBlanks rest)) := by rw [← hrest]
    _ = before ++ attributeText name value ++ after ++ skipBlanks rest := by
        simp only [List.append_assoc]

/-- The reader finds no attribute exactly where none stands. -/
theorem attribute?_eq_none_iff : attribute? (skipBlanks cs) = none ↔ ¬ BeginsAttribute cs := by
  constructor
  · rintro hnone ⟨a, more, rfl⟩
    rw [a.attribute?_front] at hnone
    cases hnone
  · intro hno
    cases hread : attribute? (skipBlanks cs) with
    | none => rfl
    | some found =>
        obtain ⟨a, -, hcs⟩ := exists_writtenAttribute hread
        have hfront : a.front <+: cs := by
          rw [hcs, WrittenAttribute.text, List.append_assoc]
          exact List.prefix_append _ _
        exact absurd ⟨a, hfront⟩ hno

theorem attributes_of_not_begins (h : ¬ BeginsAttribute cs) : Scan.attributes cs = ([], cs) :=
  attributes_of_none (attribute?_eq_none_iff.2 h)

/-- The reader takes an attribute with the white space around it, and goes on behind that. -/
theorem attributes_text (a : WrittenAttribute) (rest : List Char) :
    Scan.attributes (a.text ++ rest) =
      (a.pair :: (Scan.attributes (skipBlanks rest)).1, (Scan.attributes (skipBlanks rest)).2) := by
  rw [attributes_of_some (a.attribute?_text rest), skipBlanks_append a.isBlankText_after]

/-- White space in front of an attribute makes no difference. -/
theorem attributes_skipBlanks_text (a : WrittenAttribute) (rest : List Char) :
    Scan.attributes (skipBlanks (a.text ++ rest)) = Scan.attributes (a.text ++ rest) := by
  have hread : attribute? (skipBlanks (skipBlanks (a.text ++ rest))) =
      some (a.pair, a.after ++ rest) := by
    rw [skipBlanks_skipBlanks, a.attribute?_text]
  rw [attributes_of_some hread, attributes_of_some (a.attribute?_text rest)]

/-- The reader takes a row, and what follows it. -/
theorem attributes_skipBlanks_rowText (row : List WrittenAttribute) (rest : List Char) :
    Scan.attributes (skipBlanks (rowText row ++ rest)) =
      (row.map WrittenAttribute.pair ++ (Scan.attributes (skipBlanks rest)).1,
        (Scan.attributes (skipBlanks rest)).2) := by
  induction row with
  | nil => rfl
  | cons a row ih =>
      rw [rowText_cons, List.append_assoc, attributes_skipBlanks_text, attributes_text, ih]
      rfl

theorem attributes_rowText_cons (a : WrittenAttribute) (row : List WrittenAttribute)
    (rest : List Char) :
    Scan.attributes (rowText (a :: row) ++ rest) =
      ((a :: row).map WrittenAttribute.pair ++ (Scan.attributes (skipBlanks rest)).1,
        (Scan.attributes (skipBlanks rest)).2) := by
  rw [← attributes_skipBlanks_rowText, rowText_cons, List.append_assoc, attributes_skipBlanks_text]

/-! ## The whole row -/

/-- There is a whole row at the front of every text: the one that the reader takes. -/
theorem exists_isWholeRow (cs : List Char) :
    ∃ row, IsWholeRow row cs (Scan.attributes cs).2 ∧
      row.map WrittenAttribute.pair = (Scan.attributes cs).1 := by
  -- along the recursion of the reader, which goes on behind white space
  fun_induction Scan.attributes cs with
  | case1 cs pair rest hread hlt more ih =>
      obtain ⟨a, hpair, hcs⟩ := exists_writtenAttribute hread
      obtain ⟨row, hrow, hpairs⟩ := ih
      refine ⟨a :: row, ⟨?_, hrow.noneLeft, fun _ => ?_⟩, ?_⟩
      · rw [rowText_cons, List.append_assoc, ← hrow.text_eq]
        exact hcs
      · cases row with
        | nil =>
            have hrest : skipBlanks rest = more.2 := hrow.text_eq
            rw [← hrest]
            exact head?_dropWhile_eq_false isBlank rest
        | cons b row => exact hrow.noBlankLeft (rowText_cons_ne_nil b row)
      · rw [List.map_cons, hpair, hpairs]
  | case2 cs hnone => exact ⟨[], ⟨rfl, attribute?_eq_none_iff.1 hnone, fun h => absurd rfl h⟩, rfl⟩

namespace IsWholeRow

/-- A text has no other whole row than the one that the reader takes. -/
theorem attributes_eq (h : IsWholeRow row cs rest) :
    Scan.attributes cs = (row.map WrittenAttribute.pair, rest) := by
  rw [h.text_eq]
  cases row with
  | nil => exact attributes_of_not_begins h.noneLeft
  | cons a row =>
      have hrest : skipBlanks rest = rest :=
        skipBlanks_of_stop (h.noBlankLeft (rowText_cons_ne_nil a row))
      rw [attributes_rowText_cons, hrest, attributes_of_not_begins h.noneLeft, List.append_nil]

/-- No beginning of the text that is a row leaves less of it. -/
theorem isLongest (h : IsWholeRow row cs rest) : IsLongest IsRow (rowText row) cs := by
  refine ⟨⟨row, rfl⟩, ⟨rest, h.text_eq.symm⟩, ?_⟩
  rintro other ⟨row', rfl⟩ ⟨rest', hcs⟩
  have hleft : rest.length ≤ rest'.length := by
    have hread : (Scan.attributes (rowText row' ++ rest')).2 = rest := by
      rw [hcs, h.attributes_eq]
    rw [← hread]
    cases row' with
    | nil => exact Scan.length_attributes rest'
    | cons a row' =>
        rw [attributes_rowText_cons]
        exact Nat.le_trans (Scan.length_attributes _) (Scan.length_skipBlanks rest')
  have hlength : (rowText row' ++ rest').length = (rowText row ++ rest).length := by
    rw [hcs, ← h.text_eq]
  rw [List.length_append, List.length_append] at hlength
  omega

end IsWholeRow

/-! ## What the rule takes -/

/-- The rule for attributes takes the whole row at the front of the text left. -/
theorem outcome_attributes_iff (hv : v.Valid) {a : Attributes} :
    (attributes.run v).outcome = .ok (a, w) ↔
      v.Reaches w ∧ ∃ row, IsWholeRow row v.rest w.rest ∧
        a = .ofList (row.map WrittenAttribute.pair) := by
  rw [Parser.run, reads_attributes.outcome_eq_ok_iff _ hv, and_comm]
  apply and_congr_right
  intro _
  constructor
  · intro hread
    simp only [Piece.read.injEq] at hread
    obtain ⟨row, hrow, hpairs⟩ := exists_isWholeRow v.rest
    rw [hread.2] at hrow
    exact ⟨row, hrow, by rw [hpairs, hread.1]⟩
  · rintro ⟨row, hrow, rfl⟩
    rw [hrow.attributes_eq]

/-- The rule for attributes succeeds, whatever the text. -/
theorem exists_outcome_attributes (hv : v.Valid) :
    ∃ a w, (attributes.run v).outcome = .ok (a, w) := by
  obtain ⟨row, hrow, -⟩ := exists_isWholeRow v.rest
  have hreaches : v.Reaches (v.upTo (Scan.attributes v.rest).2) :=
    hv.reaches_upTo ⟨rowText row, hrow.text_eq.symm⟩
  exact ⟨_, _, (outcome_attributes_iff hv).2 ⟨hreaches, row, hrow, rfl⟩⟩

/-- **Attributes are taken as a whole row, and the rest is given back.** At every valid view the
rule for attributes succeeds. What it reads is the whole row at the front of the text left, and it
yields the map that the pairs of this row write. The row is the longest beginning of the text that
is a row, and each name and each value in it is the longest one at its place. Where no attribute
stands nothing is read, white space neither.

The rule for names reads the longest name at the front of the text, whatever follows, and fails
at its start where there is none. The rule for values reads what stands between a quote and the
next one. It fails at its start where no quote stands, and at the end of the text where no other
one follows. -/
theorem attributes_take_longest_row (v : View) (hv : v.Valid) :
    ((∃ a w, (attributes.run v).outcome = .ok (a, w)) ∧
      (∀ a w, (attributes.run v).outcome = .ok (a, w) ↔
        v.Reaches w ∧ ∃ row, IsWholeRow row v.rest w.rest ∧
          a = .ofList (row.map WrittenAttribute.pair)) ∧
      (∀ row rest, IsWholeRow row v.rest rest →
        IsLongest IsRow (rowText row) v.rest ∧
        ∀ earlier a later, row = earlier ++ a :: later →
          IsLongest (fun text => isName text = true) a.name
            (attributeText a.name a.value ++ (a.after ++ rowText later ++ rest)) ∧
          IsLongest (fun text => isValue text = true) a.value
            (a.value ++ '"' :: (a.after ++ rowText later ++ rest))) ∧
      (¬ BeginsAttribute v.rest → (attributes.run v).outcome = .ok (∅, v))) ∧
    ((∀ x w, (identifier.run v).outcome = .ok (x, w) ↔
        v.Reaches w ∧ v.rest = x.toList ++ w.rest ∧
          IsLongest (fun text => isName text = true) x.toList v.rest) ∧
      (v.rest = [] → (identifier.run v).outcome = .error (.failed ⟨.unexpectedEnd, v.offset⟩)) ∧
      (v.rest ≠ [] → (∀ name, isName name = true → ¬ name <+: v.rest) →
        (identifier.run v).outcome = .error (.failed ⟨.predicateMismatch, v.offset⟩))) ∧
    ((∀ x w, (quotedString.run v).outcome = .ok (x, w) ↔
        v.Reaches w ∧ v.rest = '"' :: (x.toList ++ '"' :: w.rest) ∧ '"' ∉ x.toList) ∧
      (∀ text, v.rest = '"' :: text → '"' ∉ text → (quotedString.run v).outcome =
        .error (.failed ⟨.unexpectedEnd, v.source.utf8ByteSize⟩)) ∧
      ((∀ c ∈ v.rest.head?, c ≠ '"') → (quotedString.run v).outcome =
        .error (.failed ⟨causeAt (.literalMismatch "\"") v.rest, v.offset⟩))) := by
  refine ⟨⟨exists_outcome_attributes hv, fun a w => outcome_attributes_iff hv, ?_, ?_⟩,
    ⟨fun x w => outcome_identifier_iff hv, ?_, ?_⟩, fun x w => outcome_quotedString_iff hv,
    fun text => outcome_quotedString_of_unclosed hv, outcome_quotedString_of_no_quote hv⟩
  · intro row rest hrow
    refine ⟨hrow.isLongest, ?_⟩
    intro earlier a later _
    refine ⟨?_, isLongest_value a.isValue_value _⟩
    rw [attributeText_append]
    exact isLongest_name a.isName_name (head?_cons_eq_false rfl _)
  · intro hno
    have hrow : IsWholeRow [] v.rest v.rest := ⟨rfl, hno, fun h => absurd rfl h⟩
    exact (outcome_attributes_iff hv).2 ⟨.refl v, [], hrow, rfl⟩
  · intro hempty
    have hno : ∀ name, isName name = true → ¬ name <+: v.rest := by
      intro name hname hbegins
      rw [hempty, List.prefix_nil] at hbegins
      rw [hbegins] at hname
      cases hname
    rw [outcome_identifier_of_no_name hv hno, hempty]
    rfl
  · intro hne hno
    rw [outcome_identifier_of_no_name hv hno, causeAt, if_neg (by simpa using hne)]

/-- Two attributes without white space between them, white space beyond ASCII, and an attribute whose
value has no end: it is given back from its name on, the white space in front of it is not. -/
theorem attributes_take_longest_row_unclosed :
    let source := "<a b=\"1\"c=\">\"\u00a0 d=\"3/>"
    let v : View := ⟨source, 2, " b=\"1\"c=\">\"\u00a0 d=\"3/>".toList⟩
    let w : View := ⟨source, 16, ['d', '=', '"', '3', '/', '>']⟩
    let u : View := ⟨source, 18, ['"', '3', '/', '>']⟩
    v.Valid ∧ u.Valid ∧
      (attributes.run v).outcome = .ok (.ofList [("b", "1"), ("c", ">")], w) ∧
      IsLongest IsRow " b=\"1\"c=\">\"\u00a0 ".toList v.rest ∧ ¬ BeginsAttribute w.rest ∧
      (attributes.run w).outcome = .ok (∅, w) ∧
      (quotedString.run u).outcome = .error (.failed ⟨.unexpectedEnd, 22⟩) := by
  intro source v w u
  have hv : v.Valid := ⟨"<a".toList, by decide +kernel, by decide +kernel⟩
  have hw : w.Valid := ⟨"<a b=\"1\"c=\">\"\u00a0 ".toList, by decide +kernel, by decide +kernel⟩
  have hu : u.Valid :=
    ⟨"<a b=\"1\"c=\">\"\u00a0 d=".toList, by decide +kernel, by decide +kernel⟩
  let b : WrittenAttribute := ⟨[' '], ['b'], ['1'], [], by decide, by decide, by decide, by decide⟩
  let c : WrittenAttribute :=
    ⟨[], ['c'], ['>'], ['\u00a0', ' '], by decide, by decide, by decide, by decide⟩
  have hnone : attribute? (skipBlanks w.rest) = none := by decide +kernel
  have hrow : IsWholeRow [b, c] v.rest w.rest :=
    ⟨by decide +kernel, attribute?_eq_none_iff.1 hnone, by rintro - d ⟨⟩; decide⟩
  have hreaches : v.Reaches w :=
    ⟨rfl, " b=\"1\"c=\">\"\u00a0 ".toList, by decide +kernel, by decide +kernel⟩
  obtain ⟨⟨-, hiff, hwhole, -⟩, -⟩ := attributes_take_longest_row v hv
  have hquote : (quotedString.run u).outcome =
      .error (.failed ⟨.unexpectedEnd, u.source.utf8ByteSize⟩) :=
    (attributes_take_longest_row u hu).2.2.2.1 ['3', '/', '>'] rfl (by decide)
  exact ⟨hv, hu, (hiff _ w).2 ⟨hreaches, _, hrow, rfl⟩, (hwhole _ _ hrow).1, hrow.noneLeft,
    (attributes_take_longest_row w hw).1.2.2.2 hrow.noneLeft, hquote⟩

end Grammar

end TagTree
