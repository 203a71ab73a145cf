import TagTree.Grammar.Element
import TagTree.Proofs.Grammar.Tags

/-!
# Names and values

What the rules for names and values take from the front of a text, however that goes on. A name is
the longest one there (`Grammar.outcome_identifier_iff`), and a value goes up to the first quote
behind its own (`Grammar.outcome_quotedString_iff`). Both are longest pieces: characters of one
class, up to the first character that is not of it.
-/

set_option autoImplicit false

namespace TagTree

/-! ## Longest pieces -/

section LongestPiece

variable {test : Char → Bool} {cs rest : List Char}

/-- The longest piece ends where the characters that pass the test do. -/
theorem takeWhile_append_of_stop (hcs : cs.all test = true)
    (hrest : ∀ c ∈ rest.head?, test c = false) : (cs ++ rest).takeWhile test = cs := by
  rw [List.takeWhile_append_of_pos (List.all_eq_true.1 hcs)]
  cases rest with
  | nil => simp
  | cons c rest => simp [hrest c rfl]

theorem dropWhile_append_of_stop (hcs : cs.all test = true)
    (hrest : ∀ c ∈ rest.head?, test c = false) : (cs ++ rest).dropWhile test = rest := by
  rw [List.dropWhile_append_of_pos (List.all_eq_true.1 hcs)]
  cases rest with
  | nil => rfl
  | cons c rest => simp [hrest c rfl]

/-- Two longest pieces in front of the same text are the same piece. -/
theorem eq_of_append_of_stop {ds rest' : List Char} (hcs : cs.all test = true)
    (hds : ds.all test = true) (hrest : ∀ c ∈ rest.head?, test c = false)
    (hrest' : ∀ c ∈ rest'.head?, test c = false) (h : cs ++ rest = ds ++ rest') :
    cs = ds ∧ rest = rest' := by
  have htaken := congrArg (List.takeWhile test) h
  have hleft := congrArg (List.dropWhile test) h
  rw [takeWhile_append_of_stop hcs hrest, takeWhile_append_of_stop hds hrest'] at htaken
  rw [dropWhile_append_of_stop hcs hrest, dropWhile_append_of_stop hds hrest'] at hleft
  exact ⟨htaken, hleft⟩

theorem head?_dropWhile_eq_false (test : Char → Bool) (cs : List Char) :
    ∀ c ∈ (cs.dropWhile test).head?, test c = false := by
  intro c hc
  have hnot := List.head?_dropWhile_not test cs
  rwa [hc] at hnot

theorem head?_cons_eq_false {d : Char} (hd : test d = false) (cs : List Char) :
    ∀ c ∈ (d :: cs).head?, test c = false := by
  rintro c ⟨⟩
  exact hd

/-- Two pieces that end at the same sign, which is in neither of them, are the same piece. -/
theorem eq_of_append_cons {ds rest' : List Char} {d : Char} (hcs : cs.all test = true)
    (hds : ds.all test = true) (hd : test d = false) (h : cs ++ d :: rest = ds ++ d :: rest') :
    cs = ds ∧ rest = rest' := by
  obtain ⟨hsame, hrests⟩ := eq_of_append_of_stop hcs hds (head?_cons_eq_false hd rest)
    (head?_cons_eq_false hd rest') h
  exact ⟨hsame, List.tail_eq_of_cons_eq hrests⟩

end LongestPiece

/-! ## Longest beginnings -/

/-- `piece` is a beginning of `text` with the property, and no longer one has it. -/
structure IsLongest (p : List Char → Prop) (piece text : List Char) : Prop where
  holds : p piece
  begins : piece <+: text
  longest : ∀ other, p other → other <+: text → other.length ≤ piece.length

section LongestBeginning

variable {p : List Char → Prop} {test : Char → Bool} {cs ds text rest : List Char}

/-- There is one longest beginning at most. -/
theorem IsLongest.eq (h : IsLongest p cs text) (h' : IsLongest p ds text) : cs = ds := by
  have hle : cs.length ≤ ds.length := h'.longest cs h.holds h.begins
  have hge : ds.length ≤ cs.length := h.longest ds h'.holds h'.begins
  exact (List.prefix_of_prefix_length_le h.begins h'.begins hle).eq_of_length_le hge

/-- A beginning is the longest of its class if the text goes on with a character that is in no
text of the class. -/
theorem isLongest_of_stop (hp : ∀ other, p other → other.all test = true) (hcs : p cs)
    (hstop : ∀ c ∈ rest.head?, test c = false) : IsLongest p cs (cs ++ rest) := by
  refine ⟨hcs, List.prefix_append cs rest, ?_⟩
  intro other hother hbegins
  rcases List.prefix_or_prefix_of_prefix hbegins (List.prefix_append cs rest) with h | h
  · exact h.length_le
  · obtain ⟨more, rfl⟩ := h
    cases more with
    | nil => exact Nat.le_of_eq (congrArg List.length (List.append_nil cs))
    | cons c more =>
        -- a longer one would hold the character that stands behind `cs`
        have hpasses : test c = true :=
          List.all_eq_true.1 (hp _ hother) c (List.mem_append_right _ List.mem_cons_self)
        obtain ⟨after, hafter⟩ := (List.prefix_append_right_inj cs).1 hbegins
        have hfails : test c = false := hstop c (by rw [← hafter]; rfl)
        rw [hpasses] at hfails
        cases hfails

end LongestBeginning

/-- Name characters are ASCII, from the hyphen on. -/
theorem toNat_of_isNamePart {c : Char} (h : isNamePart c = true) :
    c.toNat = 45 ∨ (48 ≤ c.toNat ∧ c.toNat ≤ 122) := by
  have hclasses : isNamePart c =
      (decide (c.val ≥ 'A'.val ∧ c.val ≤ 'Z'.val) ||
        (decide (c.val ≥ 'a'.val) && decide (c.val ≤ 'z'.val)) ||
        (decide (c.val ≥ '0'.val) && decide (c.val ≤ '9'.val)) || c == '-') := rfl
  simp only [hclasses, Bool.or_eq_true, Bool.and_eq_true, decide_eq_true_eq, beq_iff_eq,
    ge_iff_le, UInt32.le_iff_toNat_le] at h
  rcases h with ((⟨h, h'⟩ | ⟨h, h'⟩) | ⟨h, h'⟩) | rfl
  · exact Or.inr ⟨Nat.le_trans (by decide) h, Nat.le_trans h' (by decide)⟩
  · exact Or.inr ⟨Nat.le_trans (by decide) h, Nat.le_trans h' (by decide)⟩
  · exact Or.inr ⟨Nat.le_trans (by decide) h, Nat.le_trans h' (by decide)⟩
  · exact Or.inl rfl

theorem isBlank_of_isNamePart {c : Char} (h : isNamePart c = true) : isBlank c = false := by
  have hrange := toNat_of_isNamePart h
  simp only [isBlank, blankRanges, List.any_cons, List.any_nil, Bool.or_false,
    Bool.or_eq_false_iff, decide_eq_false_iff_not]
  omega

namespace Grammar

open Scan (name?)

variable {cs rest name value : List Char} {v w : View}

/-! ## Names -/

theorem isName_cons {c : Char} (h : isName (c :: cs) = true) :
    isNameStart c = true ∧ cs.all isNamePart = true := by
  rwa [isName, Bool.and_eq_true] at h

theorem all_of_isName (h : isName name = true) : name.all isNamePart = true := by
  cases name with
  | nil => rfl
  | cons c cs =>
      obtain ⟨hc, hcs⟩ := isName_cons h
      rw [List.all_cons, isNamePart_of_isNameStart hc, hcs]
      rfl

theorem name?_append (hname : isName name = true)
    (hrest : ∀ c ∈ rest.head?, isNamePart c = false) :
    name? (name ++ rest) = some (name, rest) := by
  cases name with
  | nil => cases hname
  | cons c cs =>
      obtain ⟨hc, hcs⟩ := isName_cons hname
      rw [List.cons_append, name?, if_pos hc, takeWhile_append_of_stop hcs hrest,
        dropWhile_append_of_stop hcs hrest]

theorem name?_eq_some (h : name? cs = some (name, rest)) :
    isName name = true ∧ cs = name ++ rest ∧ ∀ c ∈ rest.head?, isNamePart c = false := by
  cases cs with
  | nil => cases h
  | cons c cs =>
      simp only [name?, Option.ite_none_right_eq_some, Option.some.injEq, Prod.mk.injEq] at h
      obtain ⟨hc, rfl, rfl⟩ := h
      refine ⟨?_, ?_, head?_dropWhile_eq_false isNamePart cs⟩
      · rw [isName, hc, Bool.true_and]
        exact List.all_takeWhile
      · rw [List.cons_append, List.takeWhile_append_dropWhile]

/-- No name begins where no letter stands. -/
theorem name?_eq_none (h : ∀ c ∈ cs.head?, isNamePart c = false) : name? cs = none := by
  cases cs with
  | nil => rfl
  | cons c cs =>
      have hc : isNameStart c = false := by
        cases hstart : isNameStart c with
        | false => rfl
        | true => rw [← isNamePart_of_isNameStart hstart, h c rfl]
      rw [name?, hc]
      rfl

/-- There is no name exactly where no beginning of the text is one. -/
theorem name?_eq_none_iff : name? cs = none ↔ ∀ name, isName name = true → ¬ name <+: cs := by
  constructor
  · intro hnone name hname hbegins
    cases name with
    | nil => cases hname
    | cons c name =>
        obtain ⟨more, rfl⟩ := hbegins
        rw [List.cons_append, name?, if_pos (isName_cons hname).1] at hnone
        cases hnone
  · intro hno
    cases cs with
    | nil => rfl
    | cons c cs =>
        -- a letter by itself would be a name
        have hc : ¬ isNameStart c = true := fun hc =>
          hno [c] (by rw [isName, hc]; rfl) (List.prefix_append [c] cs)
        rw [name?, if_neg hc]

theorem isLongest_name (hname : isName name = true)
    (hstop : ∀ c ∈ rest.head?, isNamePart c = false) :
    IsLongest (fun text => isName text = true) name (name ++ rest) :=
  isLongest_of_stop (fun _ hother => all_of_isName hother) hname hstop

/-- What is read as a name is the longest one at the front of the text. -/
theorem nameAt_eq_read_iff {x : String} :
    nameAt cs = .read x rest ↔
      cs = x.toList ++ rest ∧ IsLongest (fun text => isName text = true) x.toList cs := by
  constructor
  · intro h
    rw [nameAt] at h
    cases hname : name? cs with
    | none =>
        rw [hname] at h
        cases h
    | some found =>
        obtain ⟨name, after⟩ := found
        rw [hname] at h
        cases h
        obtain ⟨hisName, rfl, hstop⟩ := name?_eq_some hname
        rw [String.toList_ofList]
        exact ⟨rfl, isLongest_name hisName hstop⟩
  · rintro ⟨hcs, hlongest⟩
    cases hname : name? cs with
    | none => exact absurd hlongest.begins (name?_eq_none_iff.1 hname _ hlongest.holds)
    | some found =>
        obtain ⟨name, after⟩ := found
        obtain ⟨hisName, hafter, hstop⟩ := name?_eq_some hname
        have hsame : name = x.toList := by
          rw [hafter] at hlongest
          exact (isLongest_name hisName hstop).eq hlongest
        have hrest : after = rest := by
          rw [hafter, hsame] at hcs
          exact List.append_cancel_left hcs
        rw [nameAt, hname, hsame, hrest]
        show Piece.read (String.ofList x.toList) rest = .read x rest
        rw [String.ofList_toList]

/-- Where no name stands, the place is refused; at the end of the text it is the text that is
missing. -/
theorem nameAt_eq_stuck (h : ∀ name, isName name = true → ¬ name <+: cs) :
    nameAt cs = .stuck (causeAt .predicateMismatch cs) cs := by
  rw [nameAt, name?_eq_none_iff.2 h]

/-- The rule for names takes the longest name at the front of the text left. -/
theorem outcome_identifier_iff (hv : v.Valid) {x : String} :
    (identifier.run v).outcome = .ok (x, w) ↔
      v.Reaches w ∧ v.rest = x.toList ++ w.rest ∧
        IsLongest (fun text => isName text = true) x.toList v.rest := by
  rw [Parser.run, reads_identifier.outcome_eq_ok_iff _ hv, nameAt_eq_read_iff, and_comm]

theorem outcome_identifier_of_no_name (hv : v.Valid)
    (h : ∀ name, isName name = true → ¬ name <+: v.rest) :
    (identifier.run v).outcome =
      .error (.failed ⟨causeAt .predicateMismatch v.rest, v.offset⟩) := by
  rw [Parser.run, reads_identifier.outcome_of_stuck _ hv (nameAt_eq_stuck h), hv.upTo_self]

/-! ## Values -/

theorem isValue_iff : isValue cs = true ↔ '"' ∉ cs := by
  simp only [isValue, isValuePart, List.all_eq_true, bne_iff_ne]
  constructor
  · intro h hmem
    exact h '"' hmem rfl
  · rintro h c hc rfl
    exact h hc

theorem isLongest_value (hvalue : isValue value = true) (rest : List Char) :
    IsLongest (fun text => isValue text = true) value (value ++ '"' :: rest) :=
  isLongest_of_stop (fun _ hother => hother) hvalue (head?_cons_eq_false rfl rest)

/-- What is read as a value stands between two quotes and holds none. -/
theorem quotedAt_eq_read_iff {x : String} :
    quotedAt cs = .read x rest ↔ cs = '"' :: (x.toList ++ '"' :: rest) ∧ '"' ∉ x.toList := by
  rw [← isValue_iff]
  constructor
  · intro h
    cases cs with
    | nil => cases h
    | cons c cs =>
        rw [quotedAt, charAt] at h
        by_cases hc : c = '"'
        · rw [if_pos hc, Piece.andThen_read] at h
          have hcs : cs.takeWhile isValuePart ++ cs.dropWhile isValuePart = cs :=
            List.takeWhile_append_dropWhile
          cases hdrop : cs.dropWhile isValuePart with
          | nil =>
              rw [hdrop] at h
              cases h
          | cons d after =>
              have hd : d = '"' := eq_quote_of_dropWhile hdrop
              rw [hdrop, charAt, if_pos hd, Piece.andThen_read] at h
              cases h
              rw [hdrop, hd] at hcs
              rw [String.toList_ofList, hc, hcs]
              exact ⟨rfl, List.all_takeWhile⟩
        · rw [if_neg hc] at h
          cases h
  · rintro ⟨rfl, hvalue⟩
    have hstop : ∀ c ∈ ('"' :: rest).head?, isValuePart c = false := head?_cons_eq_false rfl rest
    rw [quotedAt, charAt, if_pos rfl, Piece.andThen_read,
      dropWhile_append_of_stop hvalue hstop, takeWhile_append_of_stop hvalue hstop, charAt,
      if_pos rfl, Piece.andThen_read, String.ofList_toList]

/-- A quote that no other one follows opens a value that has no end before that of the text. -/
theorem quotedAt_of_unclosed (h : '"' ∉ cs) :
    quotedAt ('"' :: cs) = .stuck .unexpectedEnd [] := by
  have hdrop : (cs ++ []).dropWhile isValuePart = [] :=
    dropWhile_append_of_stop (isValue_iff.2 h) nofun
  rw [List.append_nil] at hdrop
  rw [quotedAt, charAt, if_pos rfl, Piece.andThen_read, hdrop]
  rfl

/-- A value begins with a quote. -/
theorem quotedAt_of_no_quote (h : ∀ c ∈ cs.head?, c ≠ '"') :
    quotedAt cs = .stuck (causeAt (.literalMismatch "\"") cs) cs := by
  cases cs with
  | nil => rfl
  | cons c cs =>
      rw [quotedAt, charAt, if_neg (h c rfl)]
      rfl

/-- The rule for values takes what stands between a quote and the next one. -/
theorem outcome_quotedString_iff (hv : v.Valid) {x : String} :
    (quotedString.run v).outcome = .ok (x, w) ↔
      v.Reaches w ∧ v.rest = '"' :: (x.toList ++ '"' :: w.rest) ∧ '"' ∉ x.toList := by
  rw [Parser.run, reads_quotedString.outcome_eq_ok_iff _ hv, quotedAt_eq_read_iff, and_comm]

theorem outcome_quotedString_of_unclosed (hv : v.Valid) {text : List Char}
    (hrest : v.rest = '"' :: text) (h : '"' ∉ text) :
    (quotedString.run v).outcome =
      .error (.failed ⟨.unexpectedEnd, v.source.utf8ByteSize⟩) := by
  have hstuck : quotedAt v.rest = .stuck .unexpectedEnd [] := by
    rw [hrest]
    exact quotedAt_of_unclosed h
  rw [Parser.run, reads_quotedString.outcome_of_stuck _ hv hstuck]
  rfl

theorem outcome_quotedString_of_no_quote (hv : v.Valid) (h : ∀ c ∈ v.rest.head?, c ≠ '"') :
    (quotedString.run v).outcome =
      .error (.failed ⟨causeAt (.literalMismatch "\"") v.rest, v.offset⟩) := by
  rw [Parser.run, reads_quotedString.outcome_of_stuck _ hv (quotedAt_of_no_quote h), hv.upTo_self]

end Grammar

end TagTree
