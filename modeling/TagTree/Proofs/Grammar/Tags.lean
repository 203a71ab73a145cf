import TagTree.Document.Scan
import TagTree.Grammar.Tag
import TagTree.Proofs.Parser.Piece

/-!
# What the rules for tags read

The function of each rule below the level of elements, in the words of the readers that the
one-pass machine uses: names are longest names, attributes are as many as there are, and what
follows them decides between a tag that is a whole element and one that opens an element
(`startTagAt`). The two start tags of the grammar are read by two parsers that differ in their
last two characters only; `startTagAt` is what trying one after the other comes to.
-/

set_option autoImplicit false

namespace TagTree

/-- The value of a piece and the text after it, if it has one. -/
def Piece.value? {α : Type} : Piece α → Option (α × List Char)
  | .read value rest => some (value, rest)
  | .stuck _ _ => none

@[simp] theorem Piece.value?_andThen {α β : Type} (piece : Piece α)
    (next : α → List Char → Piece β) :
    (piece.andThen next).value? = piece.value?.bind fun read => (next read.1 read.2).value? := by
  cases piece <;> rfl

namespace Grammar

open Scan (name? attribute? skipBlanks)

/-! ## Names and attributes -/

/-- A name. -/
def nameAt (cs : List Char) : Piece String :=
  match name? cs with
  | some (name, rest) => .read (String.ofList name) rest
  | none => .stuck (causeAt .predicateMismatch cs) cs

/-- A value between quotes. -/
def quotedAt (cs : List Char) : Piece String :=
  (charAt '"' cs).andThen fun _ cs =>
    (charAt '"' (cs.dropWhile isValuePart)).andThen fun _ rest =>
      .read (String.ofList (cs.takeWhile isValuePart)) rest

/-- An attribute. -/
def pairAt (cs : List Char) : Piece (String × String) :=
  (nameAt cs).andThen fun name cs =>
    (charAt '=' cs).andThen fun _ cs =>
      (quotedAt cs).andThen fun value rest => .read (name, value) rest

/-- An attribute with the white space around it. -/
def spacedPairAt (cs : List Char) : Piece (String × String) :=
  (pairAt (skipBlanks cs)).andThen fun pair rest => .read pair (skipBlanks rest)

theorem notFatal_nameAt (cs : List Char) : (nameAt cs).NotFatal := by
  rw [nameAt]
  split
  · trivial
  · exact isFatal_causeAt rfl cs

theorem notFatal_quotedAt (cs : List Char) : (quotedAt cs).NotFatal :=
  Piece.notFatal_andThen (notFatal_charAt _ _) fun _ _ =>
    Piece.notFatal_andThen (notFatal_charAt _ _) fun _ _ => trivial

theorem notFatal_pairAt (cs : List Char) : (pairAt cs).NotFatal :=
  Piece.notFatal_andThen (notFatal_nameAt _) fun _ _ =>
    Piece.notFatal_andThen (notFatal_charAt _ _) fun _ _ =>
      Piece.notFatal_andThen (notFatal_quotedAt _) fun _ _ => trivial

theorem notFatal_spacedPairAt (cs : List Char) : (spacedPairAt cs).NotFatal :=
  Piece.notFatal_andThen (notFatal_pairAt _) fun _ _ => trivial

theorem reads_identifier : identifier.Reads nameAt := by
  have hparts := (Parser.Reads.satisfying isNameStart).bind fun first =>
    (Parser.Reads.many_satisfying isNamePart).bind fun others =>
      Parser.Reads.pure (String.ofList (first :: others))
  refine hparts.congr fun cs => ?_
  cases cs with
  | nil => rfl
  | cons c cs =>
      rw [charWhere, nameAt, name?]
      cases isNameStart c <;> rfl

theorem reads_quotedString : quotedString.Reads quotedAt :=
  (Parser.Reads.char '"').bind fun _ =>
    (Parser.Reads.many_satisfying isValuePart).bind fun chars =>
      (Parser.Reads.char '"').bind fun _ => Parser.Reads.pure (String.ofList chars)

theorem reads_attributePair : attributePair.Reads pairAt :=
  reads_identifier.bind fun name =>
    (Parser.Reads.char '=').bind fun _ =>
      reads_quotedString.bind fun value => Parser.Reads.pure (name, value)

theorem reads_blanks :
    Parser.blanks.Reads fun cs => .read (cs.takeWhile isBlank) (skipBlanks cs) :=
  Parser.Reads.many_satisfying isBlank

theorem reads_spacedAttribute : spacedAttribute.Reads spacedPairAt :=
  reads_blanks.bind fun _ =>
    reads_attributePair.bind fun read =>
      reads_blanks.bind fun _ => Parser.Reads.pure read

/-- What ends a value is a quote, the one character that is no part of it. -/
theorem eq_quote_of_dropWhile {cs rest : List Char} {c : Char}
    (h : cs.dropWhile isValuePart = c :: rest) : c = '"' := by
  have hnot := List.head?_dropWhile_not isValuePart cs
  rw [h] at hnot
  simpa [isValuePart] using hnot

/-- A quoted value ends at the first quote behind it, if there is one. -/
theorem value?_quotedAt (cs : List Char) :
    (quotedAt ('"' :: cs)).value? =
      match cs.dropWhile isValuePart with
      | [] => none
      | _ :: after => some (String.ofList (cs.takeWhile isValuePart), after) := by
  rw [quotedAt, charAt, if_pos rfl, Piece.andThen_read]
  cases h : cs.dropWhile isValuePart with
  | nil => rfl
  | cons d after =>
      rw [charAt, if_pos (eq_quote_of_dropWhile h)]
      rfl

/-- An attribute is read exactly where the machine finds one. -/
theorem value?_pairAt (cs : List Char) : (pairAt cs).value? = attribute? cs := by
  rw [pairAt, nameAt, attribute?]
  cases hname : name? cs with
  | none => rfl
  | some found =>
      obtain ⟨name, rest⟩ := found
      rw [Piece.andThen_read]
      cases rest with
      | nil => rfl
      | cons d rest =>
          -- the machine looks at the two characters behind the name, the parser at one a time
          by_cases heq : d = '='
          · subst heq
            rw [charAt, if_pos rfl, Piece.andThen_read, Piece.value?_andThen]
            cases rest with
            | nil => rfl
            | cons d rest =>
                by_cases hquote : d = '"'
                · subst hquote
                  rw [value?_quotedAt]
                  cases hrest : rest.dropWhile isValuePart <;> simp [Piece.value?, hrest]
                · have hnone : (quotedAt (d :: rest)).value? = none := by
                    rw [quotedAt, charAt, if_neg hquote]
                    rfl
                  rw [hnone]
                  simp [hquote]
          · rw [charAt, if_neg heq, Piece.andThen_stuck]
            simp [heq, Piece.value?]

theorem value?_spacedPairAt (cs : List Char) :
    (spacedPairAt cs).value? =
      (attribute? (skipBlanks cs)).map fun read => (read.1, skipBlanks read.2) := by
  rw [spacedPairAt, Piece.value?_andThen, value?_pairAt]
  cases attribute? (skipBlanks cs) <;> rfl

/-- Behind an attribute there may be more of them. -/
theorem attributes_of_some {cs rest : List Char} {pair : String × String}
    (h : attribute? (skipBlanks cs) = some (pair, rest)) :
    Scan.attributes cs =
      (pair :: (Scan.attributes (skipBlanks rest)).1, (Scan.attributes (skipBlanks rest)).2) := by
  rw [Scan.attributes]
  split
  · rename_i pair' rest' h'
    rw [h] at h'
    cases h'
    rfl
  · rename_i h'
    rw [h] at h'
    cases h'

/-- Where there is no attribute nothing is read, white space neither. -/
theorem attributes_of_none {cs : List Char} (h : attribute? (skipBlanks cs) = none) :
    Scan.attributes cs = ([], cs) := by
  rw [Scan.attributes]
  split
  · rename_i pair rest h'
    rw [h] at h'
    cases h'
  · rfl

theorem reads_attributes :
    attributes.Reads fun cs =>
      .read (Attributes.ofList (Scan.attributes cs).1) (Scan.attributes cs).2 := by
  have hmany := reads_spacedAttribute.many (g := Scan.attributes)
    (fun cs pair rest h => by
      have hvalue := value?_spacedPairAt cs
      rw [h] at hvalue
      obtain ⟨⟨pair', after⟩, hread, hafter⟩ := Option.map_eq_some_iff.1 hvalue.symm
      cases hafter
      have hlt := Scan.length_attribute? hread
      have hblanks := Scan.length_skipBlanks cs
      have hblanks' := Scan.length_skipBlanks after
      refine ⟨?_, attributes_of_some hread⟩
      show (skipBlanks after).length < cs.length
      omega)
    (fun cs cause rest h => by
      have hvalue := value?_spacedPairAt cs
      have hfatal := notFatal_spacedPairAt cs
      rw [h] at hvalue hfatal
      exact ⟨hfatal, attributes_of_none (Option.map_eq_none_iff.1 hvalue.symm)⟩)
  exact hmany.bind fun pairs => Parser.Reads.pure (Attributes.ofList pairs)

/-! ## Tags -/

/-- A tag in the place of an element. -/
inductive StartTag where
  /-- The tag is the whole element. -/
  | whole (e : Element)
  /-- The tag opens the element, whose children are still to come. -/
  | opening (e : Element)

/-- The end of a start tag, whose name and attributes make up `e`. -/
def tagEndAt (e : Element) : List Char → Piece StartTag
  | '/' :: '>' :: rest => .read (.whole e) rest
  | '>' :: rest => .read (.opening e) rest
  | cs => .stuck (causeAt (.literalMismatch ">") cs) cs

/-- The name and the attributes of a start tag: the element that they make up, and the text from
the end of the tag on. -/
def shellAt (cs : List Char) : Piece Element :=
  (charAt '<' cs).andThen fun _ cs =>
    (nameAt cs).andThen fun name cs =>
      .read ⟨name, .ofList (Scan.attributes cs).1, []⟩ (Scan.attributes cs).2

/-- A start tag. -/
def startTagAt (cs : List Char) : Piece StartTag :=
  (shellAt cs).andThen tagEndAt

/-- A start tag that ends in the given text. -/
def startTagEndingAt (ending : String) (cs : List Char) : Piece Element :=
  (shellAt cs).andThen fun e cs => (literalAt ending cs).andThen fun _ rest => .read e rest

/-- A closing tag. -/
def closeTagAt (cs : List Char) : Piece String :=
  (literalAt "</" cs).andThen fun _ cs =>
    (nameAt cs).andThen fun name cs =>
      (charAt '>' cs).andThen fun _ rest => .read name rest

/-- The closing tag of an element of the given name. -/
def closeElementAt (expected : String) (cs : List Char) : Piece String :=
  (closeTagAt cs).checked
    (fun found => if found = expected then none else some (.tagMismatch expected found)) cs

theorem reads_startTag (ending : String) :
    (startTag ending).Reads (startTagEndingAt ending) := by
  have hstart : elementStart.Reads fun cs => (charAt '<' cs).andThen fun _ cs =>
      (nameAt cs).andThen fun name cs =>
        .read (name, .ofList (Scan.attributes cs).1) (Scan.attributes cs).2 :=
    (Parser.Reads.char '<').bind fun _ =>
      reads_identifier.bind fun name =>
        reads_attributes.bind fun read => Parser.Reads.pure (name, read)
  have hparts := hstart.bind fun start =>
    (Parser.Reads.literal ending).bind fun _ =>
      Parser.Reads.pure ((Element.ofName start.1).withAttributes start.2)
  refine hparts.congr fun cs => ?_
  rw [startTagEndingAt, shellAt]
  cases charAt '<' cs with
  | stuck cause rest => rfl
  | read c rest =>
      simp only [Piece.andThen_read]
      cases nameAt rest <;> rfl

theorem reads_closeElement (expected : String) :
    (closeElement expected).Reads (closeElementAt expected) := by
  have hclose : closeTag.Reads closeTagAt :=
    (Parser.Reads.literal "</").bind fun _ =>
      reads_identifier.bind fun name =>
        (Parser.Reads.char '>').bind fun _ => Parser.Reads.pure name
  exact hclose.checked _

/-- A closing tag fails, but never fatally. -/
theorem notFatal_closeElementAt (expected : String) (cs : List Char) :
    (closeElementAt expected cs).NotFatal := by
  have hclose : (closeTagAt cs).NotFatal :=
    Piece.notFatal_andThen (notFatal_literalAt _ _) fun _ _ =>
      Piece.notFatal_andThen (notFatal_nameAt _) fun _ _ =>
        Piece.notFatal_andThen (notFatal_charAt _ _) fun _ _ => trivial
  refine Piece.notFatal_checked hclose (fun found cause hcause => ?_) cs
  by_cases hfound : found = expected
  · rw [if_pos hfound] at hcause
    cases hcause
  · rw [if_neg hfound] at hcause
    cases hcause
    rfl

/-! ## The two start tags -/

/-- A literal is read where the text begins with it, and the rest of the text is left. -/
theorem eq_append_of_literalAt {text : String} {cs rest : List Char}
    (h : literalAt text cs = .read () rest) : cs = text.toList ++ rest := by
  rw [literalAt] at h
  split at h
  · rename_i hprefix
    obtain ⟨after, hafter⟩ := List.isPrefixOf_iff_prefix.1 hprefix
    simp only [Piece.read.injEq, true_and] at h
    rw [← hafter, List.drop_left] at h
    rw [← hafter, h]
  · split at h <;> cases h

/-- At the end of a start tag `/>` is tried first. Where it does not stand, `>` is read or the
tag is stuck for lack of it. -/
theorem tagEndAt_eq (e : Element) (cs : List Char) :
    tagEndAt e cs =
      match literalAt "/>" cs with
      | .read _ rest => .read (.whole e) rest
      | .stuck _ _ =>
        match literalAt ">" cs with
        | .read _ rest => .read (.opening e) rest
        | .stuck cause rest => .stuck cause rest := by
  fun_cases tagEndAt e cs with
  | case1 rest => rfl
  | case2 rest => rfl
  | case3 _ hwhole hopening =>
      -- neither ending stands there, so either literal is stuck
      have hnone : ∃ cause rest, literalAt "/>" cs = .stuck cause rest := by
        cases h : literalAt "/>" cs with
        | read _ rest => exact absurd (eq_append_of_literalAt h) (hwhole rest)
        | stuck cause rest => exact ⟨cause, rest, rfl⟩
      obtain ⟨cause, rest, hnone⟩ := hnone
      have hstuck : literalAt ">" cs = .stuck (causeAt (.literalMismatch ">") cs) cs := by
        cases cs with
        | nil => rfl
        | cons d ds =>
            have hd : d ≠ '>' := fun hd => hopening ds (by rw [hd])
            simp [literalAt, causeAt, List.isPrefixOf, hd, Ne.symm hd]
      rw [hnone, hstuck]

/-- Trying a tag that is a whole element and then one that opens an element reads what
`startTagAt` does. -/
theorem startTagAt_eq (cs : List Char) :
    startTagAt cs =
      match startTagEndingAt "/>" cs with
      | .read e rest => .read (.whole e) rest
      | .stuck _ _ =>
        match startTagEndingAt ">" cs with
        | .read e rest => .read (.opening e) rest
        | .stuck cause rest => .stuck cause rest := by
  rw [startTagAt, startTagEndingAt, startTagEndingAt]
  cases shellAt cs with
  | stuck cause rest => rfl
  | read e rest =>
      simp only [Piece.andThen_read, tagEndAt_eq]
      cases literalAt "/>" rest with
      | read _ after => rfl
      | stuck cause after =>
          cases literalAt ">" rest <;> rfl

theorem notFatal_shellAt (cs : List Char) : (shellAt cs).NotFatal :=
  Piece.notFatal_andThen (notFatal_charAt _ _) fun _ _ =>
    Piece.notFatal_andThen (notFatal_nameAt _) fun _ _ => trivial

theorem notFatal_tagEndAt (e : Element) (cs : List Char) : (tagEndAt e cs).NotFatal := by
  fun_cases tagEndAt e cs with
  | case1 rest => trivial
  | case2 rest => trivial
  | case3 => exact isFatal_causeAt rfl cs

/-- A start tag fails, but never fatally. -/
theorem notFatal_startTagAt (cs : List Char) : (startTagAt cs).NotFatal :=
  Piece.notFatal_andThen (notFatal_shellAt cs) notFatal_tagEndAt

theorem notFatal_startTagEndingAt (ending : String) (cs : List Char) :
    (startTagEndingAt ending cs).NotFatal :=
  Piece.notFatal_andThen (notFatal_shellAt cs) fun _ _ =>
    Piece.notFatal_andThen (notFatal_literalAt _ _) fun _ _ => trivial

end Grammar

end TagTree
