/-!
# JSON texts

The part of JSON that trees are written in: strings, arrays and objects whose keys keep their
order. A value is written by one printer in one of two layouts, on one line or indented by two
spaces a level.
-/

set_option autoImplicit false

namespace TagTree

/-- A JSON value made of strings, arrays and objects. -/
inductive Json where
  | string (text : String)
  | array (items : List Json)
  | object (fields : List (String × Json))

namespace Json

/-! ## Strings -/

/-- The digits of the code point of a control character, four and in lower case. -/
def hexEscape (c : Char) : String :=
  let digits := Nat.toDigits 16 c.toNat
  "\\u" ++ String.ofList (List.replicate (4 - digits.length) '0' ++ digits)

/-- A character inside a string. Quotes, backslashes and the control characters below the space
are escaped, by a letter where there is one; every other character stands for itself. -/
def escape (c : Char) : String :=
  if c = '"' then "\\\""
  else if c = '\\' then "\\\\"
  else if c = '\x08' then "\\b"
  else if c = '\t' then "\\t"
  else if c = '\n' then "\\n"
  else if c = '\x0c' then "\\f"
  else if c = '\r' then "\\r"
  else if c.toNat < 0x20 then hexEscape c
  else String.singleton c

/-- A string with its quotes. -/
def quote (text : String) : String :=
  "\"" ++ String.join (text.toList.map escape) ++ "\""

/-! ## Values -/

/-- How values are laid out. -/
structure Layout where
  /-- What stands before an item at a depth, and before the bracket that closes that depth. -/
  lineBreak : Nat → String
  /-- What stands between a key and its value. -/
  colon : String

/-- Everything on one line, without spaces. -/
def Layout.compact : Layout :=
  ⟨fun _ => "", ":"⟩

/-- Every item on a line of its own, two spaces deeper than what it is in. -/
def Layout.indented : Layout :=
  ⟨fun depth => "\n" ++ String.ofList (List.replicate (2 * depth) ' '), ": "⟩

mutual

/-- The text of a value that lies `depth` levels deep. -/
def write (layout : Layout) : Nat → Json → String
  | _, .string text => quote text
  | depth, .array items =>
    if items.isEmpty then "[]"
    else writeItems layout (depth + 1) "[" "" items ++ layout.lineBreak depth ++ "]"
  | depth, .object fields =>
    if fields.isEmpty then "\x7b\x7d"
    else writeFields layout (depth + 1) "\x7b" "" fields ++ layout.lineBreak depth ++ "\x7d"

/-- The items of an array after `out`, with `comma` before the first of them. -/
def writeItems (layout : Layout) : Nat → String → String → List Json → String
  | _, out, _, [] => out
  | depth, out, comma, item :: items =>
    writeItems layout depth (out ++ comma ++ layout.lineBreak depth ++ write layout depth item)
      "," items

/-- The fields of an object after `out`, with `comma` before the first of them. -/
def writeFields (layout : Layout) : Nat → String → String → List (String × Json) → String
  | _, out, _, [] => out
  | depth, out, comma, (key, value) :: fields =>
    writeFields layout depth
      (out ++ comma ++ layout.lineBreak depth ++ quote key ++ layout.colon
        ++ write layout depth value)
      "," fields

end

/-- The text on one line. -/
def compact (j : Json) : String :=
  j.write .compact 0

/-- The text over several lines. -/
def pretty (j : Json) : String :=
  j.write .indented 0

end Json

end TagTree
