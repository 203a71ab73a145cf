import TagTree.Parser.Basic
import TagTree.Text.Name

/-!
# Names, attributes and tags

The rules of the markup below the level of elements:

* a name is an ASCII letter, then ASCII letters, digits and hyphens;
* a value stands between double quotes and holds any character but a double quote;
* an attribute is a name, an equals sign and a value;
* a tag is `<name …/>`, `<name …>` or `</name>`, the first two with any number of attributes that
  white space may stand before and after.

Each rule takes as much text as it can. White space that no attribute follows is given back, so
it may not stand between a bare name and the end of its tag.
-/

set_option autoImplicit false

namespace TagTree

namespace Grammar

open TagTree.Parser

/-- A name. -/
def identifier : Parser String := do
  let first ← anyChar.satisfying isNameStart
  let others ← (anyChar.satisfying isNamePart).many
  return String.ofList (first :: others)

/-- A value with its quotes; what it yields is the text between them. -/
def quotedString : Parser String := do
  let _ ← char '"'
  let chars ← (anyChar.satisfying isValuePart).many
  let _ ← char '"'
  return String.ofList chars

/-- One attribute. -/
def attributePair : Parser (String × String) := do
  let name ← identifier
  let _ ← char '='
  let value ← quotedString
  return (name, value)

/-- One attribute and the white space around it. -/
def spacedAttribute : Parser (String × String) := do
  let _ ← blanks
  let read ← attributePair
  let _ ← blanks
  return read

/-- Attributes as long as there are any. Of two with the same name the later one decides. -/
def attributes : Parser Attributes := do
  let pairs ← spacedAttribute.many
  return Attributes.ofList pairs

/-- The name and the attributes of a tag that opens an element, with the sign before them. -/
def elementStart : Parser (String × Attributes) := do
  let _ ← char '<'
  pair identifier attributes

/-- A start tag that ends in `ending`: the element of its name and attributes. -/
def startTag (ending : String) : Parser Element := do
  let start ← elementStart
  literal ending
  return (Element.ofName start.1).withAttributes start.2

/-- A tag that is a whole element. -/
def singleElement : Parser Element :=
  startTag "/>"

/-- A tag that opens an element, whose children are still to come. -/
def openElement : Parser Element :=
  startTag ">"

/-- A closing tag of any name. -/
def closeTag : Parser String := do
  literal "</"
  let name ← identifier
  let _ ← char '>'
  return name

/-- The closing tag of an element named `expected`. -/
def closeElement (expected : String) : Parser String :=
  closeTag.checked fun found =>
    if found = expected then none else some (.tagMismatch expected found)

end Grammar

end TagTree
