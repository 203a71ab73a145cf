/-!
# Names and values

Which characters spell the name of an element or of an attribute, and which a value. The markup
has no escapes, so these classes are all that decides what can be written in it.
-/

set_option autoImplicit false

namespace TagTree

/-- Whether `c` may begin a name: an ASCII letter. -/
def isNameStart (c : Char) : Bool :=
  c.isAlpha

/-- Whether `c` may go on in a name: an ASCII letter or digit, or a hyphen. -/
def isNamePart (c : Char) : Bool :=
  c.isAlphanum || c == '-'

/-- Whether `c` may stand in a value: anything but a double quote. -/
def isValuePart (c : Char) : Bool :=
  c != '"'

/-- Whether the characters spell a name. -/
def isName : List Char → Bool
  | [] => false
  | c :: cs => isNameStart c && cs.all isNamePart

/-- Whether the characters may stand between the quotes of a value. -/
def isValue (cs : List Char) : Bool :=
  cs.all isValuePart

/-- What may begin a name may also go on in one. -/
theorem isNamePart_of_isNameStart {c : Char} (h : isNameStart c = true) :
    isNamePart c = true := by
  simp_all [isNameStart, isNamePart, Char.isAlphanum]

end TagTree
