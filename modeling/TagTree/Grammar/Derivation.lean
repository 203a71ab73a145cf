import TagTree.Element.Basic
import TagTree.Text.Blank
import TagTree.Text.Name

/-!
# Derivations

What the markup is, apart from how it is read: `Derives text e` says that the characters of
`text` are, by the rules of the grammar, the element `e`. Nothing here says where a rule stops or
which alternative comes first; a derivation may split a text in any way that fits.

```
document   ::= blank* element blank*
element    ::= "<" name attributes "/>"
             | "<" name attributes ">" element* "</" name ">"    with the same name twice
attributes ::= empty | blank+ attribute (blank* attribute)* blank*
attribute  ::= name "=" '"' value '"'
```
-/

set_option autoImplicit false

namespace TagTree

/-- Whether the characters are white space, all of them. -/
def isBlankText (cs : List Char) : Bool :=
  cs.all isBlank

namespace Grammar

/-- The text of an attribute. -/
def attributeText (name value : List Char) : List Char :=
  name ++ '=' :: '"' :: (value ++ ['"'])

/-- A text of attributes after a first one, each with white space before it or without. -/
inductive DerivesMore : List Char → List (String × String) → Prop where
  | done {blanks : List Char} (hblanks : isBlankText blanks = true) : DerivesMore blanks []
  | next {blanks name value text : List Char} {pairs : List (String × String)}
      (hblanks : isBlankText blanks = true) (hname : isName name = true)
      (hvalue : isValue value = true) (hmore : DerivesMore text pairs) :
      DerivesMore (blanks ++ attributeText name value ++ text)
        ((String.ofList name, String.ofList value) :: pairs)

/-- A text of attributes with the white space around them: nothing at all, or white space, an
attribute, and more. -/
inductive DerivesAttributes : List Char → List (String × String) → Prop where
  | none : DerivesAttributes [] []
  | some {blanks name value text : List Char} {pairs : List (String × String)}
      (hblanks : isBlankText blanks = true) (hne : blanks ≠ []) (hname : isName name = true)
      (hvalue : isValue value = true) (hmore : DerivesMore text pairs) :
      DerivesAttributes (blanks ++ attributeText name value ++ text)
        ((String.ofList name, String.ofList value) :: pairs)

mutual

/-- The text is this element. -/
inductive Derives : List Char → Element → Prop where
  | leaf {name attributes : List Char} {pairs : List (String × String)}
      (hname : isName name = true) (hattributes : DerivesAttributes attributes pairs) :
      Derives ('<' :: (name ++ attributes ++ ['/', '>']))
        ⟨String.ofList name, .ofList pairs, []⟩
  | parent {name attributes inside : List Char} {pairs : List (String × String)}
      {children : List Element} (hname : isName name = true)
      (hattributes : DerivesAttributes attributes pairs)
      (hchildren : DerivesAll inside children) :
      Derives ('<' :: (name ++ attributes ++ '>' :: (inside ++ '<' :: '/' :: (name ++ ['>']))))
        ⟨String.ofList name, .ofList pairs, children⟩

/-- The text is these elements, one after the other. -/
inductive DerivesAll : List Char → List Element → Prop where
  | nil : DerivesAll [] []
  | cons {text more : List Char} {e : Element} {es : List Element} (he : Derives text e)
      (hes : DerivesAll more es) : DerivesAll (text ++ more) (e :: es)

end

/-- The text is this element with white space around it. -/
def DerivesDocument (text : List Char) (e : Element) : Prop :=
  ∃ before inside after, isBlankText before = true ∧ Derives inside e ∧
    isBlankText after = true ∧ text = before ++ inside ++ after

end Grammar

end TagTree
