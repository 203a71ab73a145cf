import TagTree.Element.Basic
import TagTree.Text.Name

/-!
# Well-formed elements

An element is well formed if all its names are names and no value holds a double quote, at every
level. Elements built by hand need not be; those read from a text are.
-/

set_option autoImplicit false

namespace TagTree

/-- Whether every name is a name and every value a value. -/
def Attributes.isWellFormed (a : Attributes) : Bool :=
  a.entries.all fun entry => isName entry.1.toList && isValue entry.2.toList

namespace Element

mutual

/-- Whether a tree is well formed at every level. -/
def isWellFormed : Element → Bool
  | ⟨name, attributes, children⟩ =>
    isName name.toList && attributes.isWellFormed && allWellFormed children

/-- Whether all the trees are well formed. -/
def allWellFormed : List Element → Bool
  | [] => true
  | c :: cs => c.isWellFormed && allWellFormed cs

end

end Element

end TagTree
