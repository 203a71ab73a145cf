import TagTree.Element.Attributes

/-!
# Elements

An `Element` has a name, attributes and the elements inside it, its children, in the order of
the document. Elements are plain values: every operation here answers a new element and leaves
the one it starts from as it was. Equality is decidable, so trees can be compared.
-/

set_option autoImplicit false

namespace TagTree

/-- A tree of named, attributed nodes. -/
structure Element where
  name : String
  attributes : Attributes
  children : List Element
deriving Inhabited

namespace Element

/-- The element of that name, without attributes and children. -/
def ofName (name : String) : Element :=
  ⟨name, ∅, []⟩

/-- The element with one attribute written. -/
def withAttribute (e : Element) (name value : String) : Element :=
  { e with attributes := e.attributes.insert name value }

/-- The element with other attributes in the stead of all its own. -/
def withAttributes (e : Element) (attributes : Attributes) : Element :=
  { e with attributes }

/-- The element with one more child, after the others. -/
def withChild (e child : Element) : Element :=
  { e with children := e.children ++ [child] }

/-- The element with other children in the stead of all its own. -/
def withChildren (e : Element) (children : List Element) : Element :=
  { e with children }

/-- The first direct child of that name. -/
def child? (e : Element) (name : String) : Option Element :=
  e.children.find? fun c => c.name == name

/-- Whether the element has no children, so that it is written as one tag. -/
def isSelfClosing (e : Element) : Bool :=
  e.children.isEmpty

/-! ## Equality -/

mutual

/-- Whether two elements agree in name, attributes and children. -/
def agrees : Element → Element → Bool
  | ⟨name, attributes, children⟩, ⟨name', attributes', children'⟩ =>
    name == name' && decide (attributes = attributes') && allAgree children children'

/-- Whether two lists of elements agree one by one. -/
def allAgree : List Element → List Element → Bool
  | [], [] => true
  | [], _ :: _ => false
  | _ :: _, [] => false
  | c :: cs, d :: ds => c.agrees d && allAgree cs ds

end

mutual

theorem agrees_iff : (e d : Element) → (e.agrees d = true ↔ e = d)
  | ⟨name, attributes, children⟩, ⟨name', attributes', children'⟩ => by
    simp [agrees, allAgree_iff children children', and_assoc]

theorem allAgree_iff : (cs ds : List Element) → (allAgree cs ds = true ↔ cs = ds)
  | [], [] => by simp [allAgree]
  | [], _ :: _ => by simp [allAgree]
  | _ :: _, [] => by simp [allAgree]
  | c :: cs, d :: ds => by simp [allAgree, agrees_iff c d, allAgree_iff cs ds]

end

instance : DecidableEq Element := fun e d =>
  decidable_of_iff (e.agrees d = true) (agrees_iff e d)

end Element

end TagTree
