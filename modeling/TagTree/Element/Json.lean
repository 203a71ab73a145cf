import TagTree.Element.Basic
import TagTree.Json

/-!
# Elements as JSON

An element is an object with the keys `name`, `attributes` and `children`, in this order.
Attributes are an object of strings, in the order of their names, and children an array.
-/

set_option autoImplicit false

namespace TagTree

/-- Attributes as an object. -/
def Attributes.toJson (a : Attributes) : Json :=
  .object (a.entries.map fun entry => (entry.1, .string entry.2))

namespace Element

mutual

/-- An element as an object. -/
def toJson : Element → Json
  | ⟨name, attributes, children⟩ =>
    .object [("name", .string name), ("attributes", attributes.toJson),
      ("children", .array (allToJson children))]

/-- Elements one by one. -/
def allToJson : List Element → List Json
  | [] => []
  | c :: cs => c.toJson :: allToJson cs

end

end Element

end TagTree
