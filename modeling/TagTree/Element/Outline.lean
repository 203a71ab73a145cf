import TagTree.Element.Markup
import TagTree.Element.Traversal

/-!
# Outlines

The outline of an element shows its shape: a line for every element, its name and attributes,
indented by two spaces for each level below the root. Like `Element.descendants` it is written
from a stack, here of elements with their levels.
-/

set_option autoImplicit false

namespace TagTree

namespace Element

/-- The line of an element `depth` levels below the root. -/
def outlineLine (e : Element) (depth : Nat) : String :=
  String.ofList (List.replicate (2 * depth) ' ') ++ e.name ++ e.attributes.markup ++ "\n"

/-- Each of the elements with the depth at which they all lie. -/
def atDepth (depth : Nat) (cs : List Element) : List (Element × Nat) :=
  cs.map fun c => (c, depth)

@[simp] theorem map_fst_atDepth (depth : Nat) (cs : List Element) :
    (atDepth depth cs).map Prod.fst = cs := by
  simp [atDepth, Function.comp_def]

/-- Take the elements off the stack one by one, write their lines after `out`, and put their
children in their place, one level deeper. -/
def outlineAfter (out : String) : List (Element × Nat) → String
  | [] => out
  | (e, depth) :: stack =>
    outlineAfter (out ++ e.outlineLine depth) (atDepth (depth + 1) e.children ++ stack)
termination_by stack => totalSize (stack.map Prod.fst)
decreasing_by
  simp only [List.map_append, map_fst_atDepth, List.map_cons, totalSize_append, totalSize_cons,
    size_eq]
  omega

/-- The outline of a tree. -/
def outline (e : Element) : String :=
  outlineAfter "" [(e, 0)]

end Element

end TagTree
