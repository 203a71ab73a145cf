import TagTree.Element.Shape

/-!
# Walking through a tree

`Element.descendants` lists the elements below an element in the order of the document. It keeps
a stack of the elements still to visit, so its own depth does not grow with the tree's; each step
takes one element off the stack, which makes the stack's total size smaller.
-/

set_option autoImplicit false

namespace TagTree

namespace Element

/-- Take the elements off the stack one by one, each giving way to its children. The elements
visited so far are given in reverse. -/
def visit (visited : List Element) : List Element → List Element
  | [] => visited.reverse
  | e :: stack => visit (e :: visited) (e.children ++ stack)
termination_by stack => totalSize stack
decreasing_by
  simp only [totalSize_append, totalSize_cons, size_eq]
  omega

/-- The elements below an element, each before the elements inside it. -/
def descendants (e : Element) : List Element :=
  visit [] e.children

end Element

end TagTree
