import TagTree.Element.Basic

/-!
# The shape of a tree

How many elements a tree has, how many levels, and the order in which a document writes them,
each by recursion on the tree.
-/

set_option autoImplicit false

namespace TagTree

namespace Element

/-! ## Size -/

mutual

/-- How many elements a tree has, its root included. -/
def size : Element → Nat
  | ⟨_, _, children⟩ => totalSize children + 1

/-- How many elements the trees have together. -/
def totalSize : List Element → Nat
  | [] => 0
  | c :: cs => c.size + totalSize cs

end

@[simp] theorem totalSize_nil : totalSize [] = 0 := rfl

@[simp] theorem totalSize_cons (c : Element) (cs : List Element) :
    totalSize (c :: cs) = c.size + totalSize cs := rfl

@[simp] theorem totalSize_append (cs ds : List Element) :
    totalSize (cs ++ ds) = totalSize cs + totalSize ds := by
  induction cs with
  | nil => simp
  | cons c cs ih => simp [ih, Nat.add_assoc]

theorem size_eq (e : Element) : e.size = totalSize e.children + 1 := by
  cases e
  rfl

/-! ## Height -/

mutual

/-- How many levels a tree has; a root alone has one. -/
def height : Element → Nat
  | ⟨_, _, children⟩ => maxHeight children + 1

/-- The height of the highest of the trees, or 0 if there are none. -/
def maxHeight : List Element → Nat
  | [] => 0
  | c :: cs => max c.height (maxHeight cs)

end

/-! ## Order -/

mutual

/-- The elements of a tree in the order of their opening tags: the root, then the elements below
it, child by child. -/
def preorder : Element → List Element
  | ⟨name, attributes, children⟩ => ⟨name, attributes, children⟩ :: preorderAll children

/-- The elements of the trees, tree by tree. -/
def preorderAll : List Element → List Element
  | [] => []
  | c :: cs => c.preorder ++ preorderAll cs

end

end Element

end TagTree
