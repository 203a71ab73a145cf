import TagTree.Grammar.Tag
import TagTree.Parser.Run

/-!
# The rule for elements

An element is a tag by itself, or an opening tag, elements, and the closing tag of the same name.
`ElementRule.body` writes this with `Parser.element` for the elements inside, one level deeper,
and `ElementRule.within` ties the knot a given number of times.

The limit on nesting is tested right after the opening tag, before anything inside is read. Its
failure is fatal, so no alternative is tried after it.

`Parser.run` allows as many levels as the text left has bytes, and one more. Each level begins
with a tag of its own, so no text needs them all.
-/

set_option autoImplicit false

namespace TagTree

namespace ElementRule

/-- Fail, fatally, at a level below the limit. -/
def depthGuard (r : ElementRule) : Parser Unit :=
  match r.maxDepth with
  | some limit => if limit < r.depth then .fail (.nestingTooDeep limit) else .pure ()
  | none => .pure ()

/-- A tag that is a whole element, at a level that is allowed. -/
def leaf (r : ElementRule) : Parser Element := do
  let element ← Grammar.singleElement
  r.depthGuard
  return element

/-- An opening tag, at a level that is allowed. -/
def shell (r : ElementRule) : Parser Element := do
  let element ← Grammar.openElement
  r.depthGuard
  return element

/-- The children of the element named `name`, and its closing tag. -/
def childrenThenClose (r : ElementRule) (name : String) : Parser (List Element) :=
  if r.nestedErrors then
    .elementsThen r.child (Grammar.closeElement name)
  else do
    let children ← (Parser.element r.child).many
    let _ ← Grammar.closeElement name
    return children

/-- An opening tag, children and the closing tag, which is reported. -/
def parent (r : ElementRule) : Parser Element := do
  let shell ← r.shell
  let children ← (r.childrenThenClose shell.name).announce fun children =>
    ⟨shell.name, children.length, r.depth⟩
  return shell.withChildren children

/-- The rule for elements, in terms of itself one level deeper. -/
def body (r : ElementRule) : Parser Element :=
  r.leaf.orElse r.parent

/-- The rule unfolded `levels` times, over `base` for what lies deeper. -/
def within (base : ElementRule → View → Run Element) :
    Nat → ElementRule → View → Run Element
  | 0 => base
  | levels + 1 => fun r v => r.body.runWith (within base levels) v

/-- The rule unfolded `levels` times, and no more. -/
def runWithin (levels : Nat) : ElementRule → View → Run Element :=
  within (fun _ _ => .stop (.broken .outOfFuel)) levels

end ElementRule

namespace Parser

/-- Run a parser at a view. -/
def run {α : Type} (p : Parser α) (v : View) : Run α :=
  p.runWith (ElementRule.runWithin (v.remaining + 1)) v

end Parser

end TagTree
