import TagTree.Failure
import TagTree.Element.Basic
import TagTree.Text.Blank

/-!
# Parsers

A `Parser α` describes how to read an `α` from the front of a text. It is a description only, a
term of an inductive type, so that laws about every parser are proved by induction on it; what
it does to a view is said by `Parser.runWith`.

Beside the primitives, choice, sequence and repetition there are two constructors for the one
recursive rule of the markup: `element`, which reads an element by a rule, and `elementsThen`,
which reads the elements inside another one up to its closing tag. They name the rule by its
settings, an `ElementRule`, and what that rule is stays open here.

Two constructors only report: `probe` tells each time a parser starts and stops, and `announce`
tells of an element closed.
-/

set_option autoImplicit false

namespace TagTree

/-- The settings of the rule for elements, at one level of nesting. -/
structure ElementRule where
  /-- The deepest level an element may have; `none` for any. -/
  maxDepth : Option Nat := none
  /-- Whether a failure inside an element may be reported in the stead of a missing closing
  tag. -/
  nestedErrors : Bool := false
  /-- The level of the element to read; the root has level 1. -/
  depth : Nat := 1
deriving DecidableEq, Repr

/-- The rule for the children of an element read by `r`. -/
def ElementRule.child (r : ElementRule) : ElementRule :=
  { r with depth := r.depth + 1 }

/-- A parent element whose closing tag has been read. -/
structure Closing where
  name : String
  /-- How many direct children the element has. -/
  children : Nat
  /-- Its level; the root has level 1. -/
  depth : Nat
deriving DecidableEq, Repr

/-- How to read a value from the front of a text. -/
inductive Parser : Type → Type 1 where
  /-- Yield a value and read nothing. -/
  | pure {α : Type} (value : α) : Parser α
  /-- Fail here. -/
  | fail {α : Type} (cause : Cause) : Parser α
  /-- Read any one character. -/
  | anyChar : Parser Char
  /-- Read exactly this text. -/
  | literal (text : String) : Parser Unit
  /-- Succeed at the end of the text only. -/
  | endOfInput : Parser Unit
  /-- Read with `first`, then go on with the parser that its value selects. -/
  | andThen {α β : Type} (first : Parser α) (next : α → Parser β) : Parser β
  /-- Read with `of`, then check its value. Where `objection` gives a cause, the parser fails of
  it at the place where it started. -/
  | checked {α : Type} (of : Parser α) (objection : α → Option Cause) : Parser α
  /-- Read with `first`; where that fails, but not fatally, read with `second` from the same
  place. -/
  | orElse {α : Type} (first second : Parser α) : Parser α
  /-- Read as often as `item` succeeds. An item that reads nothing is the last one. -/
  | many {α : Type} (item : Parser α) : Parser (List α)
  /-- Read an element by the rule. -/
  | element (rule : ElementRule) : Parser Element
  /-- Read elements by the rule as often as that succeeds, then read with `close`. Where `close`
  fails, report the failure that ended the elements if that one lies further on. -/
  | elementsThen (rule : ElementRule) (close : Parser String) : Parser (List Element)
  /-- Report the closing that belongs to the value, once it is read. -/
  | announce {α : Type} (closing : α → Closing) (of : Parser α) : Parser α
  /-- Report under a label that `of` starts, and how it stops. -/
  | probe {α : Type} (label : String) (of : Parser α) : Parser α

namespace Parser

instance : Monad Parser where
  pure := .pure
  bind := .andThen

/-! ## Derived parsers -/

/-- Read both, one after the other, and keep both values. -/
def pair {α β : Type} (first : Parser α) (second : Parser β) : Parser (α × β) := do
  let a ← first
  let b ← second
  return (a, b)

/-- Read a value that passes the test. -/
def satisfying {α : Type} (of : Parser α) (test : α → Bool) : Parser α :=
  of.checked fun value => if test value then none else some .predicateMismatch

/-- Read as often as `item` succeeds, which must be at least once. -/
def many1 {α : Type} (item : Parser α) : Parser (List α) :=
  item.many.checked fun items => if items.isEmpty then some .noAlternative else none

/-- Read exactly this character. -/
def char (c : Char) : Parser Char := do
  literal (String.singleton c)
  return c

/-- Read one character of white space. -/
def blank : Parser Char :=
  anyChar.satisfying isBlank

/-- Read as much white space as there is. -/
def blanks : Parser (List Char) :=
  blank.many

/-- Read as much white space as there is, which must be some. -/
def blanks1 : Parser (List Char) :=
  blank.many1

end Parser

end TagTree
