import TagTree.Document
import TagTree.Element.Json

/-!
# The interface for a host language

Two functions on texts for a program that embeds the parser: `Host.parse` answers the tree as a
plain object, `Host.check` only whether there is one. Numbers that cross the border are words of
32 bits; limits, lines and columns are. A function that cannot answer throws a message. `version`
is what a host that asks for it is told, and the command line as well.

The object is a value of the host with `name`, `attributes` and `children`. There the attributes
are a map from names to values; here they are the fields of an object, in the same order. Turning
the tree into a value of the host is taken to succeed always, so `Host.parse` throws for a
rejected text only.
-/

set_option autoImplicit false

namespace TagTree

/-- The version that every front end names. -/
def version : String := "0.3.0"

/-- What went wrong in a run, in words. -/
def Defect.message : Defect → String
  | offBoundary => "internal error: the parser left the text"
  | outOfFuel => "internal error: the parser did not come to an end"

namespace Host

/-- The verdict on a text, with a limit on nesting or without one. -/
def read (source : String) (maxDepth : Option UInt32) : Verdict :=
  Document.parse (maxDepth.map UInt32.toNat) source

/-- The tree of a document as an object, or the message of its rejection. -/
def parse (source : String) (maxDepth : Option UInt32) : Except String Json :=
  match read source maxDepth with
  | .accepted root => .ok root.toJson
  | .rejected why => .error why.message
  | .broken defect => .error defect.message

/-- Whether a text is a document, and if not, what is wrong with it and where. -/
inductive Report where
  | ok
  | notOk (message : String) (line column : UInt32)
deriving DecidableEq

/-- The report on a text. -/
def check (source : String) (maxDepth : Option UInt32) : Except String Report :=
  match read source maxDepth with
  | .accepted _ => .ok .ok
  | .rejected why =>
    .ok (.notOk why.cause.message why.position.line.toUInt32 why.position.column.toUInt32)
  | .broken defect => .error defect.message

end Host

end TagTree
