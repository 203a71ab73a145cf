import TagTree.Grammar.Element

/-!
# Documents

A document is one element with white space around it. `Document.read` reads a whole text as one
and tells the course of the reading: that it started, each parent element as its closing tag was
read, and, if so, that the text was rejected, with the place in lines and columns.
-/

set_option autoImplicit false

namespace TagTree

/-- A whole text that is one element, with white space around it. -/
def Grammar.document (maxDepth : Option Nat) : Parser Element := do
  let _ ← Parser.blanks
  let root ← Parser.element { maxDepth, nestedErrors := true }
  let _ ← Parser.blanks
  Parser.endOfInput
  return root

/-- What a text is as a document. -/
inductive Verdict where
  /-- A document, with the element it holds. -/
  | accepted (root : Element)
  /-- Not a document. -/
  | rejected (why : Rejection)
  /-- The reading itself went wrong, which no text brings about. -/
  | broken (defect : Defect)
deriving DecidableEq

/-- What the reading of a document reports. -/
inductive DocumentEvent where
  /-- It starts, on a text of so many bytes and with a limit on nesting or none. -/
  | started (bytes : Nat) (maxDepth : Option Nat)
  /-- The closing tag of an element was read. -/
  | closed (closing : Closing)
  /-- The text is rejected. -/
  | rejected (why : Rejection)
deriving DecidableEq, Repr

/-- The course of a reading and its result. -/
structure Reading where
  events : List DocumentEvent
  verdict : Verdict
deriving DecidableEq

namespace Document

/-- The verdict on a text for the outcome of running the rule of a document on it. -/
def verdictOf (source : String) : Except Stop (Element × View) → Verdict
  | .ok (root, _) => .accepted root
  | .error (.failed failure) => .rejected (.ofFailure source failure)
  | .error (.broken defect) => .broken defect

/-- The closing tags among the events of a run. -/
def closings (events : List Event) : List DocumentEvent :=
  events.filterMap fun
    | .closed closing => some (.closed closing)
    | _ => none

/-- The last report, which only a rejected document has. -/
def ending : Verdict → List DocumentEvent
  | .rejected why => [.rejected why]
  | .accepted _ => []
  | .broken _ => []

/-- Read a text as a document whose elements are nested at most `maxDepth` levels deep. -/
def read (maxDepth : Option Nat) (source : String) : Reading :=
  let run := (Grammar.document maxDepth).run (View.ofSource source)
  let verdict := verdictOf source run.outcome
  ⟨.started source.utf8ByteSize maxDepth :: closings run.events ++ ending verdict, verdict⟩

/-- What a text is as a document. -/
def parse (maxDepth : Option Nat) (source : String) : Verdict :=
  (read maxDepth source).verdict

end Document

end TagTree
