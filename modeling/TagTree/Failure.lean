import TagTree.Text.Position

/-!
# Failures

A `Cause` says what went wrong, a `Failure` adds the byte offset where it did, and a `Rejection`
is a failure told to the author of a document, with line and column. Exceeding the nesting limit
is the one fatal cause: no choice and no repetition absorbs it.
-/

set_option autoImplicit false

namespace TagTree

/-- What a rule can fail of. -/
inductive Cause where
  /-- The text ended where more was needed. -/
  | unexpectedEnd
  /-- The text goes on with something else than `expected`. -/
  | literalMismatch (expected : String)
  /-- A value was read and then refused. -/
  | predicateMismatch
  /-- A repetition that needs one item found none. -/
  | noAlternative
  /-- The closing tag names `found`, but the open element is named `expected`. -/
  | tagMismatch (expected found : String)
  /-- The text goes on after the end of the document. -/
  | expectedEnd
  /-- An element lies below level `limit`. -/
  | nestingTooDeep (limit : Nat)
deriving DecidableEq, Repr

namespace Cause

/-- Whether the cause ends the whole parse, whatever alternatives are left. -/
def isFatal : Cause → Bool
  | nestingTooDeep _ => true
  | _ => false

/-- Whether the cause is a closing tag of the wrong name. -/
def isTagMismatch : Cause → Bool
  | tagMismatch _ _ => true
  | _ => false

/-- The wording of a cause; literals and names stand between grave accents. -/
def message : Cause → String
  | unexpectedEnd => "unexpected end of input"
  | literalMismatch expected => "expected `" ++ expected ++ "`"
  | predicateMismatch => "parsed value rejected by predicate"
  | noAlternative => "no alternative matched"
  | tagMismatch expected found =>
    "closing tag `" ++ found ++ "` does not match opening tag `" ++ expected ++ "`"
  | expectedEnd => "expected end of input"
  | nestingTooDeep limit => "elements nested deeper than " ++ toString limit ++ " levels"

end Cause

/-- A cause and the byte offset at which it arose. -/
structure Failure where
  cause : Cause
  offset : Nat
deriving DecidableEq, Repr

namespace Failure

/-- Whether the failure ends the whole parse. -/
def isFatal (f : Failure) : Bool :=
  f.cause.isFatal

/-- The one cause that ends the whole parse is a level too deep. -/
theorem isFatal_iff {f : Failure} :
    f.isFatal = true ↔ ∃ limit, f.cause = .nestingTooDeep limit := by
  unfold isFatal Cause.isFatal
  cases f.cause <;> simp

/-- The cause, then its byte offset. -/
def message (f : Failure) : String :=
  f.cause.message ++ " (at byte " ++ toString f.offset ++ ")"

/-- Of the failure that ended the children of an element and the failure of its closing tag, the
one to report: the child's if it lies further on, but never instead of a wrong name. -/
def deeper (child close : Failure) : Failure :=
  if close.cause.isTagMismatch = false ∧ close.offset < child.offset then child else close

end Failure

/-- Why a document is rejected: a failure with its place in lines and columns. -/
structure Rejection where
  cause : Cause
  offset : Nat
  position : Position
deriving DecidableEq, Repr

namespace Rejection

/-- The rejection of a text for a failure in it. -/
def ofFailure (source : String) (f : Failure) : Rejection :=
  ⟨f.cause, f.offset, Position.locate source f.offset⟩

/-- The line that tells an author what is wrong and where. -/
def message (r : Rejection) : String :=
  "Parse error at line " ++ toString r.position.line ++ ", column "
    ++ toString r.position.column ++ ": " ++ r.cause.message

end Rejection

end TagTree
