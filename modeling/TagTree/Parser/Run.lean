import TagTree.Parser.Basic
import TagTree.Text.View

/-!
# Running a parser

`Parser.runWith rule p v` runs the description `p` at the view `v`. The run ends in an
`outcome`: a value with the view that is left, or the reason why there is none. Beside it stand
the `events` in the order in which they happened, which a failure does not take back.

The meaning of elements is a parameter: `rule` runs the rule for elements, and everything else is
said here once, by recursion on the description.

A run without a value has failed, for a cause that lies in the text, or it is broken. The two
defects stand for what a run may never do, step off a character boundary and go on for ever; a
proof that they do not occur says that it does not.
-/

set_option autoImplicit false

namespace TagTree

/-- What no text may bring about. -/
inductive Defect where
  /-- A step ended inside a character or beyond the end of the text. -/
  | offBoundary
  /-- The steps allowed were used up. -/
  | outOfFuel
deriving DecidableEq, Repr

/-- Why a run has no value. -/
inductive Stop where
  /-- The text does not match. -/
  | failed (failure : Failure)
  /-- The run went wrong, whatever the text. -/
  | broken (defect : Defect)
deriving DecidableEq, Repr

/-- What a run reports on its way. -/
inductive Event where
  /-- The closing tag of an element was read. -/
  | closed (closing : Closing)
  /-- A labelled parser starts at an offset. -/
  | entered (label : String) (start : Nat)
  /-- A labelled parser that started at `start` has succeeded and stops at `stop`. -/
  | succeeded (label : String) (start stop : Nat)
  /-- A labelled parser that started at `start` has no value. -/
  | stopped (label : String) (start : Nat) (reason : Stop)
deriving DecidableEq, Repr

/-- The course of a parser: what it reported, and how it ended. -/
structure Run (α : Type) where
  events : List Event
  outcome : Except Stop (α × View)

namespace Run

variable {α β : Type}

/-- End with a value. -/
def succeed (value : α) (rest : View) : Run α :=
  ⟨[], .ok (value, rest)⟩

/-- End without one. -/
def stop (reason : Stop) : Run α :=
  ⟨[], .error reason⟩

/-- Fail at a view. -/
def failAt (cause : Cause) (v : View) : Run α :=
  stop (.failed ⟨cause, v.offset⟩)

/-- Go `n` bytes forward and end with a value. -/
def advance (v : View) (n : Nat) (value : α) : Run α :=
  match v.advance? n with
  | some rest => succeed value rest
  | none => stop (.broken .offBoundary)

/-- What follows an earlier report. -/
def following (events : List Event) (r : Run α) : Run α :=
  { r with events := events ++ r.events }

/-- Go on after a success. -/
def andThen (r : Run α) (next : α → View → Run β) : Run β :=
  match r.outcome with
  | .ok (value, rest) => following r.events (next value rest)
  | .error reason => ⟨r.events, .error reason⟩

/-- Try something else after a failure that is not fatal. -/
def orElse (r : Run α) (second : Unit → Run α) : Run α :=
  match r.outcome with
  | .error (.failed failure) => if failure.isFatal then r else following r.events (second ())
  | _ => r

/-- Report once more at the end. -/
def reporting (r : Run α) (event : Except Stop (α × View) → Option Event) : Run α :=
  match event r.outcome with
  | some e => { r with events := r.events ++ [e] }
  | none => r

/-- Report under a label that the run starts at a view, and how it stops. -/
def probed (label : String) (v : View) (r : Run α) : Run α :=
  following [.entered label v.offset]
    (r.reporting fun
      | .ok (_, rest) => some (.succeeded label v.offset rest.offset)
      | .error reason => some (.stopped label v.offset reason))

@[simp] theorem outcome_succeed (value : α) (rest : View) :
    (succeed value rest).outcome = .ok (value, rest) := rfl

@[simp] theorem outcome_failAt (cause : Cause) (v : View) :
    (failAt cause v : Run α).outcome = .error (.failed ⟨cause, v.offset⟩) := rfl

@[simp] theorem outcome_following (events : List Event) (r : Run α) :
    (following events r).outcome = r.outcome := rfl

/-- A sequence ends as its second part does, or as its first part if that has no value. -/
theorem outcome_andThen (r : Run α) (next : α → View → Run β) :
    (r.andThen next).outcome =
      match r.outcome with
      | .ok (value, rest) => (next value rest).outcome
      | .error reason => .error reason := by
  unfold andThen
  split <;> simp_all

/-- A choice ends as its second part does exactly when the first part fails, but not fatally. -/
theorem outcome_orElse (r : Run α) (second : Unit → Run α) :
    (r.orElse second).outcome =
      match r.outcome with
      | .error (.failed failure) =>
        if failure.isFatal then .error (.failed failure) else (second ()).outcome
      | outcome => outcome := by
  unfold orElse
  split
  · split <;> simp_all
  · rfl

/-- Reporting does not change how a run ends. -/
@[simp] theorem outcome_reporting (r : Run α)
    (event : Except Stop (α × View) → Option Event) :
    (r.reporting event).outcome = r.outcome := by
  unfold reporting
  split <;> rfl

@[simp] theorem outcome_probed (label : String) (v : View) (r : Run α) :
    (r.probed label v).outcome = r.outcome := by
  simp [probed]

end Run

/-! ## Repetition -/

/-- Why a repetition went no further. -/
inductive ChainEnd where
  /-- The next attempt failed, not fatally. -/
  | gaveUp (failure : Failure)
  /-- The last item kept read nothing. -/
  | stalled
  /-- The next attempt ended in a way that nothing absorbs. -/
  | aborted (reason : Stop)
deriving DecidableEq, Repr

/-- A repetition of one parser: the items kept, what was reported, the view after the last item,
and why there was no further one. -/
structure Chain (α : Type) where
  items : List α
  events : List Event
  rest : View
  ending : ChainEnd

namespace Chain

variable {α β : Type}

/-- Run `item` from `v` until it stops or reads nothing, at most `fuel` times. The items and the
events so far are given in reverse. -/
def extend (item : View → Run α) : Nat → List α → List Event → View → Chain α
  | 0, items, events, v => ⟨items.reverse, events.reverse, v, .aborted (.broken .outOfFuel)⟩
  | fuel + 1, items, events, v =>
    let r := item v
    let events := r.events.reverseAux events
    match r.outcome with
    | .ok (value, rest) =>
      if rest.offset = v.offset then
        ⟨(value :: items).reverse, events.reverse, rest, .stalled⟩
      else
        extend item fuel (value :: items) events rest
    | .error (.failed failure) =>
      ⟨items.reverse, events.reverse, v,
        if failure.isFatal then .aborted (.failed failure) else .gaveUp failure⟩
    | .error reason => ⟨items.reverse, events.reverse, v, .aborted reason⟩

/-- Repeat `item` from `v`. Every item but the last reads at least a byte, so one attempt for
each byte left and one more are enough. -/
def of (item : View → Run α) (v : View) : Chain α :=
  extend item (v.remaining + 1) [] [] v

/-- The items and the events given stand before those of the repetition itself. -/
theorem extend_eq (item : View → Run α) (fuel : Nat) (items : List α) (events : List Event)
    (v : View) :
    extend item fuel items events v =
      let c := extend item fuel [] [] v
      { c with items := items.reverse ++ c.items, events := events.reverse ++ c.events } := by
  induction fuel generalizing items events v with
  | zero => simp [extend]
  | succ fuel ih =>
    simp only [extend]
    split
    · split
      · simp
      · rw [ih, ih [_]]
        simp
    · simp
    · simp

/-- Keep the items; the attempt that failed is given back. -/
def kept (c : Chain α) : Run (List α) :=
  ⟨c.events,
    match c.ending with
    | .aborted reason => .error reason
    | _ => .ok (c.items, c.rest)⟩

/-- Keep the items if `close` succeeds after them, and else report the deeper of the two
failures. A repetition that only a failure ends never gets past an item that reads nothing. -/
def closedBy (c : Chain α) (close : View → Run β) : Run (List α) :=
  match c.ending with
  | .aborted reason => ⟨c.events, .error reason⟩
  | .stalled => ⟨c.events, .error (.broken .outOfFuel)⟩
  | .gaveUp child =>
    let r := close c.rest
    Run.following c.events
      ⟨r.events,
        match r.outcome with
        | .ok (_, rest) => .ok (c.items, rest)
        | .error (.failed failure) => .error (.failed (child.deeper failure))
        | .error reason => .error reason⟩

end Chain

/-! ## The run of a description -/

namespace Parser

/-- Run `p` at a view, where `rule` runs the rule for elements. -/
def runWith (rule : ElementRule → View → Run Element) : {α : Type} → Parser α → View → Run α
  | _, .pure value, v => .succeed value v
  | _, .fail cause, v => .failAt cause v
  | _, .anyChar, v =>
    match v.rest with
    | [] => .failAt .unexpectedEnd v
    | c :: _ => .advance v c.utf8Size c
  | _, .literal text, v =>
    if text.toList.isPrefixOf v.rest then .advance v text.utf8ByteSize ()
    else if v.rest.isPrefixOf text.toList then .failAt .unexpectedEnd v
    else .failAt (.literalMismatch text) v
  | _, .endOfInput, v =>
    if v.rest.isEmpty then .succeed () v else .failAt .expectedEnd v
  | _, .andThen first next, v =>
    (first.runWith rule v).andThen fun value rest => (next value).runWith rule rest
  | _, .checked of objection, v =>
    (of.runWith rule v).andThen fun value rest =>
      match objection value with
      | none => .succeed value rest
      | some cause => .failAt cause v
  | _, .orElse first second, v =>
    (first.runWith rule v).orElse fun _ => second.runWith rule v
  | _, .many item, v => (Chain.of (item.runWith rule) v).kept
  | _, .element r, v => rule r v
  | _, .elementsThen r close, v => (Chain.of (rule r) v).closedBy (close.runWith rule)
  | _, .announce closing of, v =>
    (of.runWith rule v).reporting fun
      | .ok (value, _) => some (.closed (closing value))
      | .error _ => none
  | _, .probe label of, v => (of.runWith rule v).probed label v

end Parser

end TagTree
