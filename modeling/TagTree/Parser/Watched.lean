import TagTree.Grammar.Element

/-!
# Watched parsers

A run tells of a parser only where a `probe` stands. `Parser.watched` puts one around every part
of a description, and `Parser.watchedRun` runs the result over the rule for elements with all its
parts watched as well. The events of this run are an account of every invocation that there is:
where each one starts and how it stops, in the order in which this happens.

The label of a part says what kind of parser it is. A part that is a probe already keeps its own.
-/

set_option autoImplicit false

namespace TagTree

namespace Parser

/-- The parser with a probe around each of its parts, and one around itself. -/
def watched : {α : Type} → Parser α → Parser α
  | _, .pure value => .probe "value" (.pure value)
  | _, .fail cause => .probe "failure" (.fail cause)
  | _, .anyChar => .probe "character" .anyChar
  | _, .literal text => .probe "literal" (.literal text)
  | _, .endOfInput => .probe "end" .endOfInput
  | _, .andThen first next =>
    .probe "sequence" (.andThen first.watched fun value => (next value).watched)
  | _, .checked of objection => .probe "check" (.checked of.watched objection)
  | _, .orElse first second => .probe "choice" (.orElse first.watched second.watched)
  | _, .many item => .probe "repetition" (.many item.watched)
  | _, .element rule => .probe "element" (.element rule)
  | _, .elementsThen rule close => .probe "elements" (.elementsThen rule close.watched)
  | _, .announce closing of => .probe "report" (.announce closing of.watched)
  | _, .probe label of => .probe label of.watched

/-- The labels of the parts that can fail for a cause of their own choice: a failure, and a check,
which refuses a value. -/
def raisers : List String :=
  ["failure", "check"]

end Parser

/-- The rule for elements unfolded `levels` times, with all its parts watched. -/
def ElementRule.watchedWithin : Nat → ElementRule → View → Run Element
  | 0 => fun _ _ => .stop (.broken .outOfFuel)
  | levels + 1 => fun r v => r.body.watched.runWith (watchedWithin levels) v

/-- The run of a parser, with an account of every invocation in it. -/
def Parser.watchedRun {α : Type} (p : Parser α) (v : View) : Run α :=
  p.watched.runWith (ElementRule.watchedWithin (v.remaining + 1)) v

end TagTree
