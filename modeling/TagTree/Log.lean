import TagTree.Document

/-!
# The log

What a program reports on its way is a list of log entries: a level, the part of the program that
speaks, a message, and named fields in a fixed order. A `Threshold` says which levels are shown.
-/

set_option autoImplicit false

namespace TagTree

/-- How urgent an entry is. -/
inductive LogLevel where
  | error
  | warn
  | info
  | debug
  | trace
deriving DecidableEq, Repr

namespace LogLevel

/-- Levels by decreasing urgency. -/
def rank : LogLevel → Nat
  | error => 1
  | warn => 2
  | info => 3
  | debug => 4
  | trace => 5

/-- How a level is written. -/
def name : LogLevel → String
  | error => "ERROR"
  | warn => "WARN"
  | info => "INFO"
  | debug => "DEBUG"
  | trace => "TRACE"

end LogLevel

/-- The least urgent level that is shown; `none` shows nothing. -/
abbrev Threshold := Option LogLevel

namespace Threshold

/-- Whether entries of a level are shown. -/
def shows (t : Threshold) (level : LogLevel) : Bool :=
  match t with
  | none => false
  | some least => level.rank ≤ least.rank

/-- The threshold of that name, in capital or small letters. -/
def ofName? (name : String) : Option Threshold :=
  match name.toLower with
  | "off" => some none
  | "error" => some (some .error)
  | "warn" => some (some .warn)
  | "info" => some (some .info)
  | "debug" => some (some .debug)
  | "trace" => some (some .trace)
  | _ => none

end Threshold

/-- A named value in a log entry. -/
structure LogField where
  name : String
  value : String
  /-- Whether a log line puts the value between quotes. -/
  quoted : Bool := false
deriving DecidableEq, Repr

/-- The field as a log line shows it. -/
def LogField.text (f : LogField) : String :=
  f.name ++ "=" ++ (if f.quoted then "\"" ++ f.value ++ "\"" else f.value)

/-- One report of the program. -/
structure LogEntry where
  level : LogLevel
  /-- The part of the program that speaks. -/
  target : String
  message : String
  fields : List LogField
deriving DecidableEq, Repr

/-- The line of an entry: level, target, message and fields. -/
def LogEntry.line (e : LogEntry) : String :=
  e.level.name ++ " " ++ e.target ++ ": " ++ e.message
    ++ String.join (e.fields.map fun f => " " ++ f.text)

/-- The limit on nesting as the log shows it. -/
def maxDepthText : Option Nat → String
  | none => "None"
  | some limit => "Some(" ++ toString limit ++ ")"

/-- The log entry for an event of the reading of a document. -/
def DocumentEvent.logEntry : DocumentEvent → LogEntry
  | started bytes maxDepth =>
    ⟨.debug, "xmlite_parser::parser", "parsing document",
      [⟨"bytes", toString bytes, false⟩, ⟨"max_depth", maxDepthText maxDepth, false⟩]⟩
  | closed closing =>
    ⟨.trace, "xmlite_parser::grammar", "closed parent element",
      [⟨"name", closing.name, true⟩, ⟨"children", toString closing.children, false⟩,
        ⟨"depth", toString closing.depth, false⟩]⟩
  | rejected why =>
    ⟨.debug, "xmlite_parser::parser", "document rejected",
      [⟨"kind", why.cause.message, false⟩, ⟨"line", toString why.position.line, false⟩,
        ⟨"column", toString why.position.column, false⟩]⟩

/-- The lines of the entries that a threshold shows. -/
def logLines (t : Threshold) (entries : List LogEntry) : List String :=
  (entries.filter fun e => t.shows e.level).map LogEntry.line

end TagTree
