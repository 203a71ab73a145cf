/-!
# Command lines

`Invocation.ofArguments?` reads the arguments of the program. There are two commands, `parse` and
`check`, each with a path; a path `-` means standard input. The switch `-v` may stand before the
command and after it, at most once on each side; the other options belong to their command. The
first fault makes the whole command line unusable, and what it was is not told apart.

Help is left out. A request for it, `--help`, `-h` or the command `help`, counts as a fault here,
so it is answered like one, with the usage on the error stream and the exit code 2, and not with a
help text on standard output and the code 0.
-/

set_option autoImplicit false

namespace TagTree.Cli

/-- How a tree is printed. -/
inductive Format where
  /-- An outline, one element on each line. -/
  | tree
  /-- Markup, on one line. -/
  | markup
  /-- An indented JSON object. -/
  | json
deriving DecidableEq, Repr

/-- The format of that name. -/
def Format.ofName? : String → Option Format
  | "tree" => some .tree
  | "markup" => some .markup
  | "json" => some .json
  | _ => none

/-- The commands. -/
inductive Command where
  | parse
  | check
deriving DecidableEq, Repr

/-- The command of that name. -/
def Command.ofName? : String → Option Command
  | "parse" => some .parse
  | "check" => some .check
  | _ => none

/-- What a command line asks for. -/
inductive Invocation where
  /-- Print the version. -/
  | version
  /-- Parse the text at a path and print its tree. -/
  | parse (path : String) (format : Format) (maxDepth : Option Nat) (verbose : Bool)
  /-- Tell whether the text at a path is a document. -/
  | check (path : String) (maxDepth : Option Nat) (verbose : Bool)
deriving DecidableEq, Repr

/-- A count: decimal digits, after a plus sign or none, of a number below 2^64. -/
def count? (text : String) : Option Nat :=
  let digits : List Char :=
    match text.toList with
    | '+' :: rest => rest
    | all => all
  let value : Nat := digits.foldl (fun n c => 10 * n + (c.toNat - '0'.toNat)) 0
  if digits ≠ [] ∧ digits.all Char.isDigit ∧ value < UInt64.size then some value else none

/-! ## Settings

What follows the command is a list of settings, each an option or a path. -/

/-- One option, or the path. -/
inductive Setting where
  | verbose
  | format (name : String)
  | maxDepth (text : String)
  | path (path : String)
deriving DecidableEq, Repr

/-- The long option that takes a value and has that name. -/
def Setting.long? (command : Command) (name value : String) : Option Setting :=
  match command, name with
  | .parse, "format" => some (.format value)
  | _, "max-depth" => some (.maxDepth value)
  | _, _ => none

/-- The settings in a group of short options, and whether the last of them, the format, waits
for its name. What follows the letter of the format is the name, less an equals sign. -/
def Setting.group? (command : Command) : List Char → Option (List Setting × Bool)
  | [] => some ([], false)
  | 'v' :: group => (group? command group).map fun read => (.verbose :: read.1, read.2)
  | 'f' :: group =>
    if command = .parse then
      match group with
      | [] => some ([], true)
      | '=' :: name => some ([.format (String.ofList name)], false)
      | name => some ([.format (String.ofList name)], false)
    else none
  | _ :: _ => none

/-- The settings after a command. Two hyphens end the options, and a hyphen alone is a path. -/
def Setting.list? (command : Command) : List String → Option (List Setting)
  | [] => some []
  | argument :: rest =>
    match argument.toList with
    | ['-', '-'] => some (rest.map .path)
    | '-' :: '-' :: long =>
      let name := String.ofList (long.takeWhile (· != '='))
      match long.dropWhile (· != '=') with
      | _ :: value => do
        let setting ← long? command name (String.ofList value)
        let settings ← list? command rest
        return setting :: settings
      | [] =>
        if name = "verbose" then (list? command rest).map (.verbose :: ·)
        else
          match rest with
          | [] => none
          | value :: rest => do
            let setting ← long? command name value
            let settings ← list? command rest
            return setting :: settings
    | '-' :: letter :: group =>
      match group? command (letter :: group), rest with
      | some (settings, false), rest => (list? command rest).map (settings ++ ·)
      | some (settings, true), name :: rest =>
        (list? command rest).map fun others => settings ++ .format name :: others
      | _, _ => none
    | _ => (list? command rest).map (.path argument :: ·)

/-! ## The command with its settings -/

/-- What the settings so far amount to. -/
structure Draft where
  verbose : Bool := false
  format : Option Format := none
  maxDepth : Option Nat := none
  path : Option String := none
deriving DecidableEq, Repr

namespace Draft

/-- Add a setting; each can be given once, and its value has to be one. -/
def add (d : Draft) : Setting → Option Draft
  | .verbose => if d.verbose then none else some { d with verbose := true }
  | .format name =>
    if d.format.isSome then none
    else (Format.ofName? name).map fun format => { d with format := some format }
  | .maxDepth text =>
    if d.maxDepth.isSome then none
    else (count? text).map fun limit => { d with maxDepth := some limit }
  | .path path => if d.path.isSome then none else some { d with path := some path }

/-- The command with all its settings: it needs a path, and the usual format is the outline. -/
def invocation? (d : Draft) (command : Command) (verbose : Bool) : Option Invocation :=
  d.path.map fun path =>
    match command with
    | .parse => .parse path (d.format.getD .tree) d.maxDepth (verbose || d.verbose)
    | .check => .check path d.maxDepth (verbose || d.verbose)

end Draft

/-! ## The whole command line -/

/-- Where a group of short options before the command leads. -/
inductive Lead where
  /-- To the version, whatever follows. -/
  | version
  /-- To the next argument, with the switch on or off. -/
  | onward (verbose : Bool)
deriving DecidableEq, Repr

/-- Read a group of short options before the command. -/
def Lead.group? (verbose : Bool) : List Char → Option Lead
  | [] => some (.onward verbose)
  | 'v' :: group => if verbose then none else group? true group
  | 'V' :: _ => some .version
  | _ :: _ => none

namespace Invocation

/-- Read the arguments, where the switch is already on or not. -/
def readFrom? (verbose : Bool) : List String → Option Invocation
  | [] => none
  | argument :: rest =>
    match argument, argument.toList with
    | "--verbose", _ => if verbose then none else readFrom? true rest
    | "--version", _ => some .version
    | _, '-' :: letter :: group =>
      match Lead.group? verbose (letter :: group) with
      | some .version => some .version
      | some (.onward verbose) => readFrom? verbose rest
      | none => none
    | name, _ => do
      let command ← Command.ofName? name
      let settings ← Setting.list? command rest
      let draft ← settings.foldlM Draft.add {}
      draft.invocation? command verbose

/-- Read the arguments of the program; `none` if they do not say what to do. -/
def ofArguments? (arguments : List String) : Option Invocation :=
  readFrom? false arguments

/-- The path that an invocation reads from. -/
def path? : Invocation → Option String
  | version => none
  | parse path _ _ _ => some path
  | check path _ _ => some path

end Invocation

end TagTree.Cli
