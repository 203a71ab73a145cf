import TagTree.Cli.Arguments
import TagTree.Element.Json
import TagTree.Element.Outline
import TagTree.Host
import TagTree.Log
import TagTree.Text.Lines

/-!
# The command line program

`Cli.respond` says what the program answers to its arguments: an exit code, what it prints, and
the messages it writes to the error stream. It is a function of what the program is given, its
standard input, the files that paths name, and the log level of its environment. The code is 0
for a document, 1 for anything that is not one or cannot be read, and 2 for arguments that do not
say what to do.
-/

set_option autoImplicit false

namespace TagTree.Cli

/-- What a path names. -/
inductive FileState where
  /-- Nothing. -/
  | missing
  /-- Something that cannot be read, for a reason in the operating system's words. -/
  | unreadable (reason : String)
  /-- A file of these bytes. -/
  | content (bytes : ByteArray)

/-- What a path to a directory names. -/
def FileState.directory : FileState :=
  .unreadable "Is a directory (os error 21)"

/-- What the program is given beside its arguments. -/
structure Environment where
  /-- The bytes on standard input. -/
  stdin : ByteArray
  /-- What each path names. -/
  files : String → FileState
  /-- The setting of the log, if there is one. Only the bare name of a level counts
  (`Threshold.ofName?`). What a log filter can say beside that, directives for single parts of the
  program such as `xmlite_parser=debug`, numbers and the empty text, is left out: a setting like
  that is as good as none, and the switch decides. -/
  logLevel : Option String

/-- What the program answers. -/
structure Response where
  exit : Nat
  stdout : String
  /-- What is written to the error stream, message by message. -/
  messages : List String
deriving DecidableEq, Repr

namespace Response

/-- The text on the error stream: a line feed follows each message. -/
def stderr (r : Response) : String :=
  String.join (r.messages.map (· ++ "\n"))

/-- The lines on the error stream. A message is one line, unless it quotes a path that is not. -/
def errorLines (r : Response) : List String :=
  textLines r.stderr

end Response

/-! ## The text to read -/

/-- The text that bytes spell, or why they spell none. -/
def decode (bytes : ByteArray) : Except String String :=
  match String.fromUTF8? bytes with
  | some text => .ok text
  | none => .error "stream did not contain valid UTF-8"

/-- The text at a path, or the message that says why there is none. -/
def Environment.text (env : Environment) (path : String) : Except String String :=
  if path = "-" then (decode env.stdin).mapError ("Error reading stdin: " ++ ·)
  else
    let unreadable (reason : String) := "Error reading " ++ path ++ ": " ++ reason
    match env.files path with
    | .missing => .error ("Error: file not found: " ++ path)
    | .unreadable reason => .error (unreadable reason)
    | .content bytes => (decode bytes).mapError unreadable

/-! ## Log -/

/-- What the log shows: what the environment says, if that is the name of a level, and else
warnings, or debug entries too where the switch is on. -/
def threshold (logLevel : Option String) (verbose : Bool) : Threshold :=
  (logLevel.bind Threshold.ofName?).getD (some (if verbose then .debug else .warn))

/-- The entry that says that a document is fine. -/
def documentOk (root : Element) : LogEntry :=
  ⟨.info, "xmlite", "document ok", [⟨"elements", toString (root.descendants.length + 1), false⟩]⟩

/-! ## Commands -/

/-- The text of a tree in a format. -/
def Format.print : Format → Element → String
  | tree, root => root.outline
  | markup, root => root.markup ++ "\n"
  | json, root => root.toJson.pretty ++ "\n"

/-- Read the text at a path as a document and go on with its tree. What goes wrong is told in one
message after the log. -/
def withDocument (env : Environment) (path : String) (maxDepth : Option Nat) (shown : Threshold)
    (onward : Element → Response) : Response :=
  match env.text path with
  | .error message => ⟨1, "", [message]⟩
  | .ok source =>
    let reading := Document.read maxDepth source
    let log := logLines shown (reading.events.map DocumentEvent.logEntry)
    match reading.verdict with
    | .accepted root =>
      let response := onward root
      { response with messages := log ++ response.messages }
    | .rejected why => ⟨1, "", log ++ [why.message]⟩
    | .broken defect => ⟨1, "", log ++ [defect.message]⟩

/-- What the program answers to an invocation. -/
def Invocation.respond (env : Environment) : Invocation → Response
  | version => ⟨0, "xmlite " ++ TagTree.version ++ "\n", []⟩
  | parse path format maxDepth verbose =>
    withDocument env path maxDepth (threshold env.logLevel verbose) fun root =>
      ⟨0, format.print root, []⟩
  | check path maxDepth verbose =>
    let shown := threshold env.logLevel verbose
    withDocument env path maxDepth shown fun root =>
      ⟨0, "", logLines shown [documentOk root] ++ ["OK: " ++ path]⟩

/-- What the program answers to arguments that do not say what to do. -/
def usage : Response :=
  ⟨2, "",
    ["Usage: xmlite [-v] parse PATH [-v] [-f tree|markup|json] [--max-depth N]",
      "       xmlite [-v] check PATH [-v] [--max-depth N]",
      "       xmlite -V"]⟩

/-- What the program answers to its arguments. -/
def respond (env : Environment) (arguments : List String) : Response :=
  match Invocation.ofArguments? arguments with
  | some invocation => invocation.respond env
  | none => usage

end TagTree.Cli
