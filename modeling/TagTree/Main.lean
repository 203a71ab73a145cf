import TagTree.Cli.Program

/-!
# The command line

The outer layer of the program: it reads what the arguments name and prints the answer.
-/

set_option autoImplicit false

namespace TagTree.Cli

/-- What a path names in the file system. Code 21 is the system's for a directory; a path that
goes on below a file has the same kind of error, but names nothing. -/
def fileState (path : String) : IO FileState := do
  try
    return .content (← IO.FS.readBinFile path)
  catch
    | .noFileOrDirectory _ _ _ => return .missing
    | .inappropriateType _ code _ => return if code == 21 then .directory else .missing
    | error => return .unreadable (toString error)

/-- Read standard input to its end. -/
partial def readAll (input : IO.FS.Stream) (read : ByteArray) : IO ByteArray := do
  let bytes ← input.read 65536
  if bytes.isEmpty then return read else readAll input (read ++ bytes)

/-- What the program is given to answer its arguments. -/
def environment (arguments : List String) : IO Environment := do
  let logLevel ← IO.getEnv "RUST_LOG"
  match (Invocation.ofArguments? arguments).bind Invocation.path? with
  | none => return ⟨.empty, fun _ => .missing, logLevel⟩
  | some "-" => return ⟨← readAll (← IO.getStdin) .empty, fun _ => .missing, logLevel⟩
  | some path =>
    let state ← fileState path
    return ⟨.empty, fun _ => state, logLevel⟩

end TagTree.Cli

/-- Answer the arguments. -/
def main (arguments : List String) : IO UInt32 := do
  let response := TagTree.Cli.respond (← TagTree.Cli.environment arguments) arguments
  IO.eprint response.stderr
  IO.print response.stdout
  return response.exit.toUInt32
