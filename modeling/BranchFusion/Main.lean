import BranchFusion.CommandLine.Tool
import BranchFusion.Environment
import BranchFusion.Text.Bytes

/-!
# The program

The tool on a real machine. What can be decided is decided in `BranchFusion.Tool`; here files are
read and written and texts are printed.
-/

namespace BranchFusion

/-- The cause that the machine reports, as far as the tool tells causes apart. -/
def FileCause.ofMachine : IO.Error → FileCause
  | .inappropriateType _ _ details =>
    if details = "not a directory" then .notDirectory else .isDirectory
  | .invalidArgument _ _ details =>
    if details = "name too long" then .nameTooLong else .invalid
  | _ => .notFound

/-- The error of a file that could not be read: a directory can be opened, but not read. -/
def FileError.ofRead (path : String) (e : IO.Error) : FileError :=
  let cause := FileCause.ofMachine e
  ⟨if cause = .isDirectory then "read" else "open", path, cause⟩

/-- The text of what was read. Any bytes are read: where they encode no text, each byte that belongs
to no character becomes a replacement character, and is printed as one if it stands in a name. -/
def textOfBytes (bytes : ByteArray) : String :=
  (String.fromUTF8? bytes).getD (Text.Bytes.shown ⟨bytes.data.toList⟩)

instance : Host IO where
  readFile path := do
    try return .ok (textOfBytes (← IO.FS.readBinFile path))
    catch e => return .error (.ofRead path e)
  exists? path := do
    try
      let _ ← IO.FS.Handle.mk path .read
      return true
    catch _ => return false
  writeFile path content := do
    try
      IO.FS.writeFile path content
      return .ok ()
    catch e => return .error ⟨"open", path, .ofMachine e⟩
  readInput := do return textOfBytes (← (← IO.getStdin).readBinToEnd)
  putOut s := do (← IO.getStdout).putStr s
  putErr s := do (← IO.getStderr).putStr s
  note e := do (← IO.getStderr).putStr (e.message ++ "\n")

/-- The variables that set defaults, as they are now. -/
def readEnvironment : IO (String → Option String) := do
  let names := ["NESTEDIF_PIPELINE", "NESTEDIF_MAX_ROUNDS", "NESTEDIF_STRICT"]
  let values ← names.mapM fun n => return (n, ← IO.getEnv n)
  return fun n => (values.find? fun e => e.1 = n).bind Prod.snd

end BranchFusion

open BranchFusion in
/-- Runs the tool on the arguments of the program. -/
def main (args : List String) : IO UInt32 := do
  match Environment.options (← readEnvironment) with
  | .error e =>
    (← IO.getStderr).putStr (e.message ++ "\n")
    return 2
  | .ok defaults => return if ← Tool.run defaults args then 0 else 1
