import BranchFusion.CommandLine.Command
import BranchFusion.CommandLine.Host
import BranchFusion.Config
import BranchFusion.Dot
import BranchFusion.Emulator
import BranchFusion.Optimizer

/-!
# The tool

What the commands do, on any host. A command that fails has one message, which is printed last on
the standard error. The command `opt` prints nothing and writes nothing until all its files have
been optimised; only the statistics are printed file by file.
-/

namespace BranchFusion

/-- Why a command fails. -/
inductive ToolError
  | unknownCommand (error : UnknownCommand)
  | flag (error : FlagError)
  | arity (error : Command.ArityError)
  | file (error : FileError)
  | config (path : String) (error : Config.Error)
  | invalidRounds (rounds : Int)
  | source (path : String) (error : Source.Error)
  | optimize (path : String) (error : OptimizeError)
  | pick (error : Module.PickError)
  /-- An argument of a function is no integer. -/
  | invalidArgument (arg : String)
  | emulation (error : EmulationError)
  /-- Programs have defects. -/
  | problems (count : Nat)
  | alreadyExists (path : String)

/-- The wording of an error. -/
def ToolError.message : ToolError → String
  | .unknownCommand e => e.message
  | .flag e => e.message
  | .arity e => e.message
  | .file e => e.message
  | .config p e => p ++ ": " ++ e.message
  | .invalidRounds n => "invalid --rounds: " ++ toString n
  | .source p e => p ++ ": " ++ e.message
  | .optimize p e => p ++ ": " ++ e.message
  | .pick e => e.message
  | .invalidArgument a => "invalid argument " ++ Text.quote a
  | .emulation e => e.message
  | .problems n => toString n ++ " problem(s) found"
  | .alreadyExists p => p ++ " already exists, use --force to overwrite it"

namespace Tool

variable {m : Type → Type} [Monad m] [Host m]

/-- What a command does: something on a host, or an error. -/
abbrev Action (m : Type → Type) (α : Type) := ExceptT ToolError m α

/-- Does something on the host. -/
def onHost {α : Type} (x : m α) : Action m α := ExceptT.lift x

/-- Turns an error of some kind into one of a command. -/
def orFail {ε α : Type} (wrap : ε → ToolError) (x : Except ε α) : Action m α :=
  match x with
  | .ok a => pure a
  | .error e => throw (wrap e)

/-! ### Input and output -/

/-- Reads a program. A single dash stands for the standard input. -/
def readSource (path : String) : Action m String := do
  if path = "-" then onHost Host.readInput
  else orFail .file (← onHost (Host.readFile path))

/-- Reads and parses a program. -/
def readModule (path : String) : Action m Module := do
  orFail (.source path) (Module.parse (← readSource path))

/-- Writes a result to a file, or prints it if there is no path. -/
def writeOutput (path content : String) : Action m Unit := do
  if path = "" then onHost (Host.putOut content)
  else orFail .file (← onHost (Host.writeFile path content))

/-! ### Options -/

/-- The name of the configuration file that is used if none is given. -/
def configFile : String := ".nestedifc.yaml"

/-- The options that a configuration file gives, in whatever form it is written. If no file is
given, the usual one is used where it exists. -/
def loadOptions (decode : Config.Decoder) (defaults : Options) (given : String) :
    Action m Options := do
  let usual ← if given = "" then onHost (Host.exists? configFile) else pure false
  let path := if usual then configFile else given
  if path = "" then return defaults
  let src ← orFail .file (← onHost (Host.readFile path))
  let settings ← orFail (.config path) (Config.parseWith decode src)
  return settings.apply defaults

/-- The settings that flags give; they override the configuration. -/
def flagSettings (a : Arguments) : Except ToolError Settings := do
  match a.integer? .rounds with
  | some n => if n < 0 then throw (.invalidRounds n)
  | none => pure ()
  return ⟨(a.values.get? .passes).map fun _ => a.text .passes, a.truth? .strict,
    a.integer? .rounds, a.truth? .verify⟩

/-! ### Optimising -/

/-- The statistics of a file: the counters, and the rejections in alphabetical order. -/
def statistics (file : String) (c : Counters) : String :=
  let count (n : Int) : String := toString (Counters.shown n)
  let reasons := (c.reasons.map fun e => (e.1.name, e.2)).mergeSort fun a b => decide (a.1 ≤ b.1)
  file ++ ":\n" ++ "  visited   " ++ count c.visited ++ "\n" ++
    "  combined  " ++ count c.combined ++ "\n" ++ "  stale     " ++ count c.stale ++ "\n" ++
    Text.join "" (reasons.map fun e => "  rejected  " ++ toString e.2 ++ " " ++ e.1 ++ "\n")

/-- Optimises files in order, up to the first error. The statistics of each are printed at once, and
its journal is noted. -/
def optimizeFiles (o : Options) (stats notes : Bool) : List String → Action m (List String)
  | [] => return []
  | file :: files => do
    let src ← readSource file
    let r := Optimizer.optimize .builtin o src
    if notes then r.journal.toList.forM fun e => onHost (Host.note e)
    let (text, _, counters) ← orFail (.optimize file) r.outcome
    if stats then onHost (Host.putErr (statistics file counters))
    return text :: (← optimizeFiles o stats notes files)

/-- **The command `opt`**: the optimised programs, with an empty line between them. -/
def runOpt (decode : Config.Decoder) (defaults : Options) (a : Arguments) : Action m Unit := do
  let o ← loadOptions decode defaults (a.text .config)
  let given ← orFail id (flagSettings a)
  let texts ← optimizeFiles (given.apply o) (a.isSet .stats) (a.isSet .debug) a.rest
  writeOutput (a.text .output) (Text.join "\n" texts)

/-! ### The other commands -/

/-- The problems of a program. -/
def problemsOf (file : String) : Action m (List String) := do
  let result ← onHost (readModule file).run
  match result with
  | .ok mod => return mod.funcs.flatMap Func.defectMessages
  | .error e => return [e.message]

/-- Verifies files in order, prints what is found, and counts the problems. -/
def verifyFiles : List String → Action m Nat
  | [] => return 0
  | file :: files => do
    let ps ← problemsOf file
    if ps.isEmpty then onHost (Host.putOut (file ++ ": ok\n"))
    else
      onHost (Host.putOut (file ++ ": FAIL\n"))
      ps.forM fun p => onHost (Host.putOut ("  " ++ p ++ "\n"))
    return ps.length + (← verifyFiles files)

/-- **The command `verify`.** -/
def runVerify (a : Arguments) : Action m Unit := do
  let n ← verifyFiles a.rest
  if n ≠ 0 then throw (.problems n)

/-- **The command `dot`.** -/
def runDot (a : Arguments) : Action m Unit := do
  let mod ← readModule (a.rest.headD "")
  let fn ← orFail .pick (mod.pick (a.text .func))
  writeOutput (a.text .output) fn.dot

/-- Integers with commas between them. -/
def integers (ws : List Int64) : String := Text.join ", " (ws.map decimal)

/-- Reads the arguments of a function. -/
def readWords : List String → Except ToolError (List Int64)
  | [] => return []
  | s :: ss =>
    match Text.Numeral.readWord s with
    | .ok w => do return w :: (← readWords ss)
    | .error _ => throw (.invalidArgument s)

/-- **The command `run`**: the calls, and then the results. -/
def runRun (a : Arguments) : Action m Unit := do
  let mod ← readModule (a.rest.headD "")
  let fn ← orFail .pick (mod.pick (a.text .func))
  let args ← orFail id (readWords (a.rest.drop 1))
  let limit := (a.integer? .steps).getD Emulator.defaultLimit
  let (results, trace) ←
    orFail (fun stop => .emulation stop.error) (Emulator.call fn Emulator.defaultHandler limit args)
  trace.toList.forM fun c =>
    onHost (Host.putOut ("call @" ++ c.callee ++ "(" ++ integers c.args ++ ")\n"))
  onHost (Host.putOut ("ret " ++ integers results ++ "\n"))

/-- **The command `init`**: writes the defaults to a configuration file. -/
def runInit (defaults : Options) (a : Arguments) : Action m Unit := do
  let given := a.text .config
  let path := if given = "" then configFile else given
  if (← onHost (Host.exists? path)) && !a.isSet .force then throw (.alreadyExists path)
  orFail .file (← onHost (Host.writeFile path (Config.render (.ofOptions defaults))))
  onHost (Host.putOut ("Configuration file created: " ++ path ++ "\n"))

/-! ### The whole tool -/

/-- What the tool prints when it is asked for help. -/
def usage : String :=
  "Usage:\n  " ++ toolName ++ " [command]\n\nAvailable Commands:\n" ++
    Text.join "" (Command.all.map fun c => "  " ++ c.name ++ "\n")

/-- Runs a command with arguments that have been read. -/
def runCommand (defaults : Options) (c : Command) (a : Arguments) : Action m Unit :=
  match c with
  | .opt => runOpt Config.decode defaults a
  | .verify => runVerify a
  | .dot => runDot a
  | .run => runRun a
  | .init => runInit defaults a

/-- Carries out what a command line asks for: flags are read first, then arguments are counted. -/
def serve (defaults : Options) (args : List String) : Action m Unit := do
  match ← orFail .unknownCommand (findCommand args) with
  | .help => onHost (Host.putOut usage)
  | .bare args =>
    let _ ← orFail .flag (readArguments (Command.commonFlags ++ [.help]) {} args)
    onHost (Host.putOut usage)
  | .command c args =>
    let a ← orFail .flag (readArguments c.flags {} args)
    if a.isSet .help then onHost (Host.putOut usage)
    else
      orFail .arity (c.checkArity a.rest.length)
      runCommand defaults c a

/-- **Runs the tool**, and tells whether it succeeded. -/
def run (defaults : Options) (args : List String) : m Bool := do
  match ← (serve defaults args).run with
  | .ok () => return true
  | .error e =>
    Host.putErr ("error: " ++ e.message ++ "\n")
    return false

/-- **Runs the tool in a world.** -/
def runIn (w : World) (defaults : Options) (args : List String) : Bool × World :=
  (run defaults args : StateM World Bool).run w

end Tool

end BranchFusion
