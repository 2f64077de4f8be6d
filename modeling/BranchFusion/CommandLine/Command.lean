import BranchFusion.CommandLine.Flag
import BranchFusion.Text.LowerCase

/-!
# Commands

The first argument that is neither a flag nor the value of one names the command; flags may stand
before it. An unknown name is refused, with the commands that may have been meant. Each command has
its flags and its number of arguments.
-/

namespace BranchFusion

/-- The commands. -/
inductive Command
  /-- Optimises programs. -/
  | opt
  /-- Verifies programs. -/
  | verify
  /-- Draws a function. -/
  | dot
  /-- Runs a function. -/
  | run
  /-- Writes a configuration file. -/
  | init
deriving DecidableEq, Repr, Inhabited

namespace Command

/-- All commands, in the order in which they are suggested. -/
def all : List Command := [.opt, .verify, .dot, .run, .init]

/-- The name of a command. -/
def name : Command → String
  | .opt => "opt"
  | .verify => "verify"
  | .dot => "dot"
  | .run => "run"
  | .init => "init"

/-- The command with a name. -/
def ofName? (s : String) : Option Command := all.find? fun c => c.name = s

/-- The flags that stand for the whole tool. -/
def commonFlags : List Flag := [.config, .debug]

/-- The flags of a command. -/
def flags : Command → List Flag
  | .opt => commonFlags ++ [.help, .passes, .strict, .rounds, .verify, .stats, .output]
  | .verify => commonFlags ++ [.help]
  | .dot => commonFlags ++ [.help, .func, .output]
  | .run => commonFlags ++ [.help, .func, .steps]
  | .init => commonFlags ++ [.help, .force]

/-- What is wrong with the number of arguments. -/
inductive ArityError
  | tooFew (least got : Nat)
  | notExactly (wanted got : Nat)
deriving DecidableEq, Repr

/-- The wording of an error. -/
def ArityError.message : ArityError → String
  | .tooFew n k =>
    "requires at least " ++ toString n ++ " arg(s), only received " ++ toString k
  | .notExactly n k => "accepts " ++ toString n ++ " arg(s), received " ++ toString k

/-- Checks the number of arguments of a command. -/
def checkArity (c : Command) (n : Nat) : Except ArityError Unit :=
  match c with
  | .init => .ok ()
  | .dot => if n = 1 then .ok () else .error (.notExactly 1 n)
  | _ => if 1 ≤ n then .ok () else .error (.tooFew 1 n)

theorem ofName?_name (c : Command) : ofName? c.name = some c := by
  cases c <;> decide

end Command

/-! ### Finding the command -/

/-- Whether an argument is a flag of the whole tool, or an unknown one, that has its value in the
next argument. -/
def takesNext (arg : String) : Bool :=
  if arg.toList.contains '=' then false
  else if Text.startsWith "--" arg then
    !Command.commonFlags.any fun f => ("--" ++ f.name) = arg && f.needsNoValue
  else Text.startsWith "-" arg && arg.utf8ByteSize = 2 &&
    !Command.commonFlags.any fun f =>
      f.letter? == (arg.toList.drop 1).head? && f.needsNoValue

/-- The first argument that is neither a flag nor the value of one. A value is only looked for where
two more arguments follow. -/
def firstWord? : List String → Option String
  | [] => none
  | arg :: args =>
    if arg = "--" then none
    else if takesNext arg then
      match args with
      | _ :: next :: rest => firstWord? (next :: rest)
      | _ => none
    else if arg ≠ "" ∧ !Text.startsWith "-" arg then some arg
    else firstWord? args

/-- The arguments without the first occurrence of a word that is not the value of a flag. -/
def withoutWord (word : String) : List String → List String
  | [] => []
  | arg :: args =>
    if arg = "--" then arg :: args
    else if takesNext arg then
      match args with
      | [] => [arg]
      | v :: rest => arg :: v :: withoutWord word rest
    else if arg = word then args
    else arg :: withoutWord word args

/-! ### Suggestions -/

/-- A row of the table of edit distances, from the row above it: `left` is the entry to the left of
the next one, and `corner` the one above that. -/
def distanceRow (c : Char) : (left corner : Nat) → List Char → List Nat → List Nat
  | left, corner, d :: ds, above :: row =>
    let here := if c = d then corner else min (min above left) corner + 1
    here :: distanceRow c here above ds row
  | _, _, _, _ => []

/-- The edit distance of two texts, as rows for the longer and longer beginnings of the first. -/
def distanceFrom (t : List Char) : List Nat → List Char → Nat
  | row, [] => row.getLast?.getD 0
  | row, c :: cs =>
    let first := row.headD 0
    distanceFrom t ((first + 1) :: distanceRow c (first + 1) first t (row.drop 1)) cs

/-- **The edit distance**: how many characters have to be inserted, removed or replaced. -/
def editDistance (s t : List Char) : Nat :=
  distanceFrom t (List.range (t.length + 1)) s

/-- What could have been meant by a name: the commands that begin with it or are at most two edits
of bytes away, whatever the case. -/
def suggestions (typed : String) : List String :=
  let lowered := Text.bytes (String.ofList (typed.toList.map Text.lowerCase))
  (Command.all.map Command.name ++ ["completion"]).filter fun n =>
    editDistance lowered n.toList ≤ 2 || lowered.isPrefixOf n.toList

/-- What a command line asks for. -/
inductive Request
  | command (c : Command) (args : List String)
  /-- No command, but perhaps flags. -/
  | bare (args : List String)
  /-- Help on the tool. -/
  | help
deriving DecidableEq, Repr

/-- The name of the tool. -/
def toolName : String := "nestedifc"

/-- A command that there is not. -/
structure UnknownCommand where
  name : String
deriving DecidableEq, Repr

/-- The wording of the refusal. -/
def UnknownCommand.message (e : UnknownCommand) : String :=
  "unknown command " ++ Text.quote e.name ++ " for " ++ Text.quote toolName ++
    (match suggestions e.name with
      | [] => ""
      | ns => "\n\nDid you mean this?\n" ++ Text.join "" (ns.map fun n => "\t" ++ n ++ "\n"))

/-- **Finds the command** of a command line. -/
def findCommand (args : List String) : Except UnknownCommand Request :=
  match firstWord? args with
  | none => .ok (.bare args)
  | some w =>
    match Command.ofName? w with
    | some c => .ok (.command c (withoutWord w args))
    | none => if w = "help" ∨ w = "completion" then .ok .help else .error ⟨w⟩

end BranchFusion
