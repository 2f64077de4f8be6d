import BranchFusion.Table
import BranchFusion.Text.Bytes
import BranchFusion.Text.Quoted
import BranchFusion.Text.Truth

/-!
# Flags

A flag is given by its name after two dashes, or by a letter after one dash. Its value follows after
an equals sign or as the next argument; for a letter also at once. A flag that is a truth value
needs no value, and takes one only after an equals sign. Flags and other arguments may be mixed, up
to an argument of two dashes, after which there are no flags. Of two values for one flag the later
counts.
-/

namespace BranchFusion

/-- The flags. -/
inductive Flag
  | config
  | debug
  | help
  | passes
  | strict
  | rounds
  | verify
  | stats
  | output
  | func
  | steps
  | force
deriving DecidableEq, Repr, Inhabited

/-- What kind of value a flag takes. -/
inductive FlagKind
  | text
  | integer
  | truth
deriving DecidableEq, Repr, Inhabited

/-- A value of a flag. -/
inductive FlagValue
  | text (s : String)
  | integer (n : Int)
  | truth (b : Bool)
deriving DecidableEq, Repr, Inhabited

namespace Flag

/-- The name of a flag. -/
def name : Flag → String
  | .config => "config"
  | .debug => "debug"
  | .help => "help"
  | .passes => "passes"
  | .strict => "strict"
  | .rounds => "rounds"
  | .verify => "verify"
  | .stats => "stats"
  | .output => "output"
  | .func => "func"
  | .steps => "steps"
  | .force => "force"

/-- The letter of a flag. -/
def letter? : Flag → Option Char
  | .output => some 'o'
  | .help => some 'h'
  | _ => none

/-- What kind of value a flag takes. -/
def kind : Flag → FlagKind
  | .config => .text
  | .passes => .text
  | .output => .text
  | .func => .text
  | .rounds => .integer
  | .steps => .integer
  | _ => .truth

/-- Whether a flag is complete without a value. -/
def needsNoValue (f : Flag) : Bool := f.kind = .truth

/-- A flag as it is shown: its letter and its name. -/
def shown (f : Flag) : String :=
  match f.letter? with
  | some c => String.ofList ['-', c] ++ ", --" ++ f.name
  | none => "--" ++ f.name

end Flag

/-- What is wrong with flags. -/
inductive FlagError
  | badSyntax (arg : String)
  | unknown (name : String)
  /-- No flag has this letter; the letters from there on are given. -/
  | unknownLetter (letter : Char) (letters : String)
  | missingValue (arg : String)
  | missingLetterValue (letter : Char) (letters : String)
  /-- The value cannot be read; the reader that failed is named. -/
  | invalidValue (flag : Flag) (value reader : String) (fault : Text.Numeral.Fault)
deriving DecidableEq, Repr

/-- The wording of an error. -/
def FlagError.message : FlagError → String
  | .badSyntax a => "bad flag syntax: " ++ a
  | .unknown n => "unknown flag: --" ++ n
  | .unknownLetter c ls => "unknown shorthand flag: " ++ Text.quoteChar c ++ " in -" ++ ls
  | .missingValue a => "flag needs an argument: " ++ a
  | .missingLetterValue c ls => "flag needs an argument: " ++ Text.quoteChar c ++ " in -" ++ ls
  | .invalidValue f v reader fault =>
    "invalid argument " ++ Text.quote v ++ " for " ++ Text.quote f.shown ++ " flag: " ++ reader ++
      ": parsing " ++ Text.quote v ++ ": " ++ fault.message

/-- Reads the value of a flag. -/
def Flag.read (f : Flag) (v : String) : Except FlagError FlagValue :=
  match f.kind with
  | .text => .ok (.text v)
  | .integer =>
    match Text.Numeral.readSigned v.toList with
    | .ok n => .ok (.integer n)
    | .error e => .error (.invalidValue f v "strconv.ParseInt" e)
  | .truth =>
    match Text.readTruth v with
    | .ok b => .ok (.truth b)
    | .error e => .error (.invalidValue f v "strconv.ParseBool" e)

/-- The result of reading arguments: the values of the flags, and the other arguments. -/
structure Arguments where
  values : Table Flag FlagValue := []
  rest : List String := []
deriving DecidableEq, Repr, Inhabited

namespace Arguments

/-- The text of a flag; the empty text if it is not given. -/
def text (a : Arguments) (f : Flag) : String :=
  match a.values.get? f with
  | some (.text s) => s
  | _ => ""

/-- The integer of a flag, if it is given. -/
def integer? (a : Arguments) (f : Flag) : Option Int :=
  match a.values.get? f with
  | some (.integer n) => some n
  | _ => none

/-- The truth value of a flag, if it is given. -/
def truth? (a : Arguments) (f : Flag) : Option Bool :=
  match a.values.get? f with
  | some (.truth b) => some b
  | _ => none

/-- Whether a flag is given as true. -/
def isSet (a : Arguments) (f : Flag) : Bool := (a.truth? f).getD false

end Arguments

/-- What reading a flag needs of the arguments after it: nothing, or the next one. -/
inductive Demand
  | none
  | next
deriving DecidableEq, Repr

/-- Reads an argument of two dashes and a name, before an argument that may be its value. -/
def readLong (flags : List Flag) (arg : String) (next : Option String) :
    Except FlagError ((Flag × FlagValue) × Demand) :=
  let body := arg.toList.drop 2
  let name := String.ofList (body.takeWhile (· != '='))
  if body.isEmpty || body.head? == some '-' || body.head? == some '=' then .error (.badSyntax arg)
  else match flags.find? fun f => f.name = name with
    | none => .error (.unknown name)
    | some f =>
      match body.dropWhile (· != '=') with
      | _ :: v => do return ((f, ← f.read (String.ofList v)), .none)
      | [] =>
        if f.needsNoValue then .ok ((f, .truth true), .none)
        else match next with
          | some v => do return ((f, ← f.read v), .next)
          | none => .error (.missingValue arg)

/-- Reads the letters of an argument of one dash, before an argument that may be a value. A flag
that takes a value takes what is left of the letters. -/
def readLetters (flags : List Flag) (next : Option String) :
    List Char → Except FlagError (List (Flag × FlagValue) × Demand)
  | [] => .ok ([], .none)
  | c :: cs =>
    match flags.find? fun f => f.letter? = some c with
    | none =>
      let letters := String.ofList (c :: cs)
      .error (.unknownLetter ((Text.bytes letters).headD c) letters)
    | some f =>
      match cs with
      | '=' :: v :: vs => do return ([(f, ← f.read (String.ofList (v :: vs)))], .none)
      | cs =>
        if f.needsNoValue then do
          let (values, demand) ← readLetters flags next cs
          return ((f, .truth true) :: values, demand)
        else match cs, next with
          | v :: vs, _ => do return ([(f, ← f.read (String.ofList (v :: vs)))], .none)
          | [], some v => do return ([(f, ← f.read v)], .next)
          | [], none => .error (.missingLetterValue c (String.ofList [c]))

/-- Reads the flags of an argument that begins with a dash. -/
def readFlags (flags : List Flag) (arg : String) (next : Option String) :
    Except FlagError (List (Flag × FlagValue) × Demand) :=
  if Text.startsWith "--" arg then do
    let (e, demand) ← readLong flags arg next
    return ([e], demand)
  else if Text.startsWith "-test." arg then .ok ([], .none)
  else readLetters flags next (arg.toList.drop 1)

/-- Whether an argument holds flags: it begins with a dash and is not a dash alone. -/
def isFlagArg (arg : String) : Bool :=
  Text.startsWith "-" arg && arg != "-"

/-- **Reads arguments**, onto those that have been read. -/
def readArguments (flags : List Flag) : Arguments → List String → Except FlagError Arguments
  | a, [] => .ok a
  | a, arg :: args =>
    if !isFlagArg arg then readArguments flags { a with rest := a.rest ++ [arg] } args
    else if arg = "--" then .ok { a with rest := a.rest ++ args }
    else match readFlags flags arg args.head? with
      | .error e => .error e
      | .ok (values, demand) =>
        let a := { a with values := values.foldl (fun t e => t.set e.1 e.2) a.values }
        match demand, args with
        | .next, _ :: args => readArguments flags a args
        | _, args => readArguments flags a args

end BranchFusion
