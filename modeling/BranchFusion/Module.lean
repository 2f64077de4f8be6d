import BranchFusion.Func

/-!
# Modules

A module is a list of functions. Its functions are found by name, and a tool that works on one
function picks it: by its name, or without a name if there is only one.
-/

namespace BranchFusion

/-- A module: functions in order. -/
structure Module where
  funcs : List Func := []
deriving DecidableEq, Repr, Inhabited

namespace Module

/-- The first function with a name. -/
def find? (m : Module) (name : String) : Option Func :=
  m.funcs.find? fun f => f.name = name

/-- Why no function can be picked. -/
inductive PickError
  /-- No name was given, and there is not exactly one function. -/
  | ambiguous (count : Nat)
  /-- There is no function with the name. -/
  | notFound (name : String)
deriving DecidableEq, Repr

/-- The wording of an error. -/
def PickError.message : PickError → String
  | .ambiguous n => "module has " ++ toString n ++ " functions, use --func to pick one"
  | .notFound f => "function @" ++ f ++ " not found"

/-- Picks a function by its name; without a name, the only function. -/
def pick (m : Module) (name : String) : Except PickError Func :=
  if name = "" then
    match m.funcs with
    | [fn] => .ok fn
    | fs => .error (.ambiguous fs.length)
  else
    match m.find? name with
    | some fn => .ok fn
    | none => .error (.notFound name)

end Module

end BranchFusion
