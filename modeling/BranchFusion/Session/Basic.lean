import BranchFusion.Emulator
import BranchFusion.Module
import BranchFusion.Optimizer

/-!
# Sessions

A session is work on functions by hand and by pass, side by side: the functions ever created, the
module they are listed in, the function that is worked on, and what the work leaves behind – cached
analyses, counters, a journal, an emulator and a manager with their own memory, and the defaults.

A function is kept without guests. To work on it, `Session.view` gives it the blocks of all other
functions as guests, so that it may branch into them; `Session.store` puts its blocks, and those of
the guests, back where they belong.
-/

namespace BranchFusion

/-- An emulator with a memory: its settings, and every call made so far. -/
structure EmulatorState where
  limit : Int := Emulator.defaultLimit
  handler : CallHandler := Emulator.defaultHandler
  trace : Array CallRecord := #[]
deriving Inhabited

/-- A session. -/
structure Session where
  /-- Every function ever created; the serial number of a function is its place. -/
  funcs : Array Func := #[]
  /-- The functions of the module, by serial number. -/
  listed : List Nat := []
  /-- The function that is worked on. -/
  current : Option Nat := none
  cache : AnalysisCache := {}
  /-- The counters of the session. -/
  counters : Counters := {}
  /-- The counters of everything that has run. -/
  totals : Counters := {}
  emulator : EmulatorState := {}
  manager : Option Manager := none
  defaults : Options := {}
  registry : Registry := .builtin
  /-- Whether a journal is kept. -/
  recording : Bool := false
  journal : Array JournalEntry := #[]
deriving Inhabited

namespace Session

/-! ### Functions -/

/-- The blocks of all functions but one. -/
def guestsOf (s : Session) (serial : Nat) : Table BlockId Block :=
  (s.funcs.toList.filter fun fn => fn.serial ≠ serial).flatMap fun fn =>
    (List.range fn.blocks.size).filterMap fun i =>
      fn.blocks[i]?.map fun b => (⟨fn.serial, i⟩, b)

/-- **A function to work on**: with the blocks of the others as guests. -/
def view (s : Session) (serial : Nat) : Option Func :=
  s.funcs[serial]?.map fun fn => { fn with guests := s.guestsOf serial }

/-- Puts a block where it belongs. -/
def storeBlock (funcs : Array Func) (b : BlockId) (block : Block) : Array Func :=
  funcs.modify b.func fun fn => { fn with blocks := fn.blocks.setIfInBounds b.index block }

/-- **Puts back a function** that was worked on, and its guests. -/
def store (s : Session) (fn : Func) : Session :=
  let funcs := s.funcs.setIfInBounds fn.serial { fn with guests := [] }
  { s with funcs := fn.guests.foldl (fun fs e => storeBlock fs e.1 e.2) funcs }

/-- The module. -/
def module (s : Session) : Module :=
  ⟨s.listed.filterMap s.view⟩

/-- The function that is worked on. -/
def func? (s : Session) : Option Func :=
  s.current.bind s.view

/-- The function of the module with a name; without a name, the one that is worked on. -/
def find? (s : Session) (name : String) : Option Func :=
  if name = "" then s.func? else s.module.find? name

/-- Turns to a function. -/
def use (s : Session) (fn : Func) : Session :=
  { s with current := some fn.serial }

/-- **Loads a module** in the place of the one there is, and turns to its first function. -/
def load (s : Session) (src : String) : Except Source.Error Session := do
  let m ← Module.parse src s.funcs.size
  let listed := m.funcs.map Func.serial
  return { s with
    funcs := s.funcs ++ m.funcs.toArray, listed, current := listed.head?.or s.current }

/-- Creates a function, lists it, and turns to it. -/
def newFunc (s : Session) (name : String) : Session :=
  let serial := s.funcs.size
  { s with
    funcs := s.funcs.push { serial, name }, listed := s.listed ++ [serial]
    current := some serial }

/-! ### Blocks and values by name -/

/-- The block of a function with a number, live or removed. -/
def blockOf? (fn : Func) (number : List Char) : Option BlockId :=
  match Text.Numeral.readDecimal number with
  | .ok i => if i < fn.blocks.size then some ⟨fn.serial, i⟩ else none
  | .error _ => none

/-- **The block that a reference names**: a number for a block of the function that is worked on, or
the name of a function, a colon and a number. -/
def block? (s : Session) (ref : String) : Option BlockId :=
  let cs := ref.toList
  if cs.contains ':' then
    let name := cs.takeWhile (· != ':')
    (s.find? (String.ofList name)).bind fun fn => blockOf? fn ((cs.dropWhile (· != ':')).drop 1)
  else s.func?.bind fun fn => blockOf? fn cs

/-- The value with a name in the function that is worked on. -/
def value? (s : Session) (name : String) : Option Value :=
  s.func?.bind fun fn => fn.value? name

/-! ### Edits -/

/-- **Edits the function that is worked on.** -/
def edit (s : Session) (f : Func → Func) : Session :=
  match s.func? with
  | some fn => s.store (f fn)
  | none => s

/-- Edits the function that is worked on; the session keeps what an edit did before it met a fault.
-/
def tryEdit (s : Session) (f : Func → Except Func.Halted Func) : Option Fault × Session :=
  match s.func? with
  | none => (none, s)
  | some fn =>
    match f fn with
    | .ok fn => (none, s.store fn)
    | .error h => (some h.fault, s.store h.func)

/-- Appends a phi to a block; of two inputs for one block the later counts. -/
def appendPhi (s : Session) (b : BlockId) (result : Value) (inputs : List (Value × BlockId)) :
    Session :=
  let phi : Phi := inputs.foldl (fun p e => p.setInput e.2 (some e.1)) ⟨result, []⟩
  s.edit fun fn => fn.modify b fun bb => { bb with phis := bb.phis ++ [phi] }

/-- Appends an instruction to a block. -/
def appendInstr (s : Session) (b : BlockId) (i : Instr) : Session :=
  s.edit fun fn => fn.modify b fun bb => bb.append i

/-- Replaces the predecessors of a block. -/
def setPreds (s : Session) (b : BlockId) (preds : List BlockId) : Session :=
  s.edit fun fn => fn.modify b fun bb => { bb with preds }

/-- Appends a parameter. -/
def addParam (s : Session) (v : Value) : Session :=
  s.edit fun fn => { fn with params := fn.params ++ [v] }

/-- Makes a block the entry. -/
def setRoot (s : Session) (b : BlockId) : Session :=
  s.edit fun fn => { fn with root := some b }

/-- What came of redirecting an edge. -/
inductive Redirection
  /-- There is no edge at this place. -/
  | none
  /-- The edge used to lead to a block, for a reason. -/
  | done (reason : Terminator.Reason) (old : BlockId)
  | fault (fault : Fault)
deriving DecidableEq, Repr

/-- **Redirects one edge of a block**, given by its place, without telling its targets. A block that
returns has no edges, and it is a fault to insist on redirecting one. -/
def redirect (s : Session) (b : BlockId) (place : Nat) (target : BlockId) (insist : Bool) :
    Redirection × Session :=
  match s.func? with
  | Option.none => (.none, s)
  | some fn =>
    match (fn.edges b)[place]? with
    | some (reason, old) =>
      (.done reason old,
        s.store (fn.modify b fun bb => { bb with term := bb.term.map (·.retarget place target) }))
    | Option.none =>
      match (fn.block b).term with
      | some (.ret _) => (if insist then .fault .noSuccessors else .none, s)
      | _ => (.none, s)

end Session

end BranchFusion
