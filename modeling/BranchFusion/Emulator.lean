import BranchFusion.Func
import BranchFusion.Source.Printer

/-!
# The emulator

Runs a function block by block. Phis read all their inputs before any is assigned, then the
instructions run in order, and the terminator says where to go on. What can be seen from outside is
the sequence of calls, which a *handler* answers, and the results.

A run may go wrong: a value is read that was never set, a phi has no input for the block that
control came from, or a block has no terminator. It may also be stopped, when it is about to enter
more blocks than it is allowed to. `Emulator.run` counts the blocks down, so it always ends.
-/

namespace BranchFusion

/-- Answers the calls of a run: the result, from the name of the callee and the arguments. -/
abbrev CallHandler := String → List Int64 → Int64

/-- A call that was made. -/
structure CallRecord where
  callee : String
  args : List Int64
deriving DecidableEq, Repr, Inhabited

/-- Why a run ends without results. -/
inductive EmulationError
  /-- The allowed number of blocks was used up. -/
  | stepLimit
  /-- The number of arguments is not that of the parameters. -/
  | arity (func : String) (expected got : Nat)
  /-- A value was read that was never set. -/
  | undefinedRead (func : String) (value : Option Value)
  /-- A phi has no input for the block that control came from. -/
  | noInput (func : String) (result : Value) (pred : Option String)
  /-- The block has no terminator. -/
  | notTerminated (func block : String)
  /-- The function has no entry. To call it is a fault of the caller that nothing guards against. -/
  | noEntry
deriving DecidableEq, Repr

/-- The wording of an error. -/
def EmulationError.message : EmulationError → String
  | .stepLimit => "ssa: step limit exceeded"
  | .arity f n m =>
    "ssa: @" ++ f ++ " expects " ++ toString n ++ " arguments, got " ++ toString m
  | .undefinedRead f v => "ssa: @" ++ f ++ ": read of undefined value " ++ Value.textOf? v
  | .noInput f r p =>
    "ssa: @" ++ f ++ ": " ++ r.text ++ " has no incoming value from " ++ p.getD "<nil>"
  | .notTerminated f b => "ssa: @" ++ f ++ ": block " ++ b ++ " is not terminated"
  | .noEntry => "runtime error: invalid memory address or nil pointer dereference"

namespace Emulator

/-- The words that values hold. -/
abbrev Env := Table Value Int64

/-- The handler of a run that is given none: the number of bytes of the name, carried through the
arguments by `r ↦ 31 r + a`. -/
def defaultHandler : CallHandler := fun callee args =>
  args.foldl (fun r a => r * 31 + a) (Int64.ofNat callee.utf8ByteSize)

/-- The number of blocks a run may enter if nothing else is said. -/
def defaultLimit : Int := 65536

/-- The number of blocks to count down from for a limit. With a limit of zero or less a run may
enter as many blocks as it likes. Since the countdown has to begin somewhere, `2 ^ 62` stands for
that: a run that ends only later, or never, is stopped there. -/
def budget (limit : Int) : Nat :=
  if 0 < limit then limit.toNat else Nat.pow 2 62

/-- Reads a value. -/
def read (fn : Func) (env : Env) (v : Option Value) : Except EmulationError Int64 :=
  match v.bind env.get? with
  | some w => .ok w
  | none => .error (.undefinedRead fn.name v)

/-- Reads values in order. -/
def readAll (fn : Func) (env : Env) : List Value → Except EmulationError (List Int64)
  | [] => .ok []
  | v :: vs => do
    let w ← read fn env (some v)
    return w :: (← readAll fn env vs)

/-- Reads the inputs of phis for control that comes from `prev`. -/
def readPhis (fn : Func) (env : Env) (prev : Option BlockId) :
    List Phi → Except EmulationError (List (Value × Int64))
  | [] => .ok []
  | p :: ps =>
    match prev.bind p.input? with
    | none => .error (.noInput fn.name p.result (prev.map fn.label))
    | some v => do
      let w ← read fn env v
      return (p.result, w) :: (← readPhis fn env prev ps)

/-- Assigns words to values in order. -/
def assign (env : Env) (ws : List (Value × Int64)) : Env :=
  ws.foldl (fun env e => env.set e.1 e.2) env

/-- The state of a run between blocks: the words, and the calls made so far. -/
structure State where
  env : Env := []
  trace : Array CallRecord := #[]
deriving DecidableEq, Repr, Inhabited

/-- A run that went wrong, with the calls made so far. -/
structure Stop where
  error : EmulationError
  trace : Array CallRecord
deriving DecidableEq, Repr

/-- Turns an error into the end of a run. -/
def State.lift {α : Type} (s : State) : Except EmulationError α → Except Stop α
  | .ok a => .ok a
  | .error e => .error ⟨e, s.trace⟩

/-- Runs an instruction. A call is answered before it is recorded. -/
def exec (fn : Func) (handler : CallHandler) (s : State) : Instr → Except Stop State
  | .const r w => .ok { s with env := s.env.set r w }
  | .binary r op x y => do
    let a ← s.lift (read fn s.env (some x))
    let b ← s.lift (read fn s.env (some y))
    return { s with env := s.env.set r (op.eval a b) }
  | .call r callee args => do
    let ws ← s.lift (readAll fn s.env args)
    let w := handler callee ws
    let env := match r with
      | some v => s.env.set v w
      | none => s.env
    return ⟨env, s.trace.push ⟨callee, ws⟩⟩

/-- Runs instructions in order. -/
def execAll (fn : Func) (handler : CallHandler) : State → List Instr → Except Stop State
  | s, [] => .ok s
  | s, i :: is => do execAll fn handler (← exec fn handler s i) is

/-- What a terminator decides: where to go on, or the results. -/
inductive Next
  | goto (b : BlockId)
  | results (ws : List Int64)
deriving DecidableEq, Repr

/-- Runs the terminator of a block. -/
def leave (fn : Func) (b : BlockId) (env : Env) :
    Option Terminator → Except EmulationError Next
  | none => .error (.notTerminated fn.name (fn.label b))
  | some (.jump target) => .ok (.goto target)
  | some (.branch v t f) => do
    let w ← read fn env (some v)
    return .goto (if w != 0 then t else f)
  | some (.switch v d cases) => do
    let w ← read fn env (some v)
    return .goto ((cases.get? w).getD d)
  | some (.ret vs) => do return .results (← readAll fn env vs)

/-- **Runs a block**: its phis at once, its instructions in order, and its terminator. -/
def block (fn : Func) (handler : CallHandler) (prev : Option BlockId) (b : BlockId) (s : State) :
    Except Stop (Next × State) := do
  let bb := fn.block b
  let ins ← s.lift (readPhis fn s.env prev bb.phis)
  let s ← execAll fn handler { s with env := assign s.env ins } bb.instrs
  let next ← s.lift (leave fn b s.env bb.term)
  return (next, s)

/-- **Runs a function from a block on**, entering at most `fuel` blocks. -/
def run (fn : Func) (handler : CallHandler) :
    Nat → Option BlockId → BlockId → State → Except Stop (List Int64 × Array CallRecord)
  | 0, _, _, s => .error ⟨.stepLimit, s.trace⟩
  | fuel + 1, prev, b, s =>
    match block fn handler prev b s with
    | .error e => .error e
    | .ok (.results ws, s) => .ok (ws, s.trace)
    | .ok (.goto target, s) => run fn handler fuel (some b) target s

/-- **Calls a function**: its results, and the calls it made after those in `trace`. -/
def call (fn : Func) (handler : CallHandler) (limit : Int) (args : List Int64)
    (trace : Array CallRecord := #[]) : Except Stop (List Int64 × Array CallRecord) :=
  if args.length ≠ fn.params.length then
    .error ⟨.arity fn.name fn.params.length args.length, trace⟩
  else
    match fn.root with
    | none => .error ⟨.noEntry, trace⟩
    | some r => run fn handler (budget limit) none r ⟨assign [] (fn.params.zip args), trace⟩

end Emulator

end BranchFusion
