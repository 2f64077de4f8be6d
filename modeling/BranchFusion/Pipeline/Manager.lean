import BranchFusion.Options
import BranchFusion.Verifier

/-!
# Running pipelines

A manager runs a pipeline over functions. Before the first run the names of the pipeline are
replaced by the passes they stand for, so that later registrations make no difference. Between the
steps the manager keeps the analyses of each function in a cache, and drops them when a step changes
the function.

A step reports whether it changed the function; a group has changed it if one of its steps has. The
verifier changes nothing, but ends the run if the function has a defect. A group that runs until
nothing changes always comes to an end: each round but the last makes the function smaller.
-/

namespace BranchFusion

/-- A step of a pipeline. -/
inductive Step
  /-- A pass, with the name it was given. -/
  | pass (name : String) (pass : Pass)
  | verify
  | times (count : Nat) (body : List Step)
  | fixpoint (body : List Step)
deriving Repr, Inhabited

namespace Step

mutual

/-- The step of a part of a pipeline. A name without a pass stands for the verifier, the only other
name that a pipeline may mention. -/
def ofNode (reg : Registry) : Pipeline.Node → Step
  | .pass name =>
    match reg.find? name with
    | some p => .pass name p
    | none => .verify
  | .times n body => .times n (ofNodes reg body)
  | .fixpoint body => .fixpoint (ofNodes reg body)

/-- The steps of a pipeline. -/
def ofNodes (reg : Registry) : List Pipeline.Node → List Step
  | [] => []
  | n :: ns => ofNode reg n :: ofNodes reg ns

end

end Step

/-- Why a run ends early. -/
inductive RunFailure
  /-- The function has defects. -/
  | invalid (func : Func) (defects : List Defect)
  /-- A pass met a fault. -/
  | fault (fault : Fault)
deriving Repr

/-- The state of a run over a function. -/
structure RunState where
  func : Func
  cache : AnalysisCache := {}
  counters : Counters := {}
  journal : Array JournalEntry := #[]

/-- A run that ended early, with the state it ended in. -/
structure RunStop where
  failure : RunFailure
  state : RunState

/-- What a step does: it tells whether it changed the function, or ends the run. -/
abbrev Action := RunState → Except RunStop (Bool × RunState)

namespace Step

/-- Runs a pass. -/
def runPass (strict : Bool) (name : String) (p : Pass) : Action := fun s =>
  let r := p.run strict s.func (some s.cache)
  let cache := r.cache.getD {}
  let s : RunState :=
    { func := r.func, cache, counters := s.counters.add r.counters
      journal := s.journal ++ r.journal.toArray }
  match r.fault with
  | some f => .error ⟨.fault f, s⟩
  | none =>
    .ok (r.changed,
      { s with
        cache := cache.invalidate r.func r.changed
        journal := s.journal.push (.passFinished name r.func.name r.changed) })

/-- Runs the verifier. -/
def runVerify : Action := fun s =>
  match s.func.defects with
  | [] => .ok (false, s)
  | ds => .error ⟨.invalid s.func ds, s⟩

/-- Runs an action a number of times. -/
def runTimes (act : Action) : Nat → Bool → Action
  | 0, changed, s => .ok (changed, s)
  | n + 1, changed, s =>
    match act s with
    | .error e => .error e
    | .ok (c, s) => runTimes act n (changed || c) s

/-- Runs an action until it changes nothing, for at most `left` more rounds after `done` ones. -/
def runUntilStable (act : Action) : Nat → Nat → Bool → Action
  | 0, done, changed, s =>
    .ok (changed, { s with journal := s.journal.push (.roundLimit s.func.name done) })
  | left + 1, done, changed, s =>
    match act s with
    | .error e => .error e
    | .ok (false, s) => .ok (changed, s)
    | .ok (true, s) => runUntilStable act left (done + 1) true s

/-- The rounds that a group may run. Without a limit, as many as the function can need: every round
that changes it makes it smaller. -/
def roundsFor (maxRounds : Int) (fn : Func) : Nat :=
  if maxRounds = 0 then fn.measure + 1 else maxRounds.toNat

mutual

/-- **Runs a step.** -/
def run (o : Options) : Step → Action
  | .pass name p => runPass o.strict name p
  | .verify => runVerify
  | .times n body => runTimes (fun s => runAll o body false s) n false
  | .fixpoint body => fun s =>
    runUntilStable (fun s => runAll o body false s) (roundsFor o.maxRounds s.func) 0 false s

/-- Runs steps in order; the flag tells whether an earlier one changed the function. -/
def runAll (o : Options) : List Step → Bool → Action
  | [], changed, s => .ok (changed, s)
  | t :: ts, changed, s =>
    match run o t s with
    | .error e => .error e
    | .ok (c, s) => runAll o ts (changed || c) s

end

end Step

/-- A manager: its options, its pipeline in canonical form, the steps, and the cache. -/
structure Manager where
  options : Options
  text : String
  steps : List Step
  cache : AnalysisCache := {}
deriving Inhabited

namespace Manager

/-- A manager for the pipeline of some options. If they ask for it, the verifier comes last. -/
def create (reg : Registry) (o : Options) : Except Pipeline.Error Manager :=
  match Pipeline.parse reg o.pipeline with
  | .error e => .error e
  | .ok nodes =>
    let nodes := if o.verify then nodes ++ [.pass Registry.verifierName] else nodes
    .ok { options := o, text := Pipeline.text nodes, steps := Step.ofNodes reg nodes }

/-- The result of a run over functions: the functions as the run left them, the manager with its
cache, the counters and the journal of the run, and whether anything changed. -/
structure Result (α : Type) where
  funcs : α
  manager : Manager
  counters : Counters := {}
  journal : Array JournalEntry := #[]
  outcome : Except RunFailure Bool

/-- **Runs a manager over a function.** -/
def runFunc (m : Manager) (fn : Func) : Result Func :=
  match Step.runAll m.options m.steps false { func := fn, cache := m.cache } with
  | .ok (changed, s) => ⟨s.func, { m with cache := s.cache }, s.counters, s.journal, .ok changed⟩
  | .error e =>
    ⟨e.state.func, { m with cache := e.state.cache }, e.state.counters, e.state.journal,
      .error e.failure⟩

/-- **Runs a manager over functions in order**, up to the first failure. -/
def runFuncs (m : Manager) : Bool → List Func → Result (List Func)
  | changed, [] => { funcs := [], manager := m, outcome := .ok changed }
  | changed, fn :: fns =>
    let r := m.runFunc fn
    match r.outcome with
    | .error e => ⟨r.funcs :: fns, r.manager, r.counters, r.journal, .error e⟩
    | .ok c =>
      let rest := r.manager.runFuncs (changed || c) fns
      { rest with
        funcs := r.funcs :: rest.funcs
        counters := r.counters.add rest.counters
        journal := r.journal ++ rest.journal }

end Manager

/-- The message of a failure in a function, without the defects. -/
def RunFailure.lead : RunFailure → String
  | .invalid fn _ => "@" ++ fn.name ++ ": verification failed"
  | .fault f => f.message

/-- The messages of the defects behind a failure. -/
def RunFailure.details : RunFailure → List String
  | .invalid fn ds => ds.map (Defect.message fn)
  | .fault _ => []

/-- The message of a failure, with the defects. -/
def RunFailure.message (f : RunFailure) : String :=
  match f with
  | .invalid .. => f.lead ++ ": " ++ Text.join "; " f.details
  | .fault _ => f.lead

end BranchFusion
