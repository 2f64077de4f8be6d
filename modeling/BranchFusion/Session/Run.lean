import BranchFusion.Session.Basic

/-!
# Running things in a session

Passes, managers and the emulator, run on the functions of a session. Counters and journal entries
are kept even when a run ends early; a pass that meets a fault leaves no counters behind, and the
analyses it has asked for stay in the cache.
-/

namespace BranchFusion

namespace Session

/-! ### Memory -/

/-- Adds entries to the journal, if one is kept. -/
def record (s : Session) (entries : Array JournalEntry) : Session :=
  if s.recording then { s with journal := s.journal ++ entries } else s

/-- Takes the entries of the journal. -/
def takeJournal (s : Session) : Array JournalEntry × Session :=
  (s.journal, { s with journal := #[] })

/-- Adds to the counters of everything. -/
def count (s : Session) (c : Counters) : Session :=
  { s with totals := s.totals.add c }

/-- Adds to the counters of the session. -/
def countHere (s : Session) (c : Counters) : Session :=
  { s with counters := s.counters.add c }

/-! ### Analyses -/

/-- The cache of the session, unless it is to be left aside. -/
def cacheUnless (s : Session) (without : Bool) : Option AnalysisCache :=
  if without then none else some s.cache

/-- Puts the cache back, if it was used. -/
def putCache (s : Session) (c : Option AnalysisCache) : Session :=
  { s with cache := c.getD s.cache }

/-- The dominator tree of a function. -/
def dominators (s : Session) (fn : Func) (without : Bool) : DominatorTree × Session :=
  let (t, c) := dominatorsWith fn (s.cacheUnless without)
  (t, s.putCache c)

/-- The post-order of a function. -/
def postOrder (s : Session) (fn : Func) (without : Bool) : List BlockId × Session :=
  let (o, c) := postOrderWith fn (s.cacheUnless without)
  (o, s.putCache c)

/-- Forgets the analyses of a function, if it has changed. -/
def invalidate (s : Session) (fn : Func) (changed without : Bool) : Session :=
  s.putCache ((s.cacheUnless without).map fun c => c.invalidate fn changed)

/-! ### Passes -/

/-- **Runs a pass over a function**, and turns to it. The analyses of a function that has changed
are forgotten, unless they are to be kept. -/
def runPass (s : Session) (p : Pass) (fn : Func) (strict keep without : Bool) :
    Except Fault Bool × Session :=
  let r := p.run strict fn (s.cacheUnless without)
  let s := (((s.use fn).store r.func).putCache r.cache).record r.journal.toArray
  match r.fault with
  | some f => (.error f, s)
  | none =>
    let s := (s.count r.counters).countHere r.counters
    (.ok r.changed, if keep then s else s.invalidate fn r.changed without)

/-- **Folds the nested branches of a function once**, and turns to it. -/
def combine (s : Session) (o : Options) (fn : Func) : Except Fault Bool × Session :=
  let r := Optimizer.combineFunc o fn
  let s := ((s.use fn).store r.func).record r.journal.toArray
  match r.fault with
  | some f => (.error f, s)
  | none => (.ok r.changed, s.count r.counters)

/-! ### Managers -/

/-- What came of running a manager. -/
structure ManagerRun where
  session : Session
  manager : Manager
  counters : Counters := {}
  outcome : Except RunFailure Bool

/-- Runs a manager over functions, given by serial number, up to the first failure. -/
def runManager (m : Manager) : (changed : Bool) → List Nat → Session → ManagerRun
  | changed, [], s => { session := s, manager := m, outcome := .ok changed }
  | changed, i :: is, s =>
    match s.view i with
    | none => runManager m changed is s
    | some fn =>
      let r := m.runFunc fn
      let s := ((s.store r.funcs).record r.journal).count r.counters
      match r.outcome with
      | .error e => ⟨s, r.manager, r.counters, .error e⟩
      | .ok c =>
        let rest := runManager r.manager (changed || c) is s
        { rest with counters := r.counters.add rest.counters }

/-- Makes a manager for some options. -/
def makeManager (s : Session) (o : Options) : Except Pipeline.Error (Manager × Session) := do
  let m ← Manager.create s.registry o
  return (m, { s with manager := some m })

/-- **Runs the manager of the session over functions.** -/
def run (s : Session) (m : Manager) (serials : List Nat) : ManagerRun :=
  let r := runManager m false serials s
  { r with session := { r.session.countHere r.counters with manager := some r.manager } }

/-- **Optimises the module**, with a manager of its own. -/
def optimize (s : Session) (o : Options) : Except Pipeline.Error ManagerRun := do
  let m ← Manager.create s.registry o
  return runManager m false s.listed s

/-! ### The emulator -/

/-- **Calls a function on the emulator of the session**; the settings that are given stay. -/
def emulate (s : Session) (fn : Func) (limit : Option Int) (handler : Option CallHandler)
    (args : List Int64) : Except Emulator.Stop (List Int64 × Array CallRecord) × Session :=
  let e := s.emulator
  let e : EmulatorState := { e with limit := limit.getD e.limit, handler := handler.getD e.handler }
  let r := Emulator.call fn e.handler e.limit args e.trace
  let trace := match r with
    | .ok (_, t) => t
    | .error stop => stop.trace
  (r, { s with emulator := { e with trace } })

/-! ### Defaults and passes by name -/

/-- Registers a pass under a new name. -/
def register (s : Session) (name : String) (p : Pass) : Except Registry.Refusal Session := do
  let registry ← s.registry.register name p
  return { s with registry }

/-- Sets the default pipeline. -/
def setPipeline (s : Session) (p : Text.Bytes) : Except SettingError Session := do
  return { s with defaults := ← s.defaults.setPipeline s.registry p }

/-- Sets the default strictness. -/
def setStrict (s : Session) (b : Bool) : Session :=
  { s with defaults := s.defaults.setStrict b }

/-- Sets the default number of rounds. -/
def setMaxRounds (s : Session) (n : Int) : Session :=
  { s with defaults := s.defaults.setMaxRounds n }

/-- The options of a caller in this session. -/
def options (s : Session) (given : Settings) : Except SettingError Options :=
  given.options s.registry s.defaults

end Session

end BranchFusion
