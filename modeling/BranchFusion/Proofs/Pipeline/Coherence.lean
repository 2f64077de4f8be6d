import BranchFusion.Proofs.Pipeline.Execution
import BranchFusion.Proofs.Source.WellBuilt

/-!
# The cache tells the truth

A cache answers from what it holds and does not look at the function again. That this is right
depends on every pass: one that changes a function has to say so, since the entry of the function is
dropped only then. The passes are honest (`BranchFusion.Pass.improves_run`): a function is the one
it was unless a change is reported. Strict folding asks for the dominators of the function before it
changes it, so the cache may be filled in a run that makes the entry wrong; but then that run
reports a change, and the entry is gone before anybody can look.

So what a cache holds is *coherent* with the functions (`BranchFusion.AnalysisCache.Coherent`) at
every boundary between two steps. A manager may be used for many runs over many functions, and
anybody may ask its cache in between (`BranchFusion.Manager.History`); the entries of functions that
a run does not work on are left alone.

A pass that gets a true answer does what it does without a cache, where everything is computed anew
(`BranchFusion.Step.recompute`). So an execution with the cache and one without go through the same
functions, counters and journals (`BranchFusion.Step.Executes.forget`).
-/

namespace BranchFusion

/-! ### What a cache holds -/

/-- Analyses are **true of a function** if what is there would be computed now. -/
structure Analyses.TrueOf (e : Analyses) (fn : Func) : Prop where
  tree : ∀ t, e.tree = some t → t = DominatorTree.build fn
  order : ∀ o, e.order = some o → o = fn.postOrder

theorem Analyses.trueOf_empty (fn : Func) : Analyses.TrueOf {} fn :=
  ⟨fun _ h => absurd h (by simp), fun _ h => absurd h (by simp)⟩

namespace AnalysisCache

variable {c : AnalysisCache} {fn g : Func}

/-- **A coherent cache**: whatever dominators or post-order it holds for a function are those of the
function as it is. -/
def Coherent (c : AnalysisCache) (fn : Func) : Prop := (c.entry fn).TrueOf fn

theorem coherent_empty (fn : Func) : Coherent {} fn := Analyses.trueOf_empty fn

theorem entry_set {n : Nat} {e : Analyses} {hits misses : Nat} :
    entry ⟨hits, misses, c.entries.set n e⟩ g = if n = g.serial then e else c.entry g := by
  rw [entry, Table.get?_set]
  split <;> rfl

theorem entry_invalidate {changed : Bool} : (c.invalidate fn changed).entry g =
    if changed = true ∧ fn.serial = g.serial then {} else c.entry g := by
  cases changed with
  | false => rfl
  | true =>
    rw [invalidate, if_pos rfl, entry, Table.get?_erase]
    by_cases h : fn.serial = g.serial
    · simp [h]
    · simp [h, entry]

section Asking

variable (h : c.Coherent g) (hg : fn.serial = g.serial → g = fn)

include h hg

/-- Setting an entry to what is true leaves the cache coherent with every function, if functions are
told apart by their serial numbers. -/
theorem Coherent.set {e : Analyses} (he : e.TrueOf fn) (hits misses : Nat) :
    Coherent ⟨hits, misses, c.entries.set fn.serial e⟩ g := by
  rw [Coherent, entry_set]
  split
  · next hserial => exact hg hserial ▸ he
  · exact h

/-- To ask for the dominators of a function leaves the cache coherent. -/
theorem Coherent.dominators (hfn : c.Coherent fn) : (c.dominators fn).2.Coherent g := by
  rw [AnalysisCache.dominators]
  cases (c.entry fn).tree with
  | some t => exact h
  | none =>
    exact h.set hg (e := { c.entry fn with tree := some (DominatorTree.build fn) })
      ⟨fun t ht => (Option.some.inj ht).symm, hfn.order⟩ _ _

/-- So does asking for a post-order. -/
theorem Coherent.postOrder (hfn : c.Coherent fn) : (c.postOrder fn).2.Coherent g := by
  rw [AnalysisCache.postOrder]
  cases (c.entry fn).order with
  | some o => exact h
  | none =>
    exact h.set hg (e := { c.entry fn with order := some fn.postOrder })
      ⟨hfn.tree, fun o ho => (Option.some.inj ho).symm⟩ _ _

end Asking

/-- A coherent cache answers with the dominators of the function. -/
theorem Coherent.dominators_eq (h : c.Coherent fn) :
    (c.dominators fn).1 = DominatorTree.build fn := by
  rw [AnalysisCache.dominators]
  cases ht : (c.entry fn).tree with
  | none => rfl
  | some t => exact h.tree t ht

end AnalysisCache

/-! ### What passes do with it -/

/-- The cache after a pass has asked it what it asks: strict folding wants the dominators. -/
def Pass.askedBy (p : Pass) (strict : Bool) (fn : Func) (c : AnalysisCache) : AnalysisCache :=
  if p = .nestedIf ∧ strict = true then (c.dominators fn).2 else c

theorem NestedIf.run_of_coherent {fn : Func} {c : AnalysisCache} (h : c.Coherent fn)
    (strict : Bool) : NestedIf.run strict fn (some c) =
      ((NestedIf.run strict fn none).1, some (Pass.nestedIf.askedBy strict fn c)) := by
  cases strict with
  | false => rfl
  | true =>
    have hstart : NestedIf.start true fn (some c) =
        ((NestedIf.start true fn none).1, some (c.dominators fn).2) := by
      simp only [NestedIf.start, if_true, dominatorsWith, h.dominators_eq]
    rw [NestedIf.run, hstart]
    rfl

/-- **A pass with a coherent cache does what it does without one**, and its cache is the one it
asked. -/
theorem Pass.run_of_coherent {fn : Func} {c : AnalysisCache} (h : c.Coherent fn) (p : Pass)
    (strict : Bool) : p.run strict fn (some c) =
      { p.run strict fn none with cache := some (p.askedBy strict fn c) } := by
  cases p with
  | nestedIf =>
    rw [Pass.run, Pass.run, NestedIf.run_of_coherent h]
    cases NestedIf.run strict fn none with
    | mk result c' =>
      dsimp only
      cases result with
      | ok q => rfl
      | error e => rfl
  | blockMerge =>
    rw [Pass.run, Pass.run]
    cases BlockMerge.run fn with
    | ok r => rfl
    | error e => rfl
  | deadCode => rfl

theorem Pass.coherent_askedBy {fn g : Func} {c : AnalysisCache} (h : c.Coherent g)
    (hg : fn.serial = g.serial → g = fn) (hfn : c.Coherent fn) (p : Pass) (strict : Bool) :
    (p.askedBy strict fn c).Coherent g := by
  rw [Pass.askedBy]
  split
  · exact h.dominators hg hfn
  · exact h

namespace Step

variable {o : Options} {s : RunState} {task : Task} {tr : List RunState}
  {r : Except RunStop (Bool × RunState)} {g : Func}

/-- A state whose function is well built and whose cache is coherent with it. -/
structure Sound (s : RunState) : Prop where
  wellBuilt : s.func.WellBuilt
  coherent : s.cache.Coherent s.func

/-- **A pass leaves the cache coherent** with the function as it is then: either nothing has
changed, or the entry is gone. -/
theorem Sound.afterPass (hs : Sound s) (name : String) (p : Pass) (strict : Bool) :
    Sound (afterPass name (p.run strict s.func (some s.cache)) s) := by
  have himproves := Pass.improves_run hs.wellBuilt p strict (some s.cache)
  refine ⟨himproves.wellBuilt, ?_⟩
  rw [AnalysisCache.Coherent, Step.afterPass, AnalysisCache.entry_invalidate]
  cases hc : (p.run strict s.func (some s.cache)).changed with
  | true =>
    -- the pass may have asked before it changed the function, but the entry is dropped
    simpa using Analyses.trueOf_empty _
  | false =>
    rw [himproves.unchanged hc, Pass.run_of_coherent hs.coherent, if_neg (by simp)]
    exact Pass.coherent_askedBy hs.coherent (fun _ => rfl) hs.coherent p strict

/-- It leaves it coherent with the other functions, too. -/
theorem Sound.afterPass_other (hs : Sound s) (hg : s.cache.Coherent g)
    (hne : g.serial ≠ s.func.serial) (name : String) (p : Pass) (strict : Bool) :
    (Step.afterPass name (p.run strict s.func (some s.cache)) s).cache.Coherent g := by
  have himproves := Pass.improves_run hs.wellBuilt p strict (some s.cache)
  have hserial : (p.run strict s.func (some s.cache)).func.serial ≠ g.serial := by
    rw [himproves.serial]
    exact Ne.symm hne
  rw [AnalysisCache.Coherent, Step.afterPass, AnalysisCache.entry_invalidate,
    if_neg fun h => hserial h.2, Pass.run_of_coherent hs.coherent]
  exact Pass.coherent_askedBy hg (fun h => absurd h.symm hne) hs.coherent p strict

theorem Sound.giveUp (hs : Sound s) (done : Nat) : Sound (Step.giveUp s done) :=
  ⟨hs.wellBuilt, hs.coherent⟩

/-- **The cache is coherent at every boundary of an execution.** -/
theorem Executes.coherent (h : Executes (runPass o.strict) o task s tr r) (hs : Sound s) :
    (∀ s' ∈ tr, Sound s') ∧ Sound (endState r) := by
  refine h.invariant (fun name p s' hs' => ?_) (fun _ done hs' => hs'.giveUp done) hs
  rw [runPass_of_wellBuilt hs'.wellBuilt]
  exact hs'.afterPass name p o.strict

theorem Executes.coherent_other (h : Executes (runPass o.strict) o task s tr r) (hs : Sound s)
    (hg : s.cache.Coherent g) (hne : g.serial ≠ s.func.serial) :
    (∀ s' ∈ tr, s'.cache.Coherent g) ∧ (endState r).cache.Coherent g := by
  have hall := h.invariant (J := fun s' => Sound s' ∧ s'.func.serial = s.func.serial ∧
    s'.cache.Coherent g) ?pass ?giveUp ⟨hs, rfl, hg⟩
  · exact ⟨fun s' hs' => (hall.1 s' hs').2.2, hall.2.2.2⟩
  case pass =>
    rintro name p s' ⟨hs', hserial, hg'⟩
    have himproves := Pass.improves_run hs'.wellBuilt p o.strict (some s'.cache)
    rw [runPass_of_wellBuilt hs'.wellBuilt, endState]
    refine ⟨hs'.afterPass name p o.strict, himproves.serial.trans hserial, ?_⟩
    exact hs'.afterPass_other hg' (hserial ▸ hne) name p o.strict
  case giveUp =>
    rintro s' done ⟨hs', hserial, hg'⟩
    exact ⟨hs'.giveUp done, hserial, hg'⟩

/-! ### Runs without a cache -/

/-- Runs a pass **without a cache**, so that every analysis is computed when it is asked for. -/
def recompute (strict : Bool) (name : String) (p : Pass) : Action := fun s =>
  let r := p.run strict s.func none
  let s : RunState :=
    { func := r.func, counters := s.counters.add r.counters
      journal := s.journal ++ r.journal.toArray }
  match r.fault with
  | some f => .error ⟨.fault f, s⟩
  | none => .ok (r.changed,
      { s with journal := s.journal.push (.passFinished name r.func.name r.changed) })

/-- A state without its cache. -/
def forget (s : RunState) : RunState := { s with cache := {} }

/-- What comes of a run, without the cache. -/
def forgetEnd : Except RunStop (Bool × RunState) → Except RunStop (Bool × RunState)
  | .ok (c, s) => .ok (c, forget s)
  | .error e => .error { e with state := forget e.state }

theorem endState_forgetEnd : endState (forgetEnd r) = forget (endState r) := by
  cases r with
  | ok r => rfl
  | error e => rfl

theorem recompute_forget (hs : Sound s) (strict : Bool) (name : String) (p : Pass) :
    recompute strict name p (forget s) = forgetEnd (runPass strict name p s) := by
  have hfault := (Pass.improves_run hs.wellBuilt p strict none).fault
  rw [runPass_of_wellBuilt hs.wellBuilt, Pass.run_of_coherent hs.coherent]
  have hnone : (p.run strict (forget s).func none).fault = none := hfault
  simp only [recompute, hnone]
  rfl

theorem verify_forget : runVerify (forget s) = forgetEnd (runVerify s) := by
  have hfunc : (forget s).func = s.func := rfl
  rw [runVerify, runVerify, hfunc]
  cases s.func.defects with
  | nil => rfl
  | cons d ds => rfl

/-- **An execution with a coherent cache is one without a cache**: both go through the same states,
but for the cache, and come to the same end. -/
theorem Executes.forget (h : Executes (runPass o.strict) o task s tr r) (hs : Sound s) :
    Executes (recompute o.strict) o task (forget s) (tr.map Step.forget) (forgetEnd r) := by
  induction h with
  | pass name p s =>
    rw [← recompute_forget hs, List.map_singleton, ← endState_forgetEnd, ← recompute_forget hs]
    exact .pass name p _
  | verify s =>
    rw [← verify_forget, List.map_singleton, ← endState_forgetEnd, ← verify_forget]
    exact .verify _
  | times _ ih => exact .times (ih hs)
  | fixpoint _ ih => exact .fixpoint (ih hs)
  | allDone c s => exact .allDone c _
  | allNext h _ ih ih' =>
    rw [List.map_append]
    exact .allNext (ih hs) (ih' (h.coherent hs).2)
  | allStop _ ih => exact .allStop (ih hs)
  | roundsDone body c s => exact .roundsDone body c _
  | roundsNext h _ ih ih' =>
    rw [List.map_append]
    exact .roundsNext (ih hs) (ih' (h.coherent hs).2)
  | roundsStop _ ih => exact .roundsStop (ih hs)
  | stableLimit hlimit => exact .stableLimit hlimit
  | stableDone hagain _ ih => exact .stableDone hagain (ih hs)
  | stableNext hagain h _ ih ih' =>
    rw [List.map_append]
    exact .stableNext hagain (ih hs) (ih' (h.coherent hs).2)
  | stableStop hagain _ ih => exact .stableStop hagain (ih hs)

end Step

/-! ### Managers -/

namespace Manager

variable {m m₀ : Manager} {fns fns₀ : List Func}

/-- **What becomes of a manager and the functions that it works on**: it is run over one of them, or
its cache is asked about one. -/
inductive History (m₀ : Manager) (fns₀ : List Func) : Manager → List Func → Prop
  | start : History m₀ fns₀ m₀ fns₀
  | run {m before fn after} (h : History m₀ fns₀ m (before ++ fn :: after)) :
    History m₀ fns₀ (m.runFunc fn).manager (before ++ (m.runFunc fn).funcs :: after)
  | askDominators {m fns fn} (h : History m₀ fns₀ m fns) (hfn : fn ∈ fns) :
    History m₀ fns₀ { m with cache := (m.cache.dominators fn).2 } fns
  | askPostOrder {m fns fn} (h : History m₀ fns₀ m fns) (hfn : fn ∈ fns) :
    History m₀ fns₀ { m with cache := (m.cache.postOrder fn).2 } fns

/-- A run over all functions is a history of runs over one function each. -/
theorem History.runFuncs : ∀ (before fns : List Func) {m : Manager} (changed : Bool),
    History m₀ fns₀ m (before ++ fns) →
      History m₀ fns₀ (m.runFuncs changed fns).manager
        (before ++ (m.runFuncs changed fns).funcs)
  | before, [], m, changed, h => h
  | before, fn :: fns, m, changed, h => by
    rw [Manager.runFuncs]
    cases hr : (m.runFunc fn).outcome with
    | error e => exact h.run
    | ok c =>
      have hrest : History m₀ fns₀ (m.runFunc fn).manager
          ((before ++ [(m.runFunc fn).funcs]) ++ fns) := by
        simpa using h.run
      simpa using History.runFuncs _ fns (changed || c) hrest

/-- What holds throughout a history: the functions are well built and told apart by their serial
numbers, and the cache is coherent with all of them. -/
structure Trusted (m : Manager) (fns : List Func) : Prop where
  wellBuilt : ∀ fn ∈ fns, fn.WellBuilt
  nodup : (fns.map Func.serial).Nodup
  coherent : ∀ fn ∈ fns, m.cache.Coherent fn

variable {before after : List Func} {fn g : Func}

/-- Another function than the one that a run works on has another serial number. -/
theorem Trusted.serial_ne (h : Trusted m (before ++ fn :: after)) (hg : g ∈ before ++ after) :
    g.serial ≠ fn.serial := by
  have hnodup := h.nodup
  rw [List.map_append, List.map_cons, List.nodup_middle, List.nodup_cons, ← List.map_append]
    at hnodup
  intro heq
  exact hnodup.1 (heq ▸ List.mem_map_of_mem hg)

theorem Trusted.eq_of_serial (h : Trusted m fns) (hfn : fn ∈ fns) (hg : g ∈ fns)
    (heq : fn.serial = g.serial) : g = fn :=
  List.inj_on_of_nodup_map h.nodup hg hfn heq.symm

/-- A manager starts over a function in a sound state. -/
theorem Trusted.sound (h : Trusted m (before ++ fn :: after)) : Step.Sound (m.startOn fn) :=
  ⟨h.wellBuilt fn (by simp), h.coherent fn (by simp)⟩

/-- **The execution of a run over one function.** -/
theorem Trusted.executes (h : Trusted m (before ++ fn :: after)) :
    ∃ tr, Step.Executes (Step.runPass m.options.strict) m.options (.all m.steps false)
      (m.startOn fn) tr (Step.runAll m.options m.steps false (m.startOn fn)) :=
  Step.executes_runAll m.options m.steps false (m.startOn fn) h.sound.wellBuilt

theorem Trusted.run (h : Trusted m (before ++ fn :: after)) :
    Trusted (m.runFunc fn).manager (before ++ (m.runFunc fn).funcs :: after) := by
  obtain ⟨tr, hexec⟩ := h.executes
  have hend := (hexec.coherent h.sound).2
  have hserial : (Step.endState (Step.runAll m.options m.steps false (m.startOn fn))).func.serial =
      fn.serial := (hexec.wellBuilt h.sound.wellBuilt).2.2
  have hmem : ∀ {f f' : Func}, f ∈ before ++ f' :: after ↔ f = f' ∨ f ∈ before ++ after := by
    intro f f'
    simp only [List.mem_append, List.mem_cons]
    tauto
  rw [m.runFunc_eq]
  refine ⟨fun f hf => ?_, ?_, fun f hf => ?_⟩
  · rcases hmem.mp hf with rfl | hf
    · exact hend.wellBuilt
    · exact h.wellBuilt f (hmem.mpr (Or.inr hf))
  · -- a run keeps the serial number
    have hnodup := h.nodup
    rwa [List.map_append, List.map_cons, ← hserial, ← List.map_cons, ← List.map_append] at hnodup
  · rcases hmem.mp hf with rfl | hf
    · exact hend.coherent
    · have hf' := h.coherent f (hmem.mpr (Or.inr hf))
      exact (hexec.coherent_other h.sound hf' (h.serial_ne hf)).2

theorem History.trusted (h : History m₀ fns₀ m fns) (h₀ : Trusted m₀ fns₀) : Trusted m fns := by
  induction h with
  | start => exact h₀
  | run _ ih => exact ih.run
  | askDominators _ hfn ih =>
    refine ⟨ih.wellBuilt, ih.nodup, fun g hg => ?_⟩
    exact (ih.coherent g hg).dominators (ih.eq_of_serial hfn hg) (ih.coherent _ hfn)
  | askPostOrder _ hfn ih =>
    refine ⟨ih.wellBuilt, ih.nodup, fun g hg => ?_⟩
    exact (ih.coherent g hg).postOrder (ih.eq_of_serial hfn hg) (ih.coherent _ hfn)

/-- A manager over functions that were read, with nothing in its cache. -/
theorem trusted_of_parse {src : String} {serial : Nat} {mod : Module}
    (hread : Module.parse src serial = .ok mod) (hm : m.cache = {}) : Trusted m mod.funcs := by
  refine ⟨Source.wellBuilt_of_parse hread, ?_, fun fn _ => ?_⟩
  · rw [(Source.listed_of_parse hread).serials]
    exact List.nodup_range'
  · rw [hm]
    exact AnalysisCache.coherent_empty fn

/-! ### Whole modules -/

/-- What a run over functions leaves, apart from the cache. -/
structure Report where
  funcs : List Func
  counters : Counters
  journal : Array JournalEntry
  outcome : Except RunFailure Bool

/-- What a manager reports of a run. -/
def Result.report (r : Result (List Func)) : Report :=
  ⟨r.funcs, r.counters, r.journal, r.outcome⟩

/-- **A run over functions without a cache**: one after the other, up to the first failure. -/
inductive Recomputes (o : Options) (steps : List Step) : Bool → List Func → Report → Prop
  | done (changed : Bool) : Recomputes o steps changed [] ⟨[], {}, #[], .ok changed⟩
  | next {changed fn fns tr c s rest}
    (h : Step.Executes (Step.recompute o.strict) o (.all steps false) { func := fn } tr (.ok (c, s)))
    (h' : Recomputes o steps (changed || c) fns rest) :
    Recomputes o steps changed (fn :: fns)
      ⟨s.func :: rest.funcs, s.counters.add rest.counters, s.journal ++ rest.journal, rest.outcome⟩
  | stop {changed fn fns tr e}
    (h : Step.Executes (Step.recompute o.strict) o (.all steps false) { func := fn } tr (.error e)) :
    Recomputes o steps changed (fn :: fns)
      ⟨e.state.func :: fns, e.state.counters, e.state.journal, .error e.failure⟩

/-- There is at most one such run. -/
theorem Recomputes.unique {o : Options} {steps : List Step} {changed : Bool} {rep rep' : Report}
    (h : Recomputes o steps changed fns rep) (h' : Recomputes o steps changed fns rep') :
    rep = rep' := by
  induction h generalizing rep' with
  | done => cases h'; rfl
  | next h _ ih =>
    cases h' with
    | next h₁ h₁' =>
      obtain ⟨-, hr⟩ := h.unique h₁
      cases hr
      obtain rfl := ih h₁'
      rfl
    | stop h₁ => exact absurd (h.unique h₁).2 (by simp)
  | stop h =>
    cases h' with
    | next h₁ _ => exact absurd (h.unique h₁).2 (by simp)
    | stop h₁ =>
      obtain ⟨-, hr⟩ := h.unique h₁
      cases hr
      rfl

/-- **The execution of a run over one function, without a cache.** -/
theorem Trusted.recomputes_func (h : Trusted m (before ++ fn :: after)) :
    ∃ tr, Step.Executes (Step.recompute m.options.strict) m.options (.all m.steps false)
      { func := fn } tr
      (Step.forgetEnd (Step.runAll m.options m.steps false (m.startOn fn))) := by
  obtain ⟨tr, hexec⟩ := h.executes
  exact ⟨_, hexec.forget h.sound⟩

/-- A run over functions reports what it does without a cache. -/
theorem Trusted.recomputes : ∀ (before fns : List Func) {m : Manager} (changed : Bool),
    Trusted m (before ++ fns) →
      Recomputes m.options m.steps changed fns (m.runFuncs changed fns).report
  | before, [], m, changed, _ => .done changed
  | before, fn :: fns, m, changed, h => by
    obtain ⟨tr, hexec⟩ := h.recomputes_func
    have hrun := h.run
    rw [Manager.runFuncs]
    rw [m.runFunc_eq] at hrun ⊢
    generalize Step.runAll m.options m.steps false (m.startOn fn) = r at hexec hrun ⊢
    cases r with
    | error e => exact .stop (e := { e with state := Step.forget e.state }) hexec
    | ok r =>
      obtain ⟨c, s⟩ := r
      have hrest : Trusted { m with cache := s.cache } ((before ++ [s.func]) ++ fns) := by
        simpa [Step.endState] using hrun
      have hmore := Trusted.recomputes _ fns (changed || c) hrest
      exact .next (s := Step.forget s) hexec hmore

variable {src : String} {serial : Nat} {mod : Module} {reg : Registry} {o : Options}

/-- **The cache of a manager is coherent throughout.** A manager is created and used on the
functions of a module that was read, in any history of runs and questions. Then its cache is
coherent with all functions. If it is run over one of them, the cache is coherent at every boundary
between two steps, with this function as it is there and with the others; and the same steps without
a cache go through the same states and come to the same end. A run over all functions is part of the
history, and it leaves the functions, counters, journal and outcome of the run without a cache, and
no others. -/
theorem cache_stays_coherent (hread : Module.parse src serial = .ok mod)
    (hcreate : Manager.create reg o = .ok m₀) (h : History m₀ mod.funcs m fns) :
    (∀ fn ∈ fns, m.cache.Coherent fn) ∧
      (∀ before fn after, fns = before ++ fn :: after → ∃ tr,
        Step.Executes (Step.runPass m.options.strict) m.options (.all m.steps false)
          (m.startOn fn) tr (Step.runAll m.options m.steps false (m.startOn fn)) ∧
        (∀ s ∈ tr, s.cache.Coherent s.func ∧ ∀ g ∈ before ++ after, s.cache.Coherent g) ∧
        Step.Executes (Step.recompute m.options.strict) m.options (.all m.steps false)
          { func := fn } (tr.map Step.forget)
          (Step.forgetEnd (Step.runAll m.options m.steps false (m.startOn fn)))) ∧
      ∀ changed, History m₀ mod.funcs (m.runFuncs changed fns).manager
          (m.runFuncs changed fns).funcs ∧
        ∀ rep, Recomputes m.options m.steps changed fns rep ↔
          rep = (m.runFuncs changed fns).report := by
  have hfresh : m₀.cache = {} := by
    rw [Manager.create] at hcreate
    split at hcreate
    · exact absurd hcreate (by simp)
    · rw [← Except.ok.inj hcreate]
  have htrusted := h.trusted (trusted_of_parse hread hfresh)
  refine ⟨htrusted.coherent, ?_, fun changed => ⟨h.runFuncs [] fns changed, fun rep => ?_⟩⟩
  · rintro before fn after rfl
    obtain ⟨tr, hexec⟩ := htrusted.executes
    have hsound := htrusted.sound
    refine ⟨tr, hexec, fun s hs => ⟨((hexec.coherent hsound).1 s hs).coherent, fun g hg => ?_⟩,
      hexec.forget hsound⟩
    have hg' : m.cache.Coherent g := htrusted.coherent g (by
      simp only [List.mem_append, List.mem_cons] at hg ⊢
      tauto)
    exact (hexec.coherent_other hsound hg' (htrusted.serial_ne hg)).1 s hs
  · have hrun : Recomputes m.options m.steps changed fns (m.runFuncs changed fns).report :=
      Trusted.recomputes [] fns changed htrusted
    constructor
    · exact fun h => h.unique hrun
    · rintro rfl
      exact hrun

/-- A strict manager that folds, and removes what is unused. -/
def strictFolder : Manager :=
  (Manager.create .builtin
    { pipeline := "nested-if-combine,tdce", strict := true }).toOption.getD default

theorem create_strictFolder : Manager.create .builtin
    { pipeline := "nested-if-combine,tdce", strict := true } = .ok strictFolder := by
  have hok : (Manager.create .builtin
      { pipeline := "nested-if-combine,tdce", strict := true }).isOk := by
    decide +kernel
  rw [strictFolder]
  cases hcreate : Manager.create .builtin
      { pipeline := "nested-if-combine,tdce", strict := true } with
  | error e => simp [hcreate, Except.isOk, Except.toBool] at hok
  | ok m => rfl

/-- The cache is asked for the dominators of a function before the run. Folding finds them there and
then makes them wrong; after the run the cache is coherent with the function as it is, and the run
reports what it does without a cache. -/
theorem strictFolder_stays_coherent :
    let asked := { strictFolder with cache := (strictFolder.cache.dominators tangled).2 }
    (asked.cache.entry tangled).tree = some (DominatorTree.build tangled) ∧
      (asked.runFunc tangled).funcs.ids ≠ tangled.ids ∧
      (asked.runFunc tangled).manager.cache.Coherent (asked.runFunc tangled).funcs ∧
      Recomputes asked.options asked.steps false [tangled] (asked.runFuncs false [tangled]).report := by
  intro asked
  have hasked : History strictFolder [tangled] asked ([] ++ tangled :: []) :=
    .askDominators .start (List.mem_singleton_self tangled)
  have hrun : History strictFolder [tangled] (asked.runFunc tangled).manager
      [(asked.runFunc tangled).funcs] := hasked.run
  refine ⟨rfl, by decide +kernel, ?_, ?_⟩
  · exact (cache_stays_coherent parse_tangledText create_strictFolder hrun).1 _ (by simp)
  · have hall := (cache_stays_coherent parse_tangledText create_strictFolder hasked).2.2 false
    exact (hall.2 _).mpr rfl

end Manager

end BranchFusion
