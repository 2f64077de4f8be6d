import BranchFusion.Proofs.Optimizer
import BranchFusion.Proofs.Pipeline.Coherence

/-!
# Functions are optimised independently

A manager goes through the functions of a module with one cache and one set of counters. Still it
makes no difference to a function which others were run before it. The cache is coherent with every
function when its turn comes (`BranchFusion.Manager.Trusted.recomputes`), so the run over it is the
run without a cache, and that one starts from the function and nothing else. What is left to do is
to take a run over functions without a cache apart into runs over one function each: up to the
first failure these succeed (`BranchFusion.Manager.Recomputes.success`), and the first failure is
the last run (`BranchFusion.Manager.Recomputes.failure`).
-/

namespace BranchFusion

/-- The sum of countings. -/
def Counters.sum (cs : List Counters) : Counters := cs.foldr Counters.add {}

@[simp] theorem Counters.add_empty (c : Counters) : c.add {} = c := by
  simp [Counters.add]

namespace Manager

variable {m m₀ : Manager} {fns fns₀ : List Func} {fn : Func} {o : Options} {steps : List Step}
  {changed c : Bool} {rep : Report} {e : RunFailure}

/-- A manager keeps its options and its steps, whatever becomes of it. -/
theorem History.keeps (h : History m₀ fns₀ m fns) :
    m.options = m₀.options ∧ m.steps = m₀.steps := by
  induction h with
  | start => exact ⟨rfl, rfl⟩
  | run _ ih =>
    rw [runFunc_eq]
    exact ih
  | askDominators _ _ ih => exact ih
  | askPostOrder _ _ ih => exact ih

/-- A manager with nothing in its cache, and one function that is well built. -/
theorem trusted_single (hm : m.cache = {}) (hfn : fn.WellBuilt) : Trusted m [fn] := by
  refine ⟨?_, by simp, ?_⟩
  · simpa using hfn
  · intro g _
    rw [hm]
    exact AnalysisCache.coherent_empty g

theorem cache_of_create {reg : Registry} (h : Manager.create reg o = .ok m) : m.cache = {} := by
  rw [Manager.create] at h
  split at h
  · exact absurd h (by simp)
  · rw [← Except.ok.inj h]

/-! ### Runs without a cache, function by function -/

namespace Recomputes

/-- The report of a run over a single function that succeeds, -/
theorem single_of_ok {tr : List RunState} {s : RunState} (h : Recomputes o steps false [fn] rep)
    (hexec : Step.Executes (Step.recompute o.strict) o (.all steps false) { func := fn } tr
      (.ok (c, s))) : rep = ⟨[s.func], s.counters, s.journal, .ok c⟩ := by
  rw [h.unique (.next hexec (.done _))]
  simp

/-- and of one that fails. -/
theorem single_of_error {tr : List RunState} {stop : RunStop}
    (h : Recomputes o steps false [fn] rep)
    (hexec : Step.Executes (Step.recompute o.strict) o (.all steps false) { func := fn } tr
      (.error stop)) :
    rep = ⟨[stop.state.func], stop.state.counters, stop.state.journal, .error stop.failure⟩ :=
  h.unique (.stop hexec)

variable {alone : Func → Report}

/-- **A run that succeeds** is made up of runs over single functions that succeed. -/
theorem success (h : Recomputes o steps changed fns rep)
    (halone : ∀ fn ∈ fns, Recomputes o steps false [fn] (alone fn)) (hc : rep.outcome = .ok c) :
    List.Forall₂ (fun fn fn' => (alone fn).funcs = [fn'] ∧ ∃ c, (alone fn).outcome = .ok c)
        fns rep.funcs ∧
      (c = true ↔ changed = true ∨ ∃ fn ∈ fns, (alone fn).outcome = .ok true) ∧
      rep.counters = Counters.sum (fns.map fun fn => (alone fn).counters) := by
  induction h with
  | done changed =>
    obtain rfl := Except.ok.inj hc
    exact ⟨.nil, by simp, rfl⟩
  | @next changed fn fns tr c' s rest hexec _ ih =>
    obtain ⟨hfn, hfns⟩ := List.forall_mem_cons.mp halone
    obtain ⟨hfuncs, hflag, hcounters⟩ := ih hfns hc
    have hreport := hfn.single_of_ok hexec
    refine ⟨.cons ?_ hfuncs, ?_, ?_⟩
    · rw [hreport]
      exact ⟨rfl, c', rfl⟩
    · have hhead : (alone fn).outcome = .ok true ↔ c' = true := by
        rw [hreport, Except.ok.injEq]
      simp only [List.exists_mem_cons_iff, hhead, hflag, Bool.or_eq_true, or_assoc]
    · rw [List.map_cons, hreport, hcounters]
      rfl
  | stop => exact absurd hc (by simp)

/-- **A run that fails** is made up of runs over single functions too: those up to the first that
fails. The functions after it are left alone. -/
theorem failure (h : Recomputes o steps changed fns rep)
    (halone : ∀ fn ∈ fns, Recomputes o steps false [fn] (alone fn)) (he : rep.outcome = .error e) :
    ∃ before fn after done, fns = before ++ fn :: after ∧ rep.funcs = done ++ after ∧
      List.Forall₂ (fun g g' => (alone g).funcs = [g']) (before ++ [fn]) done ∧
      (∀ g ∈ before, ∃ c, (alone g).outcome = .ok c) ∧ (alone fn).outcome = .error e ∧
      rep.counters = Counters.sum ((before ++ [fn]).map fun g => (alone g).counters) := by
  induction h with
  | done => exact absurd he (by simp)
  | @next changed fn fns tr c' s rest hexec _ ih =>
    obtain ⟨hfn, hfns⟩ := List.forall_mem_cons.mp halone
    obtain ⟨before, f, after, done, rfl, hrest, hfuncs, hbefore, hf, hcounters⟩ := ih hfns he
    have hreport := hfn.single_of_ok hexec
    refine ⟨fn :: before, f, after, s.func :: done, rfl, by rw [hrest]; rfl, .cons ?_ hfuncs,
      List.forall_mem_cons.mpr ⟨⟨c', ?_⟩, hbefore⟩, hf, ?_⟩
    · rw [hreport]
    · rw [hreport]
    · rw [hcounters, List.cons_append, List.map_cons, hreport]
      rfl
  | @stop changed fn fns tr stop hexec =>
    have hreport := (halone fn (by simp)).single_of_error hexec
    obtain rfl := Except.error.inj he
    refine ⟨[], fn, fns, [stop.state.func], rfl, rfl, .cons ?_ .nil, by simp, ?_, ?_⟩
    · rw [hreport]
    · rw [hreport]
    · rw [List.nil_append, List.map_singleton, hreport, Counters.sum, List.foldr_cons,
        List.foldr_nil, Counters.add_empty]

end Recomputes

/-! ### Runs of a manager -/

variable {src : String} {serial : Nat} {mod : Module} {reg : Registry}

/-- **The functions of a module are optimised independently.** A manager was created and used on the
functions of a module that was read, in any history of runs and questions, and is now run over all
of them; beside it stand the runs of a new manager, with the same options, over one function each.

If the run succeeds, every function ends as it does alone, a change is reported just when one of the
single runs reports one, and the counters are their sum. If the run fails, the failure is that of
the first function that fails alone; the functions before it and this one end as they do alone, and
those after it are untouched. -/
theorem functions_run_independently (hread : Module.parse src serial = .ok mod)
    (hcreate : Manager.create reg o = .ok m₀) (h : History m₀ mod.funcs m fns) :
    let alone := fun fn => m₀.runFuncs false [fn]
    let together := m.runFuncs false fns
    (∀ changed, together.outcome = .ok changed →
      List.Forall₂ (fun fn fn' => (alone fn).funcs = [fn'] ∧ ∃ c, (alone fn).outcome = .ok c)
          fns together.funcs ∧
        (changed = true ↔ ∃ fn ∈ fns, (alone fn).outcome = .ok true) ∧
        together.counters = Counters.sum (fns.map fun fn => (alone fn).counters)) ∧
      ∀ e, together.outcome = .error e →
        ∃ before fn after done, fns = before ++ fn :: after ∧ together.funcs = done ++ after ∧
          List.Forall₂ (fun g g' => (alone g).funcs = [g']) (before ++ [fn]) done ∧
          (∀ g ∈ before, ∃ c, (alone g).outcome = .ok c) ∧ (alone fn).outcome = .error e ∧
          together.counters = Counters.sum ((before ++ [fn]).map fun g => (alone g).counters) := by
  intro alone together
  have hfresh := cache_of_create hcreate
  have htrusted := h.trusted (trusted_of_parse hread hfresh)
  have halone : ∀ fn ∈ fns,
      Recomputes m.options m.steps false [fn] (alone fn).report := fun fn hfn => by
    rw [h.keeps.1, h.keeps.2]
    exact Trusted.recomputes [] [fn] false (trusted_single hfresh (htrusted.wellBuilt fn hfn))
  have hrun : Recomputes m.options m.steps false fns together.report :=
    Trusted.recomputes [] fns false htrusted
  refine ⟨fun changed hok => ?_, fun e herror => ?_⟩
  · obtain ⟨hfuncs, hflag, hcounters⟩ := hrun.success halone hok
    exact ⟨hfuncs, hflag.trans (by simp [Result.report]), hcounters⟩
  · exact hrun.failure halone herror

/-- A program of three functions. The first can be folded; the second has a block out of reach. -/
def threeText : String :=
  nestedText ++
  "func @g() \x7b\nentry:\n  ret\nlost:\n  ret\n\x7d\n" ++
  "func @h() \x7b\nentry:\n  ret\n\x7d\n"

/-- The second function, -/
def strayBlock : Func where
  serial := 1
  name := "g"
  root := some ⟨1, 0⟩
  blocks := #[
    { label := "entry", term := some (.ret []) },
    { label := "lost", term := some (.ret []) }]

/-- and the third. -/
def emptyReturn : Func where
  serial := 2
  name := "h"
  root := some ⟨2, 0⟩
  blocks := #[{ label := "entry", term := some (.ret []) }]

theorem parse_threeText :
    Module.parse threeText = .ok ⟨[nestedBranches, strayBlock, emptyReturn]⟩ := by
  decide +kernel

/-- A manager that folds, and then verifies. -/
def checkedFolder : Manager where
  options := { pipeline := "nested-if-combine,verify" }
  text := "nested-if-combine,verify"
  steps := [.pass "nested-if-combine" .nestedIf, .verify]

theorem create_checkedFolder :
    Manager.create .builtin { pipeline := "nested-if-combine,verify" } = .ok checkedFolder := by
  rfl

/-- The run over the three functions ends at the second, with the failure that it has alone; the
first ends as it does alone, and the third is untouched. -/
theorem threeText_runs_independently :
    let alone := fun fn => checkedFolder.runFuncs false [fn]
    let together := checkedFolder.runFuncs false [nestedBranches, strayBlock, emptyReturn]
    ∃ e f' g', together.outcome = .error e ∧ (alone strayBlock).outcome = .error e ∧
      (alone nestedBranches).funcs = [f'] ∧ (alone strayBlock).funcs = [g'] ∧
      together.funcs = [f', g', emptyReturn] := by
  intro alone together
  have hfirst : (alone nestedBranches).outcome.isOk = true := by decide +kernel
  have hsecond : (alone strayBlock).outcome.isOk = false := by decide +kernel
  have hall : together.outcome.isOk = false := by decide +kernel
  cases ho : together.outcome with
  | ok c => simp [ho, Except.isOk, Except.toBool] at hall
  | error e =>
    obtain ⟨before, fn, after, done, hfns, hfuncs, hends, hbefore, hfn, -⟩ :=
      (functions_run_independently parse_threeText create_checkedFolder .start).2 e ho
    -- the function that fails is neither the first nor the third
    rcases before with - | ⟨f, - | ⟨g, rest⟩⟩
    · obtain ⟨rfl, -⟩ := List.cons.inj hfns
      exact absurd hfirst (by simp [alone, hfn, Except.isOk, Except.toBool])
    · obtain ⟨rfl, rfl, rfl⟩ : f = nestedBranches ∧ fn = strayBlock ∧ after = [emptyReturn] := by
        simpa [eq_comm] using hfns
      cases hends with
      | cons hf hends =>
        cases hends with
        | cons hg hends =>
          cases hends
          exact ⟨e, _, _, rfl, hfn, hf, hg, hfuncs⟩
    · obtain ⟨c, hc⟩ := hbefore g (by simp)
      obtain rfl : g = strayBlock := (List.cons.inj (List.cons.inj hfns).2).1.symm
      exact absurd hsecond (by simp [alone, hc, Except.isOk, Except.toBool])

end Manager

end BranchFusion
