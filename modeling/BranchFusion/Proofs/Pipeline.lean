import BranchFusion.Pipeline.Manager
import BranchFusion.Proofs.Pass.BlockMerge
import BranchFusion.Proofs.Pass.DeadCode
import BranchFusion.Proofs.Pass.NestedIf

/-!
# What a pipeline keeps

A pipeline is run step by step, and a group is run over and over. What every pass keeps, a pipeline
keeps, however its groups are nested: `BranchFusion.Step.Keeps` says that an action never ends the
run and leaves a function with a property that it had before, and the rules below build this up from
the passes and the verifier to whole runs of a manager (`BranchFusion.Manager.runFunc_keeps`).

There are two such properties. One is to be valid, with all values entered: the passes keep it, so
the verifier never has anything to say in a run that starts from a valid function. The other is to
refine a given function in strict form.
-/

namespace BranchFusion

variable {fn : Func}

/-! ### One pass -/

namespace Pass

/-- **A pass keeps a function valid** and meets no fault. If the function was in strict form it
stays so, and results stay what they were. -/
theorem run_valid (hv : fn.Valid) (hentered : fn.Entered) (p : Pass) (strict : Bool)
    (cache : Option AnalysisCache) :
    (p.run strict fn cache).fault = none ∧ (p.run strict fn cache).func.Valid ∧
      (p.run strict fn cache).func.Entered ∧
      (fn.Strict → (p.run strict fn cache).func.Strict ∧
        fn.Refines (fun _ => False) (p.run strict fn cache).func) := by
  cases p with
  | nestedIf =>
    obtain ⟨q, hq, hqv, hqe, hqs⟩ := NestedIf.run_valid hv hentered strict cache
    rw [run_nestedIf hq]
    refine ⟨rfl, hqv, hqe, fun hs => ?_⟩
    obtain ⟨hstrict, hrefines⟩ := hqs hs
    exact ⟨hstrict, hrefines.mono fun _ h => h.elim⟩
  | blockMerge =>
    obtain ⟨f, c, hf, hfv, hfe, hfs, hrefines⟩ := BlockMerge.run_valid hv hentered
    have hrun : Pass.run .blockMerge strict fn cache = { func := f, cache, changed := c } := by
      rw [Pass.run, hf]
    rw [hrun]
    exact ⟨rfl, hfv, hfe, fun hs => ⟨hfs hs, hrefines.mono fun _ h => h.elim⟩⟩
  | deadCode =>
    obtain ⟨hfv, hfe, hfs, hrefines⟩ := DeadCode.run_valid hv hentered
    exact ⟨rfl, hfv, hfe, fun hs => ⟨hfs hs, hrefines⟩⟩

end Pass

/-! ### Steps -/

namespace Step

variable {I : Func → Prop} {act : Action} {o : Options}

/-- An action **keeps** a property of functions: from a function that has it, the action does not
end the run, and leaves a function that has it. -/
def Keeps (I : Func → Prop) (act : Action) : Prop :=
  ∀ s, I s.func → ∃ c s', act s = .ok (c, s') ∧ I s'.func

/-- A property that all passes keep, and that leaves the verifier nothing to say. -/
structure Invariant (strict : Bool) (I : Func → Prop) : Prop where
  valid : ∀ fn, I fn → fn.defects = []
  pass : ∀ (p : Pass) fn cache, I fn →
    (p.run strict fn cache).fault = none ∧ I (p.run strict fn cache).func

theorem Invariant.runPass {strict : Bool} (h : Invariant strict I) (name : String) (p : Pass) :
    Keeps I (runPass strict name p) := by
  intro s hs
  obtain ⟨hfault, hI⟩ := h.pass p s.func (some s.cache) hs
  rw [Step.runPass, hfault]
  exact ⟨_, _, rfl, hI⟩

theorem Invariant.runVerify {strict : Bool} (h : Invariant strict I) : Keeps I runVerify := by
  intro s hs
  rw [Step.runVerify, h.valid s.func hs]
  exact ⟨false, s, rfl, hs⟩

theorem Keeps.runTimes (h : Keeps I act) : ∀ n changed, Keeps I (runTimes act n changed)
  | 0, changed, s, hs => ⟨changed, s, rfl, hs⟩
  | n + 1, changed, s, hs => by
    obtain ⟨c, s', hact, hs'⟩ := h s hs
    rw [Step.runTimes, hact]
    exact h.runTimes n (changed || c) s' hs'

theorem Keeps.runUntilStable (h : Keeps I act) :
    ∀ left done changed, Keeps I (runUntilStable act left done changed)
  | 0, _, changed, s, hs => ⟨changed, _, rfl, hs⟩
  | left + 1, done, changed, s, hs => by
    obtain ⟨c, s', hact, hs'⟩ := h s hs
    rw [Step.runUntilStable, hact]
    cases c with
    | false => exact ⟨changed, s', rfl, hs'⟩
    | true => exact h.runUntilStable left (done + 1) true s' hs'

mutual

/-- **What all passes keep, a step keeps.** The induction is on the nesting of groups. -/
theorem Invariant.run (h : Invariant o.strict I) : ∀ t : Step, Keeps I (run o t)
  | .pass name p => by
    rw [Step.run]
    exact h.runPass name p
  | .verify => by
    rw [Step.run]
    exact h.runVerify
  | .times n body => by
    rw [Step.run]
    exact Keeps.runTimes (h.runAll body false) n false
  | .fixpoint body => by
    intro s hs
    rw [Step.run]
    exact Keeps.runUntilStable (h.runAll body false) _ 0 false s hs

theorem Invariant.runAll (h : Invariant o.strict I) :
    ∀ (ts : List Step) (changed : Bool), Keeps I (runAll o ts changed)
  | [], changed, s, hs => ⟨changed, s, by rw [Step.runAll], hs⟩
  | t :: ts, changed, s, hs => by
    obtain ⟨c, s', hrun, hs'⟩ := h.run t s hs
    rw [Step.runAll, hrun]
    exact h.runAll ts (changed || c) s' hs'

end

/-- To be valid, with all values entered, is kept. -/
theorem invariant_valid (strict : Bool) : Invariant strict fun f => f.Valid ∧ f.Entered := by
  refine ⟨fun f hf => Func.defects_eq_nil_iff.mpr hf.1, fun p f cache hf => ?_⟩
  obtain ⟨hfault, hv, he, -⟩ := Pass.run_valid hf.1 hf.2 p strict cache
  exact ⟨hfault, hv, he⟩

/-- To give the results of a function is kept too, from a function in strict form on. -/
theorem invariant_refines (strict : Bool) (fn : Func) : Invariant strict fun f =>
    (f.Valid ∧ f.Entered) ∧ f.Strict ∧ fn.Refines (fun _ => False) f := by
  refine ⟨fun f hf => Func.defects_eq_nil_iff.mpr hf.1.1, ?_⟩
  rintro p f cache ⟨⟨hv, hentered⟩, hs, hrefines⟩
  obtain ⟨hfault, hv', he', hkept⟩ := Pass.run_valid hv hentered p strict cache
  obtain ⟨hs', hrefines'⟩ := hkept hs
  exact ⟨hfault, ⟨hv', he'⟩, hs', hrefines.trans hrefines'⟩

end Step

/-! ### Managers -/

namespace Manager

variable {I : Func → Prop}

/-- **What all passes keep, a manager keeps**, and it ends without a failure. -/
theorem runFunc_keeps (m : Manager) (h : Step.Invariant m.options.strict I) (hfn : I fn) :
    ∃ c, (m.runFunc fn).outcome = .ok c ∧ I (m.runFunc fn).funcs := by
  obtain ⟨c, s, hrun, hs⟩ := h.runAll m.steps false { func := fn, cache := m.cache } hfn
  rw [runFunc, hrun]
  exact ⟨c, rfl, hs⟩

end Manager

/-! ### Two nested branches -/

/-- A branch inside another, with a common way out. -/
def nestedBranches : Func where
  serial := 0
  name := "f"
  root := some ⟨0, 0⟩
  params := [⟨0, 0, "a"⟩, ⟨0, 1, "b"⟩]
  values := #[⟨0, 0, "a"⟩, ⟨0, 1, "b"⟩]
  blocks := #[
    { label := "entry", term := some (.branch ⟨0, 0, "a"⟩ ⟨0, 1⟩ ⟨0, 3⟩) },
    { label := "mid", preds := [⟨0, 0⟩], term := some (.branch ⟨0, 1, "b"⟩ ⟨0, 2⟩ ⟨0, 3⟩) },
    { label := "then", preds := [⟨0, 1⟩], term := some (.ret [⟨0, 0, "a"⟩]) },
    { label := "else", preds := [⟨0, 0⟩, ⟨0, 1⟩], term := some (.ret [⟨0, 1, "b"⟩]) }]

theorem defects_nestedBranches : nestedBranches.defects = [] := by
  decide +kernel

/-- It defines nothing but its parameters. -/
theorem entered_nestedBranches : nestedBranches.Entered := by
  rintro v (hv | ⟨d, hd, hv⟩) -
  · revert v
    decide
  · have hnone : ∀ b ∈ nestedBranches.ids, (nestedBranches.block b).definitions = [] := by
      decide +kernel
    rw [hnone d (Func.mem_ids.mpr hd)] at hv
    exact absurd hv (by simp)

/-- It uses nothing but its parameters. -/
theorem strict_nestedBranches : nestedBranches.Strict := by
  have huses : ∀ b ∈ nestedBranches.ids, ∀ w ∈ (nestedBranches.block b).uses,
      w ∈ nestedBranches.params.map some := by
    decide +kernel
  have hparam : ∀ b v, nestedBranches.owns b → some v ∈ (nestedBranches.block b).uses →
      v ∈ nestedBranches.params := by
    intro b v hb hv
    simpa using huses b (Func.mem_ids.mpr hb) (some v) hv
  refine ⟨fun b hb before i after hi v hv => Or.inl (hparam b v hb ?_),
    fun b hb t ht v hv => Or.inl (hparam b v hb ?_),
    fun b hb p hp q v hq => Or.inl (hparam b v hb ?_)⟩
  · exact Block.mem_uses_of_instr (by simp [hi]) hv
  · exact Block.mem_uses_of_term ht hv
  · exact Block.mem_uses_of_input hp hq

/-! ### Valid functions -/

/-- **Passes never break a valid function.** Every pass leaves a function without defects, strict or
not and whatever is cached, and one in strict form stays in strict form. So no pipeline fails on a
function that had no defects at its start, wherever the verifier stands in it.

That values are entered says no more than that a new value is new; it holds of every function that
was read (`BranchFusion.Source.entered_of_parse`), and passes keep it. -/
theorem passes_keep_valid (hv : fn.defects = []) (hentered : fn.Entered) :
    (∀ (p : Pass) strict cache, (p.run strict fn cache).fault = none ∧
      (p.run strict fn cache).func.defects = [] ∧ (p.run strict fn cache).func.Entered ∧
      (fn.Strict → (p.run strict fn cache).func.Strict)) ∧
    ∀ m : Manager, (∃ c, (m.runFunc fn).outcome = .ok c) ∧ (m.runFunc fn).funcs.defects = [] := by
  have hvalid := Func.defects_eq_nil_iff.mp hv
  refine ⟨fun p strict cache => ?_, fun m => ?_⟩
  · obtain ⟨hfault, hpv, hpe, hps⟩ := Pass.run_valid hvalid hentered p strict cache
    exact ⟨hfault, Func.defects_eq_nil_iff.mpr hpv, hpe, fun hs => (hps hs).1⟩
  · obtain ⟨c, hc, hmv, -⟩ := m.runFunc_keeps (Step.invariant_valid _) ⟨hvalid, hentered⟩
    exact ⟨⟨c, hc⟩, Func.defects_eq_nil_iff.mpr hmv⟩

/-- Folding the branches breaks nothing. -/
theorem nestedBranches_kept_valid :
    (Pass.nestedIf.run true nestedBranches none).func.defects = [] ∧
      (Pass.nestedIf.run true nestedBranches none).func.Strict := by
  have h := passes_keep_valid defects_nestedBranches entered_nestedBranches
  obtain ⟨-, hv, -, hs⟩ := h.1 .nestedIf true none
  exact ⟨hv, hs strict_nestedBranches⟩

end BranchFusion
