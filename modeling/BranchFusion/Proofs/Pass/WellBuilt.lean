import BranchFusion.Pass.Basic
import BranchFusion.Proofs.Pass.BlockMerge
import BranchFusion.Proofs.Pass.DeadCode
import BranchFusion.Proofs.Pass.NestedIf
import BranchFusion.Proofs.Source.WellBuilt
import Mathlib.Data.List.Flatten

/-!
# Passes over well-built functions

A function that was read is well built, whatever the verifier says about it, and so is all that the
passes make of it. Here phis may lack inputs and blocks may be out of reach, so nothing is known
about what a function does; but its edges are counted right, and that is what the edits of a pass
rely on. No pass meets a fault, and this goes on for as many passes as are run
(`BranchFusion.Pass.runs_never_fault`).

The other thing that every pass has in common is that it makes a function smaller or leaves it
alone, and says which. A fold adds an instruction and removes a block with its terminator, a merge
removes a block and a jump, and a round of the last pass removes instructions.
`BranchFusion.Pass.Improves` says all of this about the result of a run, and
`BranchFusion.Pass.improves_run` proves it.

The loops inside of passes are bounded by the size of the function, and the bounds are never met
(`BranchFusion.BlockMerge.sweeps_of_fuel` and `BranchFusion.DeadCode.rounds_of_fuel`).
-/

namespace BranchFusion

/-- **`fn'` is a smaller function than `fn`**, well built as `fn` is. -/
structure Func.Shrinks (fn fn' : Func) : Prop where
  wellBuilt : fn'.WellBuilt
  serial : fn'.serial = fn.serial
  measure : fn'.measure < fn.measure

theorem Func.Shrinks.trans {fn fn' fn'' : Func} (h : fn.Shrinks fn') (h' : fn'.Shrinks fn'') :
    fn.Shrinks fn'' :=
  ⟨h'.wellBuilt, h'.serial.trans h.serial, h'.measure.trans h.measure⟩

/-! ### Folds -/

namespace NestedIf

variable {fn fn' : Func} {b x : BlockId} {n : Nest} {cond : Value}

theorem ordered_reroute {p : Phi} (hp : p.Ordered) : (reroute b n x p).Ordered := by
  have hmove : (if x = n.target then p.moveInput n.middle b else p).Ordered := by
    split
    · exact hp.moveInput
    · exact hp
  rw [reroute]
  split
  · exact hmove.dropInput
  · exact hmove

theorem Folded.definedValues_perm (h : Folded fn fn' b n cond) (hf : Found fn b n)
    (hw : fn.Wired) (hb : fn.owns b) : fn'.definedValues.Perm ([cond] ++ fn.definedValues) := by
  refine Func.definedValues_perm_of_removed h.params hb (hf.owned hw hb).1 (Ne.symm hf.middle_ne)
    h.owns (h.definitions_eq hf) fun x _ hxb hxm => h.definitions_of_ne hxb hxm

/-- **A fold keeps a function well built.** -/
theorem Folded.wellBuilt (h : Folded fn fn' b n cond) (hf : Found fn b n) (hfn : fn.WellBuilt)
    (hb : fn.owns b) : fn'.WellBuilt := by
  have hperm := h.definedValues_perm hf hfn.toWired hb
  refine
    { h.wired hf hfn.toWired hb with
      nodup := ?nodup
      entered := h.entered hf hfn.entered
      sorted := ?sorted }
  case nodup =>
    -- the conjunction is a new value: its number is the size of the table
    refine hperm.nodup_iff.mpr (List.nodup_cons.mpr ⟨fun hmem => ?_, hfn.nodup⟩)
    exact h.not_defined hfn.entered (Func.mem_definedValues.mp hmem)
  case sorted =>
    refine ⟨fun x hx p hp => ?_, fun x hx t ht => ?_⟩
    all_goals obtain ⟨hxo, hxm⟩ := (h.owns x).mp hx
    · rw [h.phis x hxm] at hp
      obtain ⟨q, hq, rfl⟩ := List.mem_map.mp hp
      exact ordered_reroute (hfn.sorted.phi x hxo q hq)
    · rw [h.term x hxm] at ht
      split at ht
      · rw [← Option.some.inj ht]
        exact trivial
      · exact hfn.sorted.term x hxo t ht

/-- **A fold makes a function smaller by one**: the middle block was a branch and nothing else, and
the outer block gets the conjunction. -/
theorem Folded.measure (h : Folded fn fn' b n cond) (hf : Found fn b n) (hw : fn.Wired)
    (hb : fn.owns b) : fn'.measure + 1 = fn.measure := by
  have hbm : b ≠ n.middle := Ne.symm hf.middle_ne
  have hlength : ∀ x, x ≠ n.middle → (fn'.block x).phis.length = (fn.block x).phis.length :=
    fun x hx => by rw [h.phis x hx, List.length_map]
  have hrest : ∀ x, fn.owns x → x ≠ b → x ≠ n.middle →
      (fn'.block x).size = (fn.block x).size := by
    intro x _ hxb hxm
    rw [Block.size, Block.size, hlength x hxm, h.instrs x hxm, h.term x hxm, if_neg hxb,
      if_neg hxb]
  have hmid : (fn.block n.middle).size = 1 := by
    simp [Block.size, hf.no_phis, hf.no_instrs, hf.inner_term]
  have houter : (fn'.block b).size = (fn.block b).size + 1 := by
    rw [Block.size, Block.size, hlength b hbm, h.instrs b hbm, h.term b hbm, hf.outer_term]
    simp only [if_true, List.length_append, List.length_singleton, Option.isSome_some]
    omega
  have hsum := Func.measure_of_removed hb (hf.owned hw hb).1 hbm h.owns hrest
  omega

/-- **A run of the pass** folds as often as it counts, and every fold makes the function smaller. -/
theorem run_wellBuilt (hfn : fn.WellBuilt) (strict : Bool) (cache : Option AnalysisCache) :
    ∃ p, (run strict fn cache).1 = .ok p ∧ p.func.WellBuilt ∧ p.func.serial = fn.serial ∧
      0 ≤ p.counters.combined ∧ (p.func.measure : Int) + p.counters.combined = fn.measure ∧
      (p.counters.combined = 0 → p.func = fn) := by
  -- the number of folds so far is what the measure has lost
  refine run_induction (I := fun f _ k => f.WellBuilt ∧ f.serial = fn.serial ∧ 0 ≤ k ∧
    (f.measure : Int) + k = fn.measure ∧ (k = 0 → f = fn)) ?_ ?_ ?_
  · exact fun f _ _ hI => hI.1.toWired
  · rintro f f' a k b n cond ⟨hf, hserial, hk, hmeasure, -⟩ hb hfound - hfolded
    have hless := hfolded.measure hfound hf.toWired hb
    refine ⟨hfolded.wellBuilt hfound hf hb, hfolded.serial.trans hserial, by omega, by omega, ?_⟩
    intro hzero
    omega
  · exact ⟨hfn, rfl, le_refl 0, by simp, fun _ => rfl⟩

end NestedIf

/-! ### Merges -/

namespace BlockMerge

variable {fn fn' : Func} {b m : BlockId}

theorem Merged.definedValues_perm (h : Merged fn fn' b m) (hm : Mergeable fn b m)
    (hw : fn.Wired) (hb : fn.owns b) : fn'.definedValues.Perm ([] ++ fn.definedValues) := by
  refine Func.definedValues_perm_of_removed h.params hb (hm.owned hw hb) (Ne.symm hm.ne) h.owns
    (h.definitions_eq hm) fun x _ hxb hxm => ?_
  rw [Block.definitions, Block.definitions, h.results_phis hxm, h.instrs x hxm, if_neg hxb]

/-- **A merge keeps a function well built.** -/
theorem Merged.wellBuilt (h : Merged fn fn' b m) (hm : Mergeable fn b m) (hfn : fn.WellBuilt)
    (hb : fn.owns b) : fn'.WellBuilt := by
  have hperm := h.definedValues_perm hm hfn.toWired hb
  refine
    { h.wired hm hfn.toWired hb with
      nodup := hperm.nodup_iff.mpr hfn.nodup
      entered := hfn.entered.of_perm h.serial (by rw [h.values]) hperm (by simp)
      sorted := ⟨fun x hx p hp => ?phi, fun x hx t ht => ?term⟩ }
  case phi =>
    obtain ⟨hxo, hxm⟩ := (h.owns x).mp hx
    rw [h.phis x hxm] at hp
    split at hp
    · obtain ⟨q, hq, rfl⟩ := List.mem_map.mp hp
      exact (hfn.sorted.phi x hxo q hq).moveInput
    · exact hfn.sorted.phi x hxo p hp
  case term =>
    obtain ⟨hxo, hxm⟩ := (h.owns x).mp hx
    rw [h.term x hxm] at ht
    split at ht
    · exact hfn.sorted.term m (hm.owned hfn.toWired hb) t ht
    · exact hfn.sorted.term x hxo t ht

/-- **A merge makes a function smaller by two**: a block is gone, and the jump to it. -/
theorem Merged.measure (h : Merged fn fn' b m) (hm : Mergeable fn b m) (hw : fn.Wired)
    (hb : fn.owns b) : fn'.measure + 2 = fn.measure := by
  have hbm : b ≠ m := Ne.symm hm.ne
  have hown := hm.owned hw hb
  have hlength : ∀ x, x ≠ m → (fn'.block x).phis.length = (fn.block x).phis.length := by
    intro x hx
    rw [h.phis x hx]
    split <;> simp
  have hrest : ∀ x, fn.owns x → x ≠ b → x ≠ m → (fn'.block x).size = (fn.block x).size := by
    intro x _ hxb hxm
    rw [Block.size, Block.size, hlength x hxm, h.instrs x hxm, h.term x hxm, if_neg hxb,
      if_neg hxb]
  have hheir : (fn'.block b).size + 1 = (fn.block b).size + (fn.block m).size := by
    rw [Block.size, Block.size, Block.size, hlength b hbm, h.instrs b hbm, h.term b hbm, hm.term,
      hm.no_phis]
    simp only [if_true, List.length_append, List.length_nil, Option.isSome_some,
      hw.terminated m hown]
    omega
  have hsum := Func.measure_of_removed hb hown hbm h.owns hrest
  omega

theorem MergeStep.shrinks (h : MergeStep fn fn') (hfn : fn.WellBuilt) : fn.Shrinks fn' := by
  obtain ⟨b, m, hb, hm, hmerged⟩ := h
  have hless := hmerged.measure hm hfn.toWired hb
  exact ⟨hmerged.wellBuilt hm hfn hb, hmerged.serial, by omega⟩

theorem shrinks_of_merges (h : Relation.TransGen MergeStep fn fn') (hfn : fn.WellBuilt) :
    fn.Shrinks fn' := by
  induction h with
  | single h => exact h.shrinks hfn
  | tail _ h ih => exact ih.trans (h.shrinks ih.wellBuilt)

/-- **A run of the pass** leaves the function alone, or makes it smaller. -/
theorem run_wellBuilt (hfn : fn.WellBuilt) :
    ∃ f' c, run fn = .ok (f', c) ∧ (f' = fn ∧ c = false ∨ fn.Shrinks f' ∧ c = true) := by
  obtain ⟨f', c, hrun, hcases⟩ := sweeps_cases (fn.ids.length + 1) fn false hfn.toWired
  exact ⟨f', c, hrun, hcases.imp_right fun h => ⟨shrinks_of_merges h.1 hfn, h.2⟩⟩

theorem MergeStep.length_ids (h : MergeStep fn fn') (hw : fn.Wired) :
    fn'.ids.length + 1 = fn.ids.length := by
  obtain ⟨b, m, hb, hm, hmerged⟩ := h
  exact Func.length_ids_of_removed hb (hm.owned hw hb) (Ne.symm hm.ne) hmerged.owns

theorem length_ids_of_merges (h : Relation.TransGen MergeStep fn fn') (hw : fn.Wired) :
    fn'.ids.length < fn.ids.length := by
  induction h with
  | single h =>
    have := h.length_ids hw
    omega
  | tail hmerges h ih =>
    have := h.length_ids (wired_of_merges hmerges hw)
    omega

/-- **The bound on the sweeps is never met**: with more of them the result is the same. -/
theorem sweeps_of_fuel : ∀ (fuel more : Nat) (f : Func) (changed : Bool), f.Wired →
    f.ids.length < fuel → sweeps (fuel + more) f changed = sweeps fuel f changed
  | 0, _, _, _, _, hfuel => absurd hfuel (by simp)
  | fuel + 1, more, f, changed, hw, hfuel => by
    obtain ⟨f', again, hf', hcases⟩ := sweep_cases f.ids f false hw
      fun b hb => Func.func_of_owns (Func.mem_ids.mp hb)
    rw [Nat.add_right_comm, sweeps, sweeps, hf']
    rcases hcases with ⟨rfl, rfl⟩ | ⟨hmerges, rfl⟩
    · rfl
    · -- a sweep that merges removes a block
      have hless := length_ids_of_merges hmerges hw
      exact sweeps_of_fuel fuel more f' true (wired_of_merges hmerges hw) (by omega)

end BlockMerge

/-! ### Rounds -/

namespace DeadCode

variable {fn : Func}

/-- A round defines some of what was defined. -/
theorem definedValues_round : (round fn).definedValues.Sublist fn.definedValues := by
  rw [Func.definedValues, Func.definedValues, ids_round]
  refine List.Sublist.append (List.Sublist.refl _) (List.Sublist.flatMap_right _ fun b hb => ?_)
  exact definitions_round (Func.mem_ids.mp hb)

/-- **A round keeps a function well built.** -/
theorem wellBuilt_round (hfn : fn.WellBuilt) : (round fn).WellBuilt := by
  refine
    { wired_round hfn.toWired with
      nodup := hfn.nodup.sublist definedValues_round
      entered := entered_round hfn.entered
      sorted := ⟨fun b hb p hp => ?phi, fun b hb t ht => ?term⟩ }
  all_goals rw [owns_round] at hb
  case phi =>
    rw [block_round hb] at hp
    exact hfn.sorted.phi b hb p (List.mem_filter.mp hp).1
  case term =>
    rw [term_round] at ht
    exact hfn.sorted.term b hb t ht

/-- Rounds leave the function alone, or make it smaller and say so. -/
theorem rounds_cases (fuel : Nat) {f : Func} (changed : Bool) (hf : f.WellBuilt) :
    rounds fuel f changed = (f, changed) ∨
      f.Shrinks (rounds fuel f changed).1 ∧ (rounds fuel f changed).2 = true := by
  refine (rounds_measure fuel f changed).imp_right fun ⟨hless, hc⟩ => ⟨?_, hc⟩
  obtain ⟨hwell, hserial⟩ := rounds_induction (I := fun g => g.WellBuilt ∧ g.serial = f.serial)
    (fun g hg => ⟨wellBuilt_round hg.1, hg.2⟩) fuel f changed ⟨hf, rfl⟩
  exact ⟨hwell, hserial, hless⟩

/-- **The bound on the rounds is never met**: with more of them the result is the same. -/
theorem rounds_of_fuel : ∀ (fuel more : Nat) (f : Func) (changed : Bool),
    f.measure < fuel → rounds (fuel + more) f changed = rounds fuel f changed
  | 0, _, _, _, hfuel => absurd hfuel (by simp)
  | fuel + 1, more, f, changed, hfuel => by
    rw [Nat.add_right_comm, rounds, rounds]
    split
    · exact rounds_of_fuel fuel more (round f) true (by omega)
    · rfl

end DeadCode

/-! ### Every pass -/

namespace Pass

variable {fn : Func}

/-- **What a run of a pass comes to**: there is no fault, the function is well built, and it is the
function there was or a smaller one, as the flag says. -/
structure Improves (fn : Func) (r : PassRun) : Prop where
  fault : r.fault = none
  wellBuilt : r.func.WellBuilt
  serial : r.func.serial = fn.serial
  unchanged : r.changed = false → r.func = fn
  smaller : r.changed = true → r.func.measure < fn.measure

theorem improves_of_cases (hfn : fn.WellBuilt) {r : PassRun} (hfault : r.fault = none)
    (h : r.func = fn ∧ r.changed = false ∨ fn.Shrinks r.func ∧ r.changed = true) :
    Improves fn r := by
  rcases h with ⟨hfunc, hc⟩ | ⟨hless, hc⟩
  · exact ⟨hfault, hfunc ▸ hfn, by rw [hfunc], fun _ => hfunc, fun h => by simp [hc] at h⟩
  · exact ⟨hfault, hless.wellBuilt, hless.serial, fun h => by simp [hc] at h,
      fun _ => hless.measure⟩

/-- **Every pass improves a well-built function**, strict or not, and whatever is cached. -/
theorem improves_run (hfn : fn.WellBuilt) (p : Pass) (strict : Bool)
    (cache : Option AnalysisCache) : Improves fn (p.run strict fn cache) := by
  cases p with
  | nestedIf =>
    obtain ⟨q, hq, hwell, hserial, hk, hmeasure, hzero⟩ :=
      NestedIf.run_wellBuilt hfn strict cache
    rw [run_nestedIf hq]
    refine improves_of_cases hfn rfl ?_
    by_cases hc : q.counters.combined = 0
    · exact Or.inl ⟨hzero hc, by simp [hc]⟩
    · have hless : q.func.measure < fn.measure := by omega
      exact Or.inr ⟨⟨hwell, hserial, hless⟩, by simp [hc]⟩
  | blockMerge =>
    obtain ⟨f', c, hrun, hcases⟩ := BlockMerge.run_wellBuilt hfn
    have heq : Pass.run .blockMerge strict fn cache = { func := f', cache, changed := c } := by
      rw [Pass.run, hrun]
    rw [heq]
    exact improves_of_cases hfn rfl hcases
  | deadCode =>
    refine improves_of_cases hfn rfl ?_
    rcases DeadCode.rounds_cases (fn.measure + 1) false hfn with hrun | h
    · have heq : DeadCode.run fn = (fn, false) := hrun
      rw [Pass.run, heq]
      exact Or.inl ⟨rfl, rfl⟩
    · exact Or.inr h

/-! ### Passes one after the other -/

/-- A pass to be run: whether it has to be strict, and the analyses that it may ask. -/
structure Request where
  pass : Pass
  strict : Bool := false
  cache : Option AnalysisCache := none

/-- **Passes run one after the other**, each over what the one before it has left. -/
def runEach : List Request → Func → List PassRun
  | [], _ => []
  | q :: qs, fn =>
    let r := q.pass.run q.strict fn q.cache
    r :: runEach qs r.func

/-- Every run starts from a well-built function, since the run before has left one. -/
theorem wellBuilt_runEach : ∀ (qs : List Request) {fn : Func}, fn.WellBuilt →
    ∀ r ∈ runEach qs fn, r.fault = none ∧ r.func.WellBuilt
  | [], _, _, r, hr => absurd hr (by simp [runEach])
  | q :: qs, fn, hfn, r, hr => by
    have himproves := improves_run hfn q.pass q.strict q.cache
    rcases List.mem_cons.mp hr with rfl | hr
    · exact ⟨himproves.fault, himproves.wellBuilt⟩
    · exact wellBuilt_runEach qs himproves.wellBuilt r hr

/-- **No pass meets a fault, on any function that was read**, be it rejected by the verifier.
However many passes are run over it and in whatever order, after each of them the function is wired:
its entry is live, its live blocks are terminated and lead to live blocks, and every predecessor
list has a block as often as there are edges from it. And no value is defined twice. -/
theorem runs_never_fault {src : String} {serial : Nat} {m : Module}
    (hread : Module.parse src serial = .ok m) (hfn : fn ∈ m.funcs) (qs : List Request) :
    ∀ r ∈ runEach qs fn, r.fault = none ∧ r.func.Wired ∧ r.func.definedValues.Nodup := by
  intro r hr
  have hwell := Source.wellBuilt_of_parse hread fn hfn
  obtain ⟨hfault, hr⟩ := wellBuilt_runEach qs hwell r hr
  exact ⟨hfault, hr.toWired, hr.nodup⟩

/-- A function that the verifier rejects. Folding takes the nested branches, merging chases the
jumps around the cycle that is out of reach, and then there is nothing left to do. -/
theorem tangled_runs_never_fault : tangled.defects ≠ [] ∧
    (runEach [⟨.nestedIf, true, none⟩, ⟨.blockMerge, false, none⟩, ⟨.deadCode, false, none⟩,
      ⟨.nestedIf, false, none⟩] tangled).map PassRun.changed = [true, true, false, false] ∧
    ∀ r ∈ runEach [⟨.nestedIf, true, none⟩, ⟨.blockMerge, false, none⟩, ⟨.deadCode, false, none⟩,
      ⟨.nestedIf, false, none⟩] tangled,
      r.fault = none ∧ r.func.Wired ∧ r.func.definedValues.Nodup :=
  ⟨defects_tangled, by decide +kernel, runs_never_fault parse_tangledText (by simp) _⟩

end Pass

end BranchFusion
