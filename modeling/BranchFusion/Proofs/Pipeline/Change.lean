import BranchFusion.Proofs.Optimizer
import BranchFusion.Proofs.Pass.Material
import BranchFusion.Proofs.Pipeline.Execution
import BranchFusion.Proofs.Source.Newlines

/-!
# A change is reported just when the text changes

The report of a pipeline is put together from the reports of its passes, over groups and over
functions. One direction is about each pass by itself: a pass that reports nothing leaves the
function as it is, and so does a run in which no pass reports anything
(`BranchFusion.Step.Executes.untouched`).

For the other direction two passes must not undo each other's work, in a text that does not show all
there is to a function. They cannot, since every pass that reports a change makes the function
smaller (`BranchFusion.Step.Executes.measure`), and the measure can be read off the text: it is the
number of newlines (`BranchFusion.Module.count_text`). For this the names must hold no newlines, and
they never do (`BranchFusion.Pass.tidy_run`): the passes take names from the function, or make up
new ones.
-/

namespace BranchFusion

open Source (Clean)

/-! ### Passes keep functions tidy -/

section Tidy

variable {fn fn' : Func}

theorem Func.clean_freeSuffix {taken : String → Bool} {base : String} (h : Clean base) :
    ∀ fuel i : Nat, Clean (Func.freeSuffix taken base fuel i)
  | 0, i => h.append (Source.clean_toString i)
  | fuel + 1, i => by
    rw [freeSuffix]
    split
    · exact clean_freeSuffix h fuel (i + 1)
    · exact h.append (Source.clean_toString i)

theorem Func.clean_freshName {wanted : String} (h : Clean wanted) :
    Clean (fn.freshName wanted) := by
  have hbase : Clean (if wanted = "" then "v" else wanted) := by
    split
    · decide
    · exact h
  rw [freshName]
  generalize (if wanted = "" then "v" else wanted) = base at hbase ⊢
  split
  · exact hbase
  · exact Func.clean_freeSuffix hbase _ _

/-- **An edit keeps a function tidy** if the new values have tidy names. -/
theorem Func.Tidy.of_madeFrom {new : List Value} (h : fn.Tidy) (hm : fn'.MadeFrom fn new)
    (hnew : ∀ v ∈ new, Clean v.name) : fn'.Tidy := by
  refine ⟨hm.name ▸ h.name, hm.params ▸ h.param, fun b => hm.label b ▸ h.label b,
    fun b hb it hit => ?_⟩
  have hdrawn := hm.item b hb it hit
  refine ⟨fun v hv => ?_, fun v hv => ?_, fun i hi f hf => ?_⟩
  · rcases hdrawn.result v hv with hv | ⟨c, hc, hv⟩
    · exact hnew v hv
    · rw [Block.definitions_eq] at hv
      obtain ⟨it', hit', hv⟩ := List.mem_flatMap.mp hv
      exact (h.item c hc it' hit').result v hv
  · rcases hdrawn.operand v hv with hv | ⟨c, hc, hv⟩
    · exact hnew v hv
    · rw [Block.uses_eq] at hv
      obtain ⟨it', hit', hv⟩ := List.mem_flatMap.mp hv
      exact (h.item c hc it' hit').operand v hv
  · obtain ⟨c, i', hc, hi', hf⟩ := hdrawn.callee i hi f hf
    exact (h.item c hc (.instr i') (by simpa [Block.items] using hi')).callee i' rfl f hf

/-- **A fold keeps a function tidy**: the name of the conjunction is a name with a number. -/
theorem NestedIf.Folded.tidy {b : BlockId} {n : Nest} {cond : Value} (h : Folded fn fn' b n cond)
    (hf : Found fn b n) (hw : fn.Wired) (hb : fn.owns b) (ht : fn.Tidy) : fn'.Tidy := by
  refine ht.of_madeFrom (h.madeFrom hf hw hb) fun v hv => ?_
  rw [List.mem_singleton.mp hv, h.cond_name]
  exact Func.clean_freshName (by decide)

theorem BlockMerge.Merged.tidy {b m : BlockId} (h : Merged fn fn' b m) (hm : Mergeable fn b m)
    (hw : fn.Wired) (hb : fn.owns b) (ht : fn.Tidy) : fn'.Tidy :=
  ht.of_madeFrom (h.madeFrom hm hw hb) (by simp)

theorem DeadCode.tidy_round (ht : fn.Tidy) : (round fn).Tidy :=
  ht.of_madeFrom madeFrom_round (by simp)

/-- **Every pass keeps a function tidy**, if it is well built. -/
theorem Pass.tidy_run (hfn : fn.WellBuilt) (ht : fn.Tidy) (p : Pass) (strict : Bool)
    (cache : Option AnalysisCache) : (p.run strict fn cache).func.Tidy := by
  cases p with
  | nestedIf =>
    obtain ⟨q, hq, -, htidy⟩ : ∃ q, (NestedIf.run strict fn cache).1 = .ok q ∧
        q.func.WellBuilt ∧ q.func.Tidy := NestedIf.run_induction
      (I := fun f _ _ => f.WellBuilt ∧ f.Tidy) (fun _ _ _ hI => hI.1.toWired)
      (fun f f' a k b n cond hI hb hfound _ hfolded =>
        ⟨hfolded.wellBuilt hfound hI.1 hb, hfolded.tidy hfound hI.1.toWired hb hI.2⟩) ⟨hfn, ht⟩
    rw [run_nestedIf hq]
    exact htidy
  | blockMerge =>
    obtain ⟨f', c, hrun, -, htidy⟩ := BlockMerge.run_induction
      (I := fun f => f.WellBuilt ∧ f.Tidy) (fun _ hI => hI.1.toWired)
      (fun f f' b m hI hb hm hmerged =>
        ⟨hmerged.wellBuilt hm hI.1 hb, hmerged.tidy hm hI.1.toWired hb hI.2⟩) ⟨hfn, ht⟩
    rw [Pass.run, hrun]
    exact htidy
  | deadCode =>
    exact DeadCode.rounds_induction (I := Func.Tidy) (fun _ hf => DeadCode.tidy_round hf)
      (fn.measure + 1) fn false ht

/-- So functions stay tidy, however many passes are run. -/
theorem Pass.tidy_runEach : ∀ (qs : List Request) {fn : Func}, fn.WellBuilt → fn.Tidy →
    ∀ r ∈ runEach qs fn, r.func.Tidy
  | [], _, _, _, r, hr => absurd hr (by simp [runEach])
  | q :: qs, fn, hfn, ht, r, hr => by
    have hrun := tidy_run hfn ht q.pass q.strict q.cache
    rcases List.mem_cons.mp hr with rfl | hr
    · exact hrun
    · exact tidy_runEach qs (improves_run hfn q.pass q.strict q.cache).wellBuilt hrun r hr

end Tidy

/-! ### Runs over one function -/

namespace Step

variable {o : Options} {s : RunState} {task : Task} {tr : List RunState}
  {r : Except RunStop (Bool × RunState)}

theorem Executes.tidy (h : Executes (runPass o.strict) o task s tr r) (hs : s.func.WellBuilt)
    (ht : s.func.Tidy) : (endState r).func.Tidy := by
  refine (h.invariant (J := fun s => s.func.WellBuilt ∧ s.func.Tidy) (fun name p s hs => ?_)
    (fun _ _ hs => hs) ⟨hs, ht⟩).2.2
  rw [runPass_of_wellBuilt hs.1]
  exact ⟨(Pass.improves_run hs.1 p o.strict _).wellBuilt, Pass.tidy_run hs.1 hs.2 p o.strict _⟩

/-- **An execution that reports no change has changed nothing**, and none was reported before. -/
theorem Executes.untouched (h : Executes (runPass o.strict) o task s tr r)
    (hs : s.func.WellBuilt) :
    ∀ s', r = .ok (false, s') → task.changed = false ∧ s'.func = s.func := by
  induction h with
  | pass name p s =>
    intro s' hr
    rw [runPass_of_wellBuilt hs] at hr
    obtain ⟨hc, rfl⟩ := Prod.mk.inj (Except.ok.inj hr)
    exact ⟨rfl, (Pass.improves_run hs p o.strict (some s.cache)).unchanged hc⟩
  | verify s =>
    intro s' hr
    rw [runVerify] at hr
    split at hr
    · obtain ⟨-, rfl⟩ := Prod.mk.inj (Except.ok.inj hr)
      exact ⟨rfl, rfl⟩
    · exact absurd hr (by simp)
  | times _ ih => exact ih hs
  | fixpoint _ ih => exact ih hs
  | allDone c s =>
    intro s' hr
    obtain ⟨rfl, rfl⟩ := Prod.mk.inj (Except.ok.inj hr)
    exact ⟨rfl, rfl⟩
  | allNext h _ ih ih' =>
    intro s' hr
    obtain ⟨hchanged, hfunc⟩ := ih' (h.wellBuilt hs).2.1 s' hr
    obtain ⟨hc, rfl⟩ := Bool.or_eq_false_iff.mp hchanged
    exact ⟨hc, hfunc.trans (ih hs _ rfl).2⟩
  | allStop => exact fun _ hr => absurd hr (by simp)
  | roundsDone body c s =>
    intro s' hr
    obtain ⟨rfl, rfl⟩ := Prod.mk.inj (Except.ok.inj hr)
    exact ⟨rfl, rfl⟩
  | roundsNext h _ ih ih' =>
    intro s' hr
    obtain ⟨hchanged, hfunc⟩ := ih' (h.wellBuilt hs).2.1 s' hr
    obtain ⟨hc, rfl⟩ := Bool.or_eq_false_iff.mp hchanged
    exact ⟨hc, hfunc.trans (ih hs _ rfl).2⟩
  | roundsStop => exact fun _ hr => absurd hr (by simp)
  | stableLimit =>
    intro s' hr
    obtain ⟨rfl, rfl⟩ := Prod.mk.inj (Except.ok.inj hr)
    exact ⟨rfl, rfl⟩
  | stableDone _ _ ih =>
    intro s' hr
    obtain ⟨rfl, rfl⟩ := Prod.mk.inj (Except.ok.inj hr)
    exact ⟨rfl, (ih hs _ rfl).2⟩
  | stableNext _ h _ _ ih' =>
    -- the rounds that are left start from a change
    intro s' hr
    exact absurd (ih' (h.wellBuilt hs).2.1 s' hr).1 (by simp [Task.changed])
  | stableStop => exact fun _ hr => absurd hr (by simp)

end Step

/-! ### Runs over functions -/

namespace Manager

/-- The sum of the measures. -/
def total (fns : List Func) : Nat := (fns.map Func.measure).sum

/-- **What a report says about functions** before and after a run: that nothing has changed, or that
they have become smaller, unless a change was reported before. -/
structure Tells (changed c : Bool) (fns fns' : List Func) : Prop where
  tidy : ∀ fn ∈ fns', fn.Tidy
  length : fns'.length = fns.length
  untouched : c = false → changed = false ∧ fns' = fns
  smaller : total fns' ≤ total fns ∧ (c = true → changed = true ∨ total fns' < total fns)

/-- One function more, which was run before the others. -/
theorem Tells.cons {changed c c' : Bool} {fn fn' : Func} {fns fns' : List Func}
    (h : Tells (changed || c') c fns fns') (htidy : fn'.Tidy)
    (hle : fn'.measure ≤ fn.measure) (hlt : c' = true → fn'.measure < fn.measure)
    (hsame : c' = false → fn' = fn) : Tells changed c (fn :: fns) (fn' :: fns') := by
  have hsum : ∀ (f : Func) (fs : List Func), total (f :: fs) = f.measure + total fs :=
    fun _ _ => List.sum_cons
  refine ⟨List.forall_mem_cons.mpr ⟨htidy, h.tidy⟩, congrArg (· + 1) h.length, fun hc => ?_, ?_⟩
  · obtain ⟨hchanged, rfl⟩ := h.untouched hc
    obtain ⟨hchanged, hc'⟩ := Bool.or_eq_false_iff.mp hchanged
    exact ⟨hchanged, congrArg (· :: fns') (hsame hc')⟩
  · obtain ⟨hle', hlt'⟩ := h.smaller
    rw [hsum, hsum]
    refine Step.smaller_of_parts (Nat.add_le_add_right hle (total fns))
      (fun hc => Nat.add_lt_add_right (hlt hc) _) ⟨Nat.add_le_add_left hle' _, fun hc => ?_⟩
    exact (hlt' hc).imp_right fun hless => Nat.add_lt_add_left hless _

/-- **A run over functions tells what it did.** -/
theorem runFuncs_tells : ∀ (fns : List Func) (m : Manager) (changed c : Bool),
    (∀ fn ∈ fns, fn.WellBuilt ∧ fn.Tidy) → (m.runFuncs changed fns).outcome = .ok c →
      Tells changed c fns (m.runFuncs changed fns).funcs
  | [], m, changed, c, _, h => by
    obtain rfl : changed = c := Except.ok.inj h
    exact ⟨by simp [runFuncs], rfl, fun hc => ⟨hc, rfl⟩, le_rfl, Or.inl⟩
  | fn :: fns, m, changed, c, hfns, h => by
    obtain ⟨⟨hwell, htidy⟩, hrest⟩ := List.forall_mem_cons.mp hfns
    obtain ⟨tr, hexec⟩ := Step.executes_runAll m.options m.steps false (m.startOn fn) hwell
    rw [runFuncs, m.runFunc_eq] at h ⊢
    generalize Step.runAll m.options m.steps false (m.startOn fn) = r at hexec h ⊢
    cases r with
    | error e => exact absurd h (by simp [Step.verdict])
    | ok r =>
      obtain ⟨c', s⟩ := r
      obtain ⟨hle, hlt⟩ := hexec.measure hwell c' s rfl
      have hmore := runFuncs_tells fns { m with cache := s.cache } (changed || c') c hrest h
      refine hmore.cons (hexec.tidy hwell htidy) hle ?_ ?_
      · exact fun hc => (hlt hc).resolve_left (by simp [Step.Task.changed])
      · rintro rfl
        exact (hexec.untouched hwell s rfl).2

end Manager

/-! ### Texts -/

namespace Optimizer

variable {src text : String} {m : Module} {reg : Registry} {o : Options} {changed : Bool}
  {counters : Counters}

/-- **What is behind a result**: a run over the functions that were read, and the text of what it
left. -/
theorem exists_run_of_optimize (hread : Module.parse src = .ok m)
    (h : (optimize reg o src).outcome = .ok (text, changed, counters)) :
    ∃ mgr, Manager.create reg o = .ok mgr ∧ (mgr.runFuncs false m.funcs).outcome = .ok changed ∧
      (optimizeModule reg o m).module = ⟨(mgr.runFuncs false m.funcs).funcs⟩ ∧
      text = (optimizeModule reg o m).module.text := by
  rw [optimize, hread] at h
  dsimp only at h
  rw [optimizeModule] at h ⊢
  cases hmgr : Manager.create reg o with
  | error e =>
    rw [hmgr] at h
    exact absurd h (by simp [Except.map])
  | ok mgr =>
    rw [hmgr] at h
    dsimp only at h
    cases hrun : (mgr.runFuncs false m.funcs).outcome with
    | error e =>
      rw [hrun] at h
      exact absurd h (by simp [Except.map, Except.mapError])
    | ok c =>
      rw [hrun] at h
      obtain ⟨rfl, hrest⟩ := Prod.mk.inj (Except.ok.inj h)
      obtain ⟨rfl, -⟩ := Prod.mk.inj hrest
      exact ⟨mgr, rfl, hrun, rfl, rfl⟩

/-- **The report of a change is exact.** Whenever the optimisation of a program text gives a result,
a change is reported if and only if the new text differs from the text of the program as it was
read; and if none is reported, the functions are what they were, down to the table of values. -/
theorem changed_iff_text_changes (hread : Module.parse src = .ok m)
    (h : (optimize reg o src).outcome = .ok (text, changed, counters)) :
    (changed = true ↔ text ≠ m.text) ∧
      (changed = false → (optimizeModule reg o m).module = m) := by
  obtain ⟨mgr, -, hrun, hmodule, rfl⟩ := exists_run_of_optimize hread h
  have hfns : ∀ fn ∈ m.funcs, fn.WellBuilt ∧ fn.Tidy := fun fn hfn =>
    ⟨Source.wellBuilt_of_parse hread fn hfn, Source.tidy_of_parse hread fn hfn⟩
  have htells := mgr.runFuncs_tells m.funcs false changed hfns hrun
  have huntouched : changed = false → (optimizeModule reg o m).module = m := fun hc => by
    rw [hmodule, (htells.untouched hc).2]
  refine ⟨⟨fun hc heq => ?_, fun hne => ?_⟩, huntouched⟩
  · -- the functions are smaller, and the text has as many newlines as before
    have hless := (htells.smaller.2 hc).resolve_left (by simp)
    have hcount := congrArg (fun text : String => text.toList.count '\n') heq
    rw [hmodule, Module.count_text htells.tidy, Module.count_text fun fn hfn => (hfns fn hfn).2,
      htells.length] at hcount
    dsimp only at hcount
    rw [Manager.total, Manager.total] at hless
    omega
  · cases changed with
    | true => rfl
    | false => exact absurd (congrArg Module.text (huntouched rfl)) hne

/-- What an optimisation reports, if it gives a result. -/
def reported? (r : TextResult) : Option Bool := (r.outcome.map fun r => r.2.1).toOption

theorem exists_result_of_reported? {r : TextResult} (h : reported? r = some changed) :
    ∃ text counters, r.outcome = .ok (text, changed, counters) := by
  rw [reported?] at h
  cases hr : r.outcome with
  | error e => simp [hr, Except.map, Except.toOption] at h
  | ok r =>
    obtain ⟨text, c, counters⟩ := r
    obtain rfl : c = changed := by simpa [hr, Except.map, Except.toOption] using h
    exact ⟨text, counters, rfl⟩

/-- Nested branches are folded, and the text shows it. The last pass finds nothing to remove and
reports no change, so the function is what it was. -/
theorem nestedText_change_reported :
    (∃ text counters, (optimize .builtin { pipeline := "nested-if-combine" } nestedText).outcome =
        .ok (text, true, counters) ∧ text ≠ Module.text ⟨[nestedBranches]⟩) ∧
      (optimizeModule .builtin { pipeline := "tdce" } ⟨[nestedBranches]⟩).module =
        ⟨[nestedBranches]⟩ := by
  have hfold : reported? (optimize .builtin { pipeline := "nested-if-combine" } nestedText) =
      some true := by decide +kernel
  have hkeep : reported? (optimize .builtin { pipeline := "tdce" } nestedText) = some false := by
    decide +kernel
  obtain ⟨text, counters, hresult⟩ := exists_result_of_reported? hfold
  obtain ⟨text', counters', hresult'⟩ := exists_result_of_reported? hkeep
  exact ⟨⟨text, counters, hresult, (changed_iff_text_changes parse_nestedText hresult).1.mp rfl⟩,
    (changed_iff_text_changes parse_nestedText hresult').2 rfl⟩

end Optimizer

end BranchFusion
