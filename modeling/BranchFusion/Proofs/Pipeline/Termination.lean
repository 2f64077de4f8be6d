import BranchFusion.Proofs.Pipeline.Execution
import BranchFusion.Proofs.Source.WellBuilt

/-!
# Pipelines come to an end

A group that runs until nothing changes comes to an end even if nobody limits its rounds, however
groups are nested. The reason is one number, the measure of the function: no pass makes it greater,
and a pass that reports a change makes it smaller. So the changes that are reported in a run and the
measure that is left are together at most the measure at the start
(`BranchFusion.Step.Executes.changes_le`), and the changes alone are no more than that.

`BranchFusion.Manager.every_run_ends` says this about every function that was read.
-/

namespace BranchFusion

/-- Whether an entry of the journal reports that a pass changed the function. -/
def JournalEntry.reportsChange : JournalEntry → Bool
  | .passFinished _ _ changed => changed
  | _ => false

/-- **The changes that a journal reports**: the passes that ended and changed the function. -/
def changes (journal : Array JournalEntry) : Nat :=
  journal.countP JournalEntry.reportsChange

/-! ### What passes report -/

namespace NestedIf

/-- The pass itself reports folds, and no changes. -/
theorem attempt_quiet {p p' : Progress} {c : Candidate} (h : attempt p c = .ok p')
    (hp : ∀ e ∈ p.journal, e.reportsChange = false) :
    ∀ e ∈ p'.journal, e.reportsChange = false := by
  have htries := tries_of_attempt h
  generalize folding? p c = o at htries
  cases htries with
  | stale => exact hp
  | rejected => exact hp
  | folded _ _ _ _ _ hjournal =>
    intro e he
    rw [hjournal] at he
    rcases List.mem_append.mp he with he | he
    · exact hp e he
    · rw [List.mem_singleton.mp he]
      rfl

theorem attemptAll_quiet : ∀ {cs : List Candidate} {p p' : Progress}, attemptAll p cs = .ok p' →
    (∀ e ∈ p.journal, e.reportsChange = false) → ∀ e ∈ p'.journal, e.reportsChange = false
  | [], p, p', h, hp => by
    obtain rfl := Except.ok.inj h
    exact hp
  | c :: cs, p, p', h, hp => by
    rw [attemptAll] at h
    cases hc : attempt p c with
    | error e => simp [hc] at h
    | ok q =>
      simp only [hc] at h
      exact attemptAll_quiet h (attempt_quiet hc hp)

end NestedIf

/-- A pass reports no changes in its own part of the journal. -/
theorem Pass.quiet_run {fn : Func} (hfn : fn.WellBuilt) (p : Pass) (strict : Bool)
    (cache : Option AnalysisCache) :
    ∀ e ∈ (p.run strict fn cache).journal, e.reportsChange = false := by
  cases p with
  | nestedIf =>
    obtain ⟨q, hq, -⟩ := NestedIf.run_wellBuilt hfn strict cache
    have hstart : (NestedIf.start strict fn cache).1.journal = [] := by
      rw [NestedIf.start]
      split <;> rfl
    rw [Pass.run_nestedIf hq]
    refine NestedIf.attemptAll_quiet (p := (NestedIf.start strict fn cache).1) hq ?_
    simp [hstart]
  | blockMerge =>
    obtain ⟨f', c, hrun, -⟩ := BlockMerge.run_wellBuilt hfn
    rw [Pass.run, hrun]
    simp
  | deadCode => simp [Pass.run]

namespace Step

variable {o : Options} {s : RunState}

/-- After a pass one more change is reported if there was one. -/
theorem changes_afterPass (hs : s.func.WellBuilt) (name : String) (p : Pass) (strict : Bool) :
    changes (afterPass name (p.run strict s.func (some s.cache)) s).journal =
      changes s.journal + if (p.run strict s.func (some s.cache)).changed then 1 else 0 := by
  have hquiet := Pass.quiet_run hs p strict (some s.cache)
  have hnone : ((p.run strict s.func (some s.cache)).journal.toArray).countP
      JournalEntry.reportsChange = 0 := by
    rw [List.countP_toArray, List.countP_eq_zero]
    intro e he
    simp [hquiet e he]
  rw [changes, afterPass, Array.countP_push, Array.countP_append, hnone]
  rfl

/-- **The changes reported so far and the measure that is left** are together at most what they were
at the start. -/
theorem Executes.changes_le {task : Task} {tr : List RunState}
    {r : Except RunStop (Bool × RunState)} (h : Executes (runPass o.strict) o task s tr r)
    (hs : s.func.WellBuilt) : changes (endState r).journal + (endState r).func.measure ≤
      changes s.journal + s.func.measure := by
  have hend := h.invariant (J := fun s' => s'.func.WellBuilt ∧
    changes s'.journal + s'.func.measure ≤ changes s.journal + s.func.measure) ?pass ?giveUp
    ⟨hs, le_rfl⟩
  · exact hend.2.2
  case pass =>
    rintro name p s' ⟨hs', hle⟩
    have himproves := Pass.improves_run hs' p o.strict (some s'.cache)
    rw [runPass_of_wellBuilt hs', endState]
    refine ⟨himproves.wellBuilt, le_trans ?_ hle⟩
    rw [changes_afterPass hs']
    cases hc : (p.run o.strict s'.func (some s'.cache)).changed with
    | true =>
      -- one change more is reported, and the measure is smaller
      have hless := himproves.smaller hc
      simp only [if_true, afterPass]
      omega
    | false =>
      rw [afterPass, himproves.unchanged hc]
      simp
  case giveUp =>
    rintro s' done ⟨hs', hle⟩
    refine ⟨hs', le_trans (Nat.add_le_add_right ?_ _) hle⟩
    rw [changes, giveUp, Array.countP_push]
    exact le_rfl

end Step

/-! ### Runs without a limit -/

/-- The loops inside of passes come to an end by themselves: with a higher bound on the sweeps or
the rounds, the result is the same. -/
structure Pass.LoopsEnd (fn : Func) : Prop where
  merge : ∀ more, BlockMerge.sweeps (fn.ids.length + 1 + more) fn false = BlockMerge.run fn
  dead : ∀ more, DeadCode.rounds (fn.measure + 1 + more) fn false = DeadCode.run fn

theorem Pass.loopsEnd {fn : Func} (hfn : fn.WellBuilt) : Pass.LoopsEnd fn :=
  ⟨fun more => BlockMerge.sweeps_of_fuel _ more fn false hfn.toWired (Nat.lt_succ_self _),
    fun more => DeadCode.rounds_of_fuel _ more fn false (Nat.lt_succ_self _)⟩

/-- **Every pipeline comes to an end, with or without a limit on the rounds.** Over a function that
was read, whatever steps a manager has and however its groups are nested, there is an execution, and
the manager gives its result. At every boundary the loops inside of passes end too, and a pass that
reports a change makes the sum over the live blocks of their sizes and one smaller; so the run
reports at most as many changes as this sum was at the start.

Without a limit, which is what `maxRounds = 0` stands for, nothing in an execution ends a group but
a round that changes nothing. -/
theorem Manager.every_run_ends {src : String} {serial : Nat} {m : Module} {fn : Func}
    (hread : Module.parse src serial = .ok m) (hfn : fn ∈ m.funcs) (mgr : Manager) :
    (∃ tr, Step.Executes (Step.runPass mgr.options.strict) mgr.options (.all mgr.steps false)
        (mgr.startOn fn) tr (Step.runAll mgr.options mgr.steps false (mgr.startOn fn)) ∧
      ∀ s ∈ mgr.startOn fn :: tr, Pass.LoopsEnd s.func ∧ ∀ (p : Pass) cache,
        (p.run mgr.options.strict s.func cache).changed = true →
          (p.run mgr.options.strict s.func cache).func.measure < s.func.measure) ∧
      changes (mgr.runFunc fn).journal ≤ (fn.ids.map fun b => (fn.block b).size + 1).sum := by
  have hwell := Source.wellBuilt_of_parse hread fn hfn
  obtain ⟨tr, h⟩ := Step.executes_runAll mgr.options mgr.steps false (mgr.startOn fn) hwell
  refine ⟨⟨tr, h, fun s hs => ?_⟩, ?_⟩
  · have hs' : s.func.WellBuilt := by
      rcases List.mem_cons.mp hs with rfl | hs
      · exact hwell
      · exact ((h.wellBuilt hwell).1 s hs).1
    exact ⟨Pass.loopsEnd hs', fun p cache => (Pass.improves_run hs' p _ cache).smaller⟩
  · rw [← Func.measure_eq_sum, mgr.runFunc_eq]
    have hle := h.changes_le hwell
    have hzero : changes (mgr.startOn fn).journal = 0 := rfl
    rw [hzero, Nat.zero_add] at hle
    exact (Nat.le_add_right _ _).trans hle

/-- A manager with groups in a group, and no limit on the rounds. -/
def Manager.nestedGroups : Manager where
  options := { strict := true, maxRounds := 0 }
  text := "fixpoint(repeat<2>(nested-if-combine),fixpoint(block-merge,tdce))"
  steps := [.fixpoint [.times 2 [.pass "nested-if-combine" .nestedIf],
    .fixpoint [.pass "block-merge" .blockMerge, .pass "tdce" .deadCode]]]

/-- It comes to an end over a function that the verifier rejects, with at most one change for each
unit of its measure. -/
theorem Manager.nestedGroups_ends :
    (∃ tr, Step.Executes (Step.runPass true) nestedGroups.options (.all nestedGroups.steps false)
        (nestedGroups.startOn tangled) tr
        (Step.runAll nestedGroups.options nestedGroups.steps false
          (nestedGroups.startOn tangled))) ∧
      changes (nestedGroups.runFunc tangled).journal ≤ 13 := by
  have hmem : tangled ∈ [tangled] := List.mem_singleton_self tangled
  obtain ⟨⟨tr, htr, -⟩, hle⟩ := every_run_ends parse_tangledText hmem nestedGroups
  exact ⟨⟨tr, htr⟩, hle⟩

end BranchFusion
