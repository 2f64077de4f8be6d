import BranchFusion.Proofs.Pass.Renaming
import BranchFusion.Proofs.Pipeline.Independence

/-!
# Pipelines do not see numbers

The verifier finds the same defects in a function and in its twin, and words them in the same way
(`BranchFusion.Func.Twin.defects`, `BranchFusion.Func.Twin.message`). So an execution of a pipeline
over a function can be followed step by step over its twin (`BranchFusion.Step.Executes.twin`), and
a run over functions over their twins (`BranchFusion.Manager.Recomputes.twin`): counters, journals
and outcomes are the same, and what is left are twins again. The executions are those without a
cache; a manager that is created for a module reports nothing else.
-/

namespace BranchFusion

open Func (Twin Renumbers)

variable {ν : Value → Value} {fn fn' : Func}

/-! ### The verifier -/

/-- A defect that is about other values. -/
def Defect.rename (ν : Value → Value) : Defect → Defect
  | .strayInput b r p => .strayInput b (r.map ν) p
  | .missingInput b r p => .missingInput b (r.map ν) p
  | .redefinition b v => .redefinition b (v.map ν)
  | .undefinedUse b v => .undefinedUse b (v.map ν)
  | d => d

namespace Func.Twin

theorem message (h : Twin ν fn fn') (hν : Renumbers ν) (d : Defect) :
    (d.rename ν).message fn' = d.message fn := by
  have hblock : (d.rename ν).block? = d.block? := by cases d <;> rfl
  have hreason : (d.rename ν).reason fn' = d.reason fn := by
    have hlabel := h.label
    have htext : ∀ v : Option Value, Value.textOf? (v.map ν) = Value.textOf? v
      | none => rfl
      | some v => Value.text_rename hν.name v
    cases d with
    | missingEntry => rfl
    | notTerminated b => rfl
    | foreignBranch b t => exact congrArg (_ ++ · t) hlabel
    | edgeCount b p n m => exact congrArg (_ ++ · p ++ _ ++ _ ++ _) hlabel
    | stalePredecessor b p n => exact congrArg (_ ++ · p ++ _ ++ _ ++ _) hlabel
    | strayInput b r p => exact congrArg₂ (· ++ _ ++ · p ++ _) (htext r) hlabel
    | missingInput b r p => exact congrArg₂ (· ++ _ ++ · p) (htext r) hlabel
    | redefinition b v => exact congrArg (_ ++ ·) (htext v)
    | undefinedUse b v => exact congrArg (_ ++ ·) (htext v)
    | unreachable b => rfl
  unfold Defect.message
  rw [hblock, hreason, h.name, h.label]

theorem termDefects (h : Twin ν fn fn') :
    fn'.termDefects = fn.termDefects.map (Defect.rename ν) := by
  rw [Func.termDefects, Func.termDefects, h.ids, List.map_flatMap]
  refine List.flatMap_congr fun b _ => ?_
  have hterm : (fn'.block b).term.isNone = (fn.block b).term.isNone := by
    rw [h.block, Block.rename, Option.isNone_map]
  rw [hterm, h.successors, h.owns]
  split_ifs
  · rfl
  · rw [List.map_map]
    rfl

theorem edgeDefects (h : Twin ν fn fn') :
    fn'.edgeDefects = fn.edgeDefects.map (Defect.rename ν) := by
  have hedges : fn'.liveEdges = fn.liveEdges := by
    simp only [liveEdges, h.ids, h.successors, h.owns]
  have hentries : fn'.predEntries = fn.predEntries := by
    simp only [predEntries, h.ids, h.block]
    rfl
  -- no such defect is about a value
  simp only [Func.edgeDefects, hedges, hentries, List.map_append, List.map_filterMap]
  congr 1
  · refine List.filterMap_congr fun e _ => ?_
    split_ifs <;> rfl
  · refine List.filterMap_congr fun e _ => ?_
    split_ifs <;> rfl

theorem phiDefects (h : Twin ν fn fn') :
    fn'.phiDefects = fn.phiDefects.map (Defect.rename ν) := by
  rw [Func.phiDefects, Func.phiDefects, h.ids, List.map_flatMap]
  refine List.flatMap_congr fun b _ => ?_
  rw [h.block, Block.rename]
  simp only [List.flatMap_map, List.map_flatMap, List.map_append, List.map_map, Phi.keys_rename,
    Phi.has_rename]
  rfl

theorem definitionSites (h : Twin ν fn fn') :
    fn'.definitionSites = fn.definitionSites.map (Prod.map id (Option.map ν)) := by
  rw [Func.definitionSites, Func.definitionSites, h.ids, List.map_flatMap]
  refine List.flatMap_congr fun b _ => ?_
  rw [h.block, Block.defined_eq, Block.definitions_rename, Block.defined_eq]
  simp only [List.map_map]
  rfl

theorem paramRefs (h : Twin ν fn fn') : fn'.paramRefs = fn.paramRefs.map (Option.map ν) := by
  rw [Func.paramRefs, Func.paramRefs, h.params, List.map_map, List.map_map]
  rfl

theorem useSites (h : Twin ν fn fn') (hν : Renumbers ν) :
    fn'.useSites = fn.useSites.map (Prod.map (Option.map ν) id) := by
  rw [Func.useSites, Func.useSites, h.ids]
  refine Table.sites_map (Option.map_injective hν.injective) (fun b => ?_) fn.ids []
  rw [h.block, Block.uses_rename]

theorem isDefined (h : Twin ν fn fn') (hν : Renumbers ν) (v : Option Value) :
    fn'.isDefined (v.map ν) = fn.isDefined v := by
  have hsites : fn'.definitionSites.map Prod.snd =
      (fn.definitionSites.map Prod.snd).map (Option.map ν) := by
    rw [h.definitionSites, List.map_map, List.map_map]
    rfl
  have hinjective := Option.map_injective hν.injective
  rw [Func.isDefined, Func.isDefined, h.paramRefs, hsites, contains_map hinjective,
    contains_map hinjective]

theorem valueDefects (h : Twin ν fn fn') (hν : Renumbers ν) :
    fn'.valueDefects = fn.valueDefects.map (Defect.rename ν) := by
  have hrepeated : ∀ (sites : List (BlockId × Option Value)) (seen : List (Option Value)),
      repeated (seen.map (Option.map ν)) (sites.map (Prod.map id (Option.map ν))) =
        (repeated seen sites).map (Defect.rename ν) := by
    intro sites
    induction sites with
    | nil => exact fun _ => rfl
    | cons e sites ih =>
      intro seen
      obtain ⟨b, v⟩ := e
      simp only [List.map_cons, Prod.map_apply, id_eq, repeated,
        contains_map (Option.map_injective hν.injective)]
      split_ifs
      · rw [ih, List.map_cons]
        rfl
      · exact ih (v :: seen)
  rw [Func.valueDefects, Func.valueDefects, h.paramRefs, h.definitionSites, hrepeated,
    h.useSites hν, List.map_append, List.filter_map, List.map_map, List.map_map]
  simp only [Function.comp_def, Prod.map_fst, Prod.map_snd, id_eq, h.isDefined hν]
  rfl

theorem unreachable (h : Twin ν fn fn') : fn'.unreachable = fn.unreachable := by
  have hnext : fn'.liveSuccessors = fn.liveSuccessors := by
    funext i
    simp only [liveSuccessors, h.liveAt?, h.successors, h.owns]
  have hsize : fn'.blocks.size = fn.blocks.size := by
    rw [h.eq_rename]
    exact Array.size_map
  simp only [Func.unreachable, reached, h.ids, h.root, hnext, hsize]

/-- **A twin has the same defects.** -/
theorem defects (h : Twin ν fn fn') (hν : Renumbers ν) :
    fn'.defects = fn.defects.map (Defect.rename ν) := by
  have hentry : fn'.hasEntry = fn.hasEntry := by
    simp only [hasEntry, h.root, h.owns]
  rw [Func.defects, Func.defects, hentry]
  split_ifs
  · simp only [h.termDefects, h.edgeDefects, h.phiDefects, h.valueDefects hν, h.unreachable,
      List.map_append, List.map_map]
    rfl
  · rfl

end Func.Twin

/-- **The same failure**: it is in the same function, with the same messages. -/
inductive RunFailure.Same : RunFailure → RunFailure → Prop
  | invalid {fn fn' : Func} {ds ds' : List Defect} (hserial : fn'.serial = fn.serial)
    (hname : fn'.name = fn.name)
    (hmessages : ds'.map (Defect.message fn') = ds.map (Defect.message fn)) :
    Same (.invalid fn ds) (.invalid fn' ds')

/-! ### Executions -/

namespace Step

/-- The states of an execution over a well-built function and of one over its twin. -/
structure StateTwin (ν : Value → Value) (s s' : RunState) : Prop where
  wellBuilt : s.func.WellBuilt
  func : Twin ν s.func s'.func
  counters : s'.counters = s.counters
  journal : s'.journal = s.journal

/-- What comes of an execution, and of one over the twin. -/
inductive EndTwin (ν : Value → Value) :
    Except RunStop (Bool × RunState) → Except RunStop (Bool × RunState) → Prop
  | ok {s s' : RunState} (c : Bool) (h : StateTwin ν s s') : EndTwin ν (.ok (c, s)) (.ok (c, s'))
  | error {e e' : RunStop} (hfailure : e.failure.Same e'.failure)
    (h : StateTwin ν e.state e'.state) : EndTwin ν (.error e) (.error e')

variable {o : Options} {task : Task} {s s' : RunState} {tr : List RunState}
  {r : Except RunStop (Bool × RunState)}

theorem recompute_twin (h : StateTwin ν s s') (hν : Renumbers ν) (strict : Bool) (name : String)
    (p : Pass) : EndTwin ν (recompute strict name p s) (recompute strict name p s') := by
  have hrun := Pass.run_twin h.func hν h.wellBuilt p strict
  have himproves := Pass.improves_run h.wellBuilt p strict none
  have hfault := himproves.fault
  have hfault' := hrun.fault.trans hfault
  simp only [recompute, hfault, hfault', hrun.changed, hrun.counters, hrun.journal, h.counters,
    h.journal, hrun.func.name]
  exact .ok _ ⟨himproves.wellBuilt, hrun.func, rfl, rfl⟩

theorem runVerify_twin (h : StateTwin ν s s') (hν : Renumbers ν) :
    EndTwin ν (runVerify s) (runVerify s') := by
  rw [runVerify, runVerify, h.func.defects hν]
  cases hds : s.func.defects with
  | nil => exact .ok false h
  | cons d ds =>
    refine .error (.invalid h.func.serial h.func.name ?_) h
    rw [List.map_map]
    exact List.map_congr_left fun d _ => h.func.message hν d

theorem endTwin_iff {r' : Except RunStop (Bool × RunState)} :
    EndTwin ν r r' ↔ Corresponds (StateTwin ν) RunFailure.Same r r' := by
  constructor
  · rintro (⟨c, h⟩ | ⟨hfailure, h⟩)
    · exact .ok c h
    · exact .error hfailure h
  · rintro (⟨c, h⟩ | ⟨hfailure, h⟩)
    · exact .ok c h
    · exact .error hfailure h

/-- **An execution over a function can be followed over its twin.** -/
theorem Executes.twin (h : Executes (recompute o.strict) o task s tr r) (hν : Renumbers ν)
    (s' : RunState) (hs : StateTwin ν s s') :
    ∃ tr' r', Executes (recompute o.strict) o task s' tr' r' ∧ EndTwin ν r r' := by
  simp only [endTwin_iff]
  refine h.follow (fun name p s s' hs => ?_) (fun s s' hs => ?_) (fun s s' done hs => ?_) s' hs
  · exact endTwin_iff.mp (recompute_twin hs hν o.strict name p)
  · exact endTwin_iff.mp (runVerify_twin hs hν)
  · refine ⟨hs.wellBuilt, hs.func, hs.counters, ?_⟩
    simp only [giveUp, hs.journal, hs.func.name]

end Step

/-! ### Runs over functions -/

namespace Manager

variable {o : Options} {steps : List Step} {changed : Bool} {fns fns' : List Func} {rep : Report}

/-- **The same outcome** of two runs: the same report of a change, or the same failure. -/
inductive SameOutcome : Except RunFailure Bool → Except RunFailure Bool → Prop
  | ok (c : Bool) : SameOutcome (.ok c) (.ok c)
  | error {e e' : RunFailure} (h : e.Same e') : SameOutcome (.error e) (.error e')

/-- The reports of a run over functions and of one over their twins. -/
structure Report.Similar (rep rep' : Report) : Prop where
  funcs : List.Forall₂ Func.Similar rep.funcs rep'.funcs
  counters : rep'.counters = rep.counters
  journal : rep'.journal = rep.journal
  outcome : SameOutcome rep.outcome rep'.outcome

/-- **A run over functions can be followed over their twins.** -/
theorem Recomputes.twin (h : Recomputes o steps changed fns rep)
    (hfns : List.Forall₂ Func.Similar fns fns') (hwell : ∀ fn ∈ fns, fn.WellBuilt) :
    ∃ rep', Recomputes o steps changed fns' rep' ∧ rep.Similar rep' := by
  induction h generalizing fns' with
  | done changed =>
    cases hfns
    exact ⟨_, .done changed, .nil, rfl, rfl, .ok changed⟩
  | next hexec _ ih =>
    obtain ⟨hfn, hwell⟩ := List.forall_mem_cons.mp hwell
    cases hfns with
    | cons hhead hfns =>
      obtain ⟨ν, hν, htwin⟩ := hhead
      obtain ⟨tr', _, hexec', ⟨c, hs⟩⟩ :=
        hexec.twin hν { func := _ } ⟨hfn, htwin, rfl, rfl⟩
      obtain ⟨rest', hrest, hsimilar⟩ := ih hfns hwell
      refine ⟨_, .next hexec' hrest, .cons ⟨ν, hν, hs.func⟩ hsimilar.funcs, ?_, ?_,
        hsimilar.outcome⟩
      · rw [hs.counters, hsimilar.counters]
      · rw [hs.journal, hsimilar.journal]
  | stop hexec =>
    obtain ⟨hfn, -⟩ := List.forall_mem_cons.mp hwell
    cases hfns with
    | cons hhead hfns =>
      obtain ⟨ν, hν, htwin⟩ := hhead
      obtain ⟨tr', _, hexec', - | ⟨hfailure, hs⟩⟩ :=
        hexec.twin hν { func := _ } ⟨hfn, htwin, rfl, rfl⟩
      exact ⟨_, .stop hexec', .cons ⟨ν, hν, hs.func⟩ hfns, hs.counters, hs.journal,
        .error hfailure⟩

/-- **A manager makes the same of functions and of their twins.** -/
theorem runFuncs_similar {m m' : Manager} (h : Trusted m fns) (h' : Trusted m' fns')
    (hoptions : m'.options = m.options) (hsteps : m'.steps = m.steps)
    (hfns : List.Forall₂ Func.Similar fns fns') (changed : Bool) :
    (m.runFuncs changed fns).report.Similar (m'.runFuncs changed fns').report := by
  have hrun := Trusted.recomputes [] fns changed h
  have hrun' := Trusted.recomputes [] fns' changed h'
  obtain ⟨rep', hrep, hsimilar⟩ := hrun.twin hfns h.wellBuilt
  rw [hoptions, hsteps] at hrun'
  rwa [hrun'.unique hrep]

end Manager

end BranchFusion
