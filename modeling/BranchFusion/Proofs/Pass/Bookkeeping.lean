import BranchFusion.Proofs.Pass.Levels
import BranchFusion.Proofs.Pass.WellBuilt

/-!
# What a run counts

A run counts the branches that it looks at, those it folds, those it finds stale, and why it left
the others alone. The branches are collected before the first fold, and later ones may be gone when
their turn comes, or lead elsewhere, or have got an instruction in front of them; so the counts
depend on the order of the blocks. Still they always add up, and they say what happened to the
function (`BranchFusion.NestedIf.books_are_exact`).

There are two parts to this. Each fold takes one block and one branch away, adds one conjunction and
keeps everything else (`BranchFusion.NestedIf.Rearranged`). And each branch that is tried is
accounted for: a branch is stale only if a fold has removed its block, and each fold removes one
(`BranchFusion.NestedIf.Counted`).
-/

namespace BranchFusion

/-! ### The parts of a function -/

namespace Func

/-- The phis of the live blocks. -/
def phis (fn : Func) : List Phi := fn.ids.flatMap fun b => (fn.block b).phis

/-- The instructions of the live blocks. -/
def instrs (fn : Func) : List Instr := fn.ids.flatMap fun b => (fn.block b).instrs

/-- The terminators of the live blocks. -/
def terminators (fn : Func) : List Terminator :=
  fn.ids.flatMap fun b => (fn.block b).term.toList

/-- The terminators that are no branches. -/
def otherTerminators (fn : Func) : List Terminator :=
  fn.terminators.filter fun t => !t.isBranch

/-- The number of branches. -/
def branchCount (fn : Func) : Nat := fn.terminators.countP Terminator.isBranch

end Func

/-- All rejections together. -/
def Counters.rejections (k : Counters) : Int := (Rejection.all.map k.rejected).sum

theorem Counters.rejections_reject (k : Counters) (r : Rejection) :
    (k.reject r).rejections = k.rejections + 1 := by
  cases r <;> simp [rejections, Rejection.all, reject] <;> omega

namespace NestedIf

variable {fn fn' f : Func} {p p' : Progress} {b : BlockId} {n : Nest} {cond : Value}
  {c : Candidate} {cs : List Candidate} {fs : List Folding} {g : Folding}

/-- The queue of a run holds all branches of the function. -/
theorem length_candidates : (candidates fn).length = fn.branchCount := by
  rw [← List.length_map Candidate.block, map_block_candidates, Func.branchCount, Func.terminators,
    List.countP_flatMap, ← List.countP_eq_length_filter]
  induction fn.ids with
  | nil => rfl
  | cons b bs ih =>
    rw [List.countP_cons, ih, List.map_cons, List.sum_cons]
    cases hterm : (fn.block b).term <;> simp [hterm, Nat.add_comm]

/-! ### What a fold does to the parts -/

section Fold

variable (h : Folded fn fn' b n cond) (hf : Found fn b n) (hw : fn.Wired) (hb : fn.owns b)

include h hf hw hb

theorem Folded.length_ids : fn'.ids.length + 1 = fn.ids.length :=
  Func.length_ids_of_removed hb (hf.owned hw hb).1 (Ne.symm hf.middle_ne) h.owns

theorem Folded.instrs_perm :
    fn'.instrs.Perm ([.binary cond .land n.outer n.inner] ++ fn.instrs) := by
  refine Func.flatMap_perm_of_removed _ hb (hf.owned hw hb).1 (Ne.symm hf.middle_ne) h.owns ?_ ?_
  · rw [h.instrs b (Ne.symm hf.middle_ne), if_pos rfl, hf.no_instrs, List.nil_append]
  · intro x _ hxb hxm
    rw [h.instrs x hxm, if_neg hxb]

theorem Folded.phis_perm : (fn'.phis.map Phi.result).Perm (fn.phis.map Phi.result) := by
  rw [Func.phis, Func.phis, List.map_flatMap, List.map_flatMap]
  refine Func.flatMap_perm_of_removed [] hb (hf.owned hw hb).1 (Ne.symm hf.middle_ne)
    h.owns ?_ ?_
  · rw [h.results_phis (Ne.symm hf.middle_ne), hf.no_phis]
    simp
  · exact fun x _ _ hxm => h.results_phis hxm

theorem Folded.otherTerminators_perm : fn'.otherTerminators.Perm fn.otherTerminators := by
  rw [Func.otherTerminators, Func.otherTerminators, Func.terminators, Func.terminators,
    List.filter_flatMap, List.filter_flatMap]
  refine Func.flatMap_perm_of_removed [] hb (hf.owned hw hb).1 (Ne.symm hf.middle_ne)
    h.owns ?_ ?_
  · rw [h.term b (Ne.symm hf.middle_ne), if_pos rfl, hf.outer_term, hf.inner_term]
    rfl
  · intro x _ hxb hxm
    rw [h.term x hxm, if_neg hxb]

theorem Folded.branchCount : fn'.branchCount + 1 = fn.branchCount := by
  obtain ⟨rest, hperm, hperm', hother⟩ :=
    Func.exists_ids_perm_removed hb (hf.owned hw hb).1 (Ne.symm hf.middle_ne) h.owns
  have hsame : (rest.flatMap fun x => (fn'.block x).term.toList) =
      rest.flatMap fun x => (fn.block x).term.toList :=
    List.flatMap_congr fun x hx => by
      rw [h.term x (hother x hx).2.2, if_neg (hother x hx).2.1]
  rw [Func.branchCount, Func.branchCount, Func.terminators, Func.terminators,
    (hperm.flatMap_right _).countP_eq, (hperm'.flatMap_right _).countP_eq]
  -- of the two branches one is left
  simp only [List.flatMap_cons, List.countP_append, hsame, h.term b (Ne.symm hf.middle_ne),
    if_true, hf.outer_term, hf.inner_term]
  simp only [Option.toList_some, List.countP_singleton, Terminator.isBranch, if_true]
  omega

end Fold

/-- **What folds do to the parts of a function**: each takes a block and a branch away, and adds a
conjunction. -/
structure Rearranged (fn : Func) (fs : List Folding) (f : Func) : Prop where
  blocks : f.ids.length + fs.length = fn.ids.length
  branches : f.branchCount + fs.length = fn.branchCount
  others : f.otherTerminators.Perm fn.otherTerminators
  instrs : f.instrs.Perm (fs.map Folding.conjunction ++ fn.instrs)
  phis : (f.phis.map Phi.result).Perm (fn.phis.map Phi.result)

theorem Made.rearranged (hw : fn.Wired) (h : Made fn fs f) : Rearranged fn fs f := by
  induction h with
  | nil => exact ⟨rfl, rfl, .refl _, .refl _, .refl _⟩
  | @snoc fs f f' g hmade hb hf hfold ih =>
    have hwf := (hmade.leaves hw).wired
    have hfolded := folded_of_fold hf hwf hb hfold
    have hblocks := hfolded.length_ids hf hwf hb
    have hbranches := hfolded.branchCount hf hwf hb
    have hlength : (fs ++ [g]).length = fs.length + 1 := by simp
    constructor
    case blocks => rw [hlength, ← ih.blocks, ← hblocks]; omega
    case branches => rw [hlength, ← ih.branches, ← hbranches]; omega
    case others => exact (hfolded.otherTerminators_perm hf hwf hb).trans ih.others
    case phis => exact (hfolded.phis_perm hf hwf hb).trans ih.phis
    case instrs =>
      refine (hfolded.instrs_perm hf hwf hb).trans ((ih.instrs.append_left _).trans ?_)
      rw [← List.append_assoc, List.map_append]
      exact List.perm_append_comm.append_right _

/-! ### What a branch does to the counters -/

/-- The number of branches in the queue whose block is gone. -/
def lost (fs : List Folding) (cs : List Candidate) : Nat :=
  cs.countP fun c => c.block ∈ fs.map fun g => g.nest.middle

/-- The branches that one more fold loses are those of the block that it removes. -/
theorem lost_snoc : ∀ cs : List Candidate,
    lost (fs ++ [g]) cs ≤ lost fs cs + (cs.map Candidate.block).count g.nest.middle
  | [] => Nat.le_refl 0
  | c :: cs => by
    have ih := lost_snoc cs
    have hmem : c.block ∈ ((fs ++ [g]).map fun g => g.nest.middle) ↔
        c.block ∈ (fs.map fun g => g.nest.middle) ∨ c.block = g.nest.middle := by simp
    simp only [lost, List.map_cons, List.countP_cons, List.count_cons, decide_eq_true_eq,
      beq_iff_eq, hmem] at ih ⊢
    grind

/-- A block has one branch in the queue, so a fold loses one at most. -/
theorem lost_snoc_le (hnodup : (cs.map Candidate.block).Nodup) :
    lost (fs ++ [g]) cs ≤ lost fs cs + 1 :=
  (lost_snoc cs).trans (Nat.add_le_add_left (List.nodup_iff_count_le_one.mp hnodup _) _)

/-- **What has been counted** after the folds `fs`, with the branches `cs` still in the queue. -/
structure Counted (fn : Func) (fs : List Folding) (k : Counters) (cs : List Candidate) :
    Prop where
  combined : k.combined = fs.length
  queue : k.visited + k.stale + cs.length = (candidates fn).length
  visited : k.visited = k.combined + k.rejections
  /-- Each stale branch, and each one that will be stale, lost its block to a fold of its own. -/
  stale : k.stale + lost fs cs ≤ k.combined

theorem counted_start : Counted fn [] {} (candidates fn) where
  combined := rfl
  queue := by simp
  visited := rfl
  stale := by simp [lost]

/-- **Each branch that is tried is accounted for.** -/
theorem Counted.tries (hw : fn.Wired) (hu : Underway fn fs p.func (c :: cs))
    (h : Counted fn fs p.counters (c :: cs)) {o : Option Folding} (ht : Tries p c o p') :
    Counted fn (fs ++ o.toList) p'.counters cs := by
  have hlost : lost fs cs ≤ lost fs (c :: cs) := (List.sublist_cons_self c cs).countP_le
  have hstale := h.stale
  have hvisited := h.visited
  have hqueue := h.queue
  rw [List.length_cons, Nat.cast_add, Nat.cast_one] at hqueue
  cases ht with
  | stale hgone =>
    obtain ⟨g, hg, hmiddle⟩ := hu.exists_of_stale hw hgone
    have hcons : lost fs (c :: cs) = lost fs cs + 1 :=
      List.countP_cons_of_pos (by simpa using ⟨g, hg, hmiddle⟩)
    rw [Option.toList_none, List.append_nil]
    exact ⟨h.combined, by dsimp only; omega, hvisited, by dsimp only; omega⟩
  | @rejected r =>
    have hreject := Counters.rejections_reject
      { p.counters with visited := p.counters.visited + 1 } r
    rw [Option.toList_none, List.append_nil]
    refine ⟨h.combined, ?_, hreject ▸ ?_, ?_⟩
    all_goals dsimp only [Counters.reject, Counters.rejections] at hvisited ⊢
    all_goals omega
  | @folded n cond _ _ _ _ _ _ _ hcounters =>
    have hsnoc : lost (fs ++ [⟨c.block, n, cond⟩]) cs ≤ lost fs cs + 1 :=
      lost_snoc_le (List.nodup_cons.mp hu.nodup_queue).2
    rw [hcounters, Option.toList_some]
    refine ⟨by simp [h.combined], ?_, ?_, ?_⟩
    all_goals dsimp only [Counters.rejections] at hvisited ⊢
    all_goals omega

/-- The blocks of the folds of a run all had branches at its start. -/
theorem Underway.two_mul_length_le (h : Underway fn fs f cs) :
    2 * fs.length ≤ (candidates fn).length := by
  have hsub : fs.flatMap Folding.blocks ⊆ (candidates fn).map Candidate.block := by
    intro x hx
    obtain ⟨g, hg, hxg⟩ := List.mem_flatMap.mp hx
    have hjoins := h.joins g hg
    rcases List.mem_pair.mp hxg with rfl | rfl
    · exact List.mem_map.mpr ⟨⟨_, _⟩,
        mem_candidates_iff.mpr ⟨hjoins.owns_outer, hjoins.outer, rfl⟩, rfl⟩
    · exact List.mem_map.mpr ⟨⟨_, _⟩,
        mem_candidates_iff.mpr ⟨hjoins.owns_middle, hjoins.inner, rfl⟩, rfl⟩
  have hlength := (h.distinct.subperm hsub).length_le
  rw [List.length_map, List.length_flatMap] at hlength
  have htwo : (fs.map fun g => g.blocks.length).sum = 2 * fs.length := by
    simp [Folding.blocks, Nat.mul_comm]
  omega

/-! ### The books of a run -/

/-- **The books of a run are exact**: its counters add up, and they say what it has done. -/
structure Exact (fn : Func) (r : PassRun) : Prop where
  fault : r.fault = none
  /-- Every branch of the function is looked at or stale. -/
  collected : r.counters.visited + r.counters.stale = fn.branchCount
  /-- Every branch that is looked at is folded or left alone for a reason. -/
  visited : r.counters.visited = r.counters.combined + r.counters.rejections
  stale : r.counters.stale ≤ r.counters.combined
  combined : 2 * r.counters.combined ≤ fn.branchCount
  blocks : r.func.ids.length + r.counters.combined = fn.ids.length
  branches : r.func.branchCount + r.counters.combined = fn.branchCount
  /-- Conjunctions are added, and no other instruction is added or removed. -/
  instrs : ∃ lands : List Instr, lands.length = r.counters.combined ∧
    (∀ i ∈ lands, ∃ v x y, i = .binary v .land x y) ∧ r.func.instrs.Perm (lands ++ fn.instrs)
  phis : (r.func.phis.map Phi.result).Perm (fn.phis.map Phi.result)
  others : r.func.otherTerminators.Perm fn.otherTerminators
  changed : r.changed = true ↔ 0 < r.counters.combined

/-- **The bookkeeping of the pass is exact** for every function that was read, in both modes. -/
theorem books_are_exact {src : String} {serial : Nat} {m : Module}
    (hread : Module.parse src serial = .ok m) (hfn : fn ∈ m.funcs) (strict : Bool)
    (cache : Option AnalysisCache) : Exact fn (Pass.nestedIf.run strict fn cache) := by
  have hw := (Source.wellBuilt_of_parse hread fn hfn).toWired
  obtain ⟨p, hp, hunder, hcounted⟩ := run_history (I := Counted fn) hw strict cache counted_start
    fun fs p c cs o p' hu hI ht => hI.tries hw hu ht
  obtain ⟨hblocks, hbranches, hothers, hinstrs, hphis⟩ := hunder.made.rearranged hw
  obtain ⟨hcombined, hqueue, hvisited, hstale⟩ := hcounted
  have htwo := hunder.two_mul_length_le
  rw [length_candidates] at hqueue htwo
  rw [Pass.run_nestedIf hp]
  constructor
  case fault => rfl
  case collected => simpa using hqueue
  case visited => exact hvisited
  case phis => exact hphis
  case others => exact hothers
  case instrs =>
    refine ⟨_, by simp [hcombined], fun i hi => ?_, hinstrs⟩
    obtain ⟨g, -, rfl⟩ := List.mem_map.mp hi
    exact ⟨_, _, _, rfl⟩
  case changed =>
    rw [decide_eq_true_eq]
    dsimp only
    omega
  all_goals
    dsimp only
    omega

/-- A block that was looked at is removed later, so there are fewer stale branches than folds. -/
theorem staircase_books_are_exact :
    (Pass.nestedIf.run false staircase none).counters.combined = 2 ∧
      (Pass.nestedIf.run false staircase none).counters.stale = 1 ∧
      (Pass.nestedIf.run false staircase none).counters.visited = 3 ∧
      (Pass.nestedIf.run false staircase none).counters.rejections = 1 ∧
      (Pass.nestedIf.run false staircase none).func.ids.length = 4 ∧
      (Pass.nestedIf.run false staircase none).func.branchCount = 2 ∧
      (Pass.nestedIf.run false staircase none).changed = true := by
  obtain ⟨-, hcollected, hvisited, -, -, hblocks, hbranches, -, -, -, hchanged⟩ :=
    books_are_exact parse_staircaseText (List.mem_singleton_self staircase) false none
  have hcount : staircase.ids.length = 6 ∧ staircase.branchCount = 4 := by decide +kernel
  have hcombined : (Pass.nestedIf.run false staircase none).counters.combined = 2 := by
    decide +kernel
  have hstale : (Pass.nestedIf.run false staircase none).counters.stale = 1 := by decide +kernel
  refine ⟨hcombined, hstale, ?_, ?_, ?_, ?_, hchanged.mpr (by omega)⟩
  all_goals omega

end NestedIf

end BranchFusion
