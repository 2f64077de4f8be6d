import BranchFusion.Proofs.Pass.Attempts
import BranchFusion.Proofs.Source.WellBuilt

/-!
# Two levels at a time

A fold makes the outer block branch to where the inner branch led, which may be the next level of
a nest of branches. That level is still in the queue, and one might expect a run to go on from there
and fold the whole nest into one block. It does not.

* An outer block has got an instruction, the conjunction, so it is no longer a middle block.
* A block has one branch in the queue. The branch of an outer block had its turn, and a middle block
  is gone.

So the blocks of all folds of a run are different, and the branches that are folded are those the
function had when the run started (`BranchFusion.NestedIf.two_levels_at_most`).

What holds of any folds that are made one after the other is an induction over them
(`BranchFusion.NestedIf.Made`); what holds of the folds of a run needs the queue as well
(`BranchFusion.NestedIf.Underway`).
-/

namespace BranchFusion

namespace NestedIf

variable {fn f f' : Func} {p p' : Progress} {b : BlockId} {c : Candidate} {cs : List Candidate}
  {fs : List Folding} {g : Folding}

/-! ### Folds one after the other -/

namespace Folding

/-- The two blocks that a fold makes one. -/
def blocks (g : Folding) : List BlockId := [g.outer, g.nest.middle]

theorem not_mem_blocks_iff {x : BlockId} {fs : List Folding} :
    x ∉ fs.flatMap blocks ↔ ∀ g ∈ fs, x ≠ g.outer ∧ x ≠ g.nest.middle := by
  simp [blocks, List.mem_flatMap]

/-- The instruction that a fold adds. -/
def conjunction (g : Folding) : Instr := .binary g.cond .land g.nest.outer g.nest.inner

/-- **The two branches of a fold are those of the function.** -/
structure Joins (g : Folding) (fn : Func) : Prop where
  owns_outer : fn.owns g.outer
  owns_middle : fn.owns g.nest.middle
  outer : (fn.block g.outer).term = some (.branch g.nest.outer g.nest.middle g.nest.shared)
  inner : (fn.block g.nest.middle).term = some (.branch g.nest.inner g.nest.target g.nest.shared)

end Folding

/-- **Folds are made one after the other**, and lead from `fn` to another function. -/
inductive Made (fn : Func) : List Folding → Func → Prop
  | nil : Made fn [] fn
  | snoc {fs : List Folding} {f f' : Func} {g : Folding} (h : Made fn fs f)
      (hb : f.owns g.outer) (hf : Found f g.outer g.nest)
      (hfold : fold f g.outer g.nest = .ok (g.cond, f')) : Made fn (fs ++ [g]) f'

/-- **What folds leave** of a function. -/
structure Leaves (fn : Func) (fs : List Folding) (f : Func) : Prop where
  wired : f.Wired
  serial : f.serial = fn.serial
  owns : ∀ x, f.owns x ↔ fn.owns x ∧ ∀ g ∈ fs, x ≠ g.nest.middle
  /-- Blocks get conjunctions and nothing else. -/
  instrs : ∀ x, f.owns x → (f.block x).instrs =
    (fn.block x).instrs ++ (fs.filter fun g => g.outer = x).map Folding.conjunction
  /-- Only outer blocks end in another way than before. -/
  term : ∀ x, f.owns x → (∀ g ∈ fs, x ≠ g.outer) → (f.block x).term = (fn.block x).term

theorem Leaves.fold (h : Leaves fn fs f) (hb : f.owns g.outer) (hf : Found f g.outer g.nest)
    (hfolded : Folded f f' g.outer g.nest g.cond) : Leaves fn (fs ++ [g]) f' := by
  constructor
  case wired => exact hfolded.wired hf h.wired hb
  case serial => exact hfolded.serial.trans h.serial
  case owns =>
    intro x
    rw [hfolded.owns, h.owns, and_assoc, List.forall_mem_append, List.forall_mem_singleton]
  case instrs =>
    intro x hx
    obtain ⟨hxo, hxm⟩ := (hfolded.owns x).mp hx
    rw [hfolded.instrs x hxm, List.filter_append, List.map_append]
    by_cases hxg : x = g.outer
    · subst hxg
      rw [if_pos rfl, h.instrs _ hxo, List.append_assoc, List.filter_cons_of_pos (by simp)]
      rfl
    · rw [if_neg hxg, h.instrs x hxo, List.filter_cons_of_neg (by simpa using Ne.symm hxg)]
      simp
  case term =>
    intro x hx hne
    obtain ⟨hxo, hxm⟩ := (hfolded.owns x).mp hx
    rw [List.forall_mem_append, List.forall_mem_singleton] at hne
    rw [hfolded.term x hxm, if_neg hne.2]
    exact h.term x hxo hne.1

/-- **In a wired function folds leave what they should**, as many as are made. -/
theorem Made.leaves (hw : fn.Wired) (h : Made fn fs f) : Leaves fn fs f := by
  induction h with
  | nil => exact ⟨hw, rfl, by simp, by simp, fun _ _ _ => rfl⟩
  | snoc _ hb hf hfold ih => exact ih.fold hb hf (folded_of_fold hf ih.wired hb hfold)

/-! ### The queue of a run -/

/-- **A run under way**: the folds `fs` have led from `fn` to `f`, and the branches `cs` are still
in the queue. -/
structure Underway (fn : Func) (fs : List Folding) (f : Func) (cs : List Candidate) : Prop where
  made : Made fn fs f
  queue : cs <:+ candidates fn
  /-- The branches of outer blocks have had their turn. -/
  turn : ∀ g ∈ fs, ∀ c ∈ cs, c.block ≠ g.outer
  joins : ∀ g ∈ fs, g.Joins fn
  distinct : (fs.flatMap Folding.blocks).Nodup

theorem underway_start : Underway fn [] fn (candidates fn) :=
  ⟨.nil, List.suffix_rfl, by simp, by simp, by simp⟩

theorem Underway.skip (h : Underway fn fs f (c :: cs)) : Underway fn fs f cs where
  made := h.made
  queue := (List.suffix_cons c cs).trans h.queue
  turn g hg d hd := h.turn g hg d (List.mem_cons_of_mem c hd)
  joins := h.joins
  distinct := h.distinct

section Underway

variable (hw : fn.Wired) (h : Underway fn fs f (c :: cs))

include h

theorem Underway.nodup_queue : ((c :: cs).map Candidate.block).Nodup :=
  nodup_candidates.sublist (h.queue.sublist.map Candidate.block)

/-- The next branch is one of the branches that were collected. -/
theorem Underway.mem_candidates : c ∈ candidates fn :=
  h.queue.subset List.mem_cons_self

include hw

theorem Underway.ready : f.Wired ∧ c.block.func = f.serial := by
  have hleaves := h.made.leaves hw
  refine ⟨hleaves.wired, ?_⟩
  rw [hleaves.serial]
  exact func_of_mem_candidates h.mem_candidates

/-- **A branch gets stale with its block**: a fold of the run has removed it. -/
theorem Underway.exists_of_stale (hstale : isStale f c = true) :
    ∃ g ∈ fs, g.nest.middle = c.block := by
  have hleaves := h.made.leaves hw
  obtain ⟨hown, hterm, -⟩ := mem_candidates_iff.mp h.mem_candidates
  by_contra hnone
  have hne : ∀ g ∈ fs, c.block ≠ g.nest.middle := fun g hg heq => hnone ⟨g, hg, heq.symm⟩
  have howns : f.owns c.block := (hleaves.owns _).mpr ⟨hown, hne⟩
  have hlive : (f.liveAt? c.block.index).isSome := by
    rw [Func.liveAt?_isSome_iff, Func.mk_index (h.ready hw).2]
    exact howns
  have hsame := hleaves.term _ howns fun g hg => h.turn g hg c List.mem_cons_self
  rw [isStale, Option.isNone_eq_false_iff.mpr hlive, hsame, hterm] at hstale
  simp at hstale

/-- A block that is a branch and nothing else is not yet part of a fold. -/
theorem Underway.middle_not_mem {n : Nest} (hb : f.owns b) (hf : Found f b n) :
    n.middle ∉ fs.flatMap Folding.blocks := by
  have hleaves := h.made.leaves hw
  have hm := (hf.owned hleaves.wired hb).1
  refine Folding.not_mem_blocks_iff.mpr fun g hg => ⟨fun heq => ?_, ((hleaves.owns _).mp hm).2 g hg⟩
  -- an outer block holds the conjunction
  have hinstrs := hleaves.instrs _ hm
  rw [hf.no_instrs] at hinstrs
  have hmem : g ∈ fs.filter fun g => g.outer = n.middle :=
    List.mem_filter.mpr ⟨hg, by simpa using heq.symm⟩
  rw [List.map_eq_nil_iff.mp (List.append_eq_nil_iff.mp hinstrs.symm).2] at hmem
  exact absurd hmem List.not_mem_nil

/-- The block of a branch that is still there is not yet part of a fold. -/
theorem Underway.block_not_mem (hb : f.owns c.block) :
    c.block ∉ fs.flatMap Folding.blocks := by
  have hkept := (((h.made.leaves hw).owns _).mp hb).2
  exact Folding.not_mem_blocks_iff.mpr fun g hg => ⟨h.turn g hg c List.mem_cons_self, hkept g hg⟩

/-- A block that is not yet part of a fold ends as it did at the start. -/
theorem Underway.term_of_not_mem {x : BlockId} (hx : f.owns x)
    (hnew : x ∉ fs.flatMap Folding.blocks) :
    fn.owns x ∧ (fn.block x).term = (f.block x).term := by
  have hleaves := h.made.leaves hw
  have hne := fun g hg => (Folding.not_mem_blocks_iff.mp hnew g hg).1
  exact ⟨((hleaves.owns x).mp hx).1, (hleaves.term x hx hne).symm⟩

/-- **One more fold** is one of two blocks that were in no fold before. -/
theorem Underway.fold {n : Nest} {cond : Value} (hstale : isStale f c = false)
    (hf : Found f c.block n) (hfold : fold f c.block n = .ok (cond, f')) :
    Underway fn (fs ++ [⟨c.block, n, cond⟩]) f' cs := by
  obtain ⟨hwf, hfunc⟩ := h.ready hw
  have hb := (owns_of_not_stale hfunc hstale).1
  have hm := (hf.owned hwf hb).1
  have hbnew := h.block_not_mem hw hb
  have hmnew := h.middle_not_mem hw hb hf
  constructor
  case made => exact h.made.snoc hb hf hfold
  case queue => exact h.skip.queue
  case turn =>
    rw [List.forall_mem_append, List.forall_mem_singleton]
    refine ⟨h.skip.turn, fun d hd heq => (List.nodup_cons.mp h.nodup_queue).1 ?_⟩
    exact List.mem_map.mpr ⟨d, hd, heq⟩
  case joins =>
    rw [List.forall_mem_append, List.forall_mem_singleton]
    obtain ⟨hbo, hbt⟩ := h.term_of_not_mem hw hb hbnew
    obtain ⟨hmo, hmt⟩ := h.term_of_not_mem hw hm hmnew
    exact ⟨h.joins, hbo, hmo, hbt.trans hf.outer_term, hmt.trans hf.inner_term⟩
  case distinct =>
    rw [List.flatMap_append, List.flatMap_singleton]
    refine h.distinct.append ?_ ?_
    · simpa [Folding.blocks] using Ne.symm hf.middle_ne
    · exact List.disjoint_cons_right.mpr ⟨hbnew, List.disjoint_singleton.mpr hmnew⟩

end Underway

/-- **A run goes on**: what is known of it is kept when the next branch is tried. -/
theorem Underway.tries (hw : fn.Wired) (h : Underway fn fs p.func (c :: cs)) {o : Option Folding}
    (ht : Tries p c o p') : Underway fn (fs ++ o.toList) p'.func cs := by
  cases ht with
  | stale => simpa using h.skip
  | rejected => simpa using h.skip
  | folded hstale hfind hfold => exact h.fold hw hstale (found_of_find hfind).1 hfold

/-! ### Whole runs -/

/-- **The folds of a run.** -/
def folds (strict : Bool) (fn : Func) (cache : Option AnalysisCache) : List Folding :=
  foldings (start strict fn cache).1 (candidates fn)

/-- **From one branch to a run**: what holds of the counters before the first branch, and is kept
when a branch is tried, holds after the run, of all its folds. -/
theorem run_history {I : List Folding → Counters → List Candidate → Prop} (hw : fn.Wired)
    (strict : Bool) (cache : Option AnalysisCache) (hstart : I [] {} (candidates fn))
    (hstep : ∀ fs p c cs o p', Underway fn fs p.func (c :: cs) → I fs p.counters (c :: cs) →
      Tries p c o p' → I (fs ++ o.toList) p'.counters cs) :
    ∃ p, (run strict fn cache).1 = .ok p ∧ Underway fn (folds strict fn cache) p.func [] ∧
      I (folds strict fn cache) p.counters [] := by
  refine attemptAll_history (I := fun fs p cs => Underway fn fs p.func cs ∧ I fs p.counters cs)
    (fun fs p c cs hI => hI.1.ready hw) ?_ (candidates fn) [] (start strict fn cache).1 ?_
  · intro fs p c cs o p' hI ht
    exact ⟨hI.1.tries hw ht, hstep fs p c cs o p' hI.1 hI.2 ht⟩
  · rw [start_eq]
    exact ⟨underway_start, hstart⟩

theorem combined_of_tries {o : Option Folding} (h : Tries p c o p') :
    p'.counters.combined = p.counters.combined + o.toList.length := by
  cases h with
  | stale => simp
  | rejected => simp [Counters.reject]
  | folded _ _ _ _ hcounters => simp [hcounters]

/-- **At most two levels are folded in a run.** The folds of a run over a function that was read,
made one after the other, give what the run gives, and no block is in two of them. So no block
absorbs two others, and none that absorbed another is absorbed. Each fold joins two branches that
the function had when the run started, and each conjunction that the run adds reads the conditions
of these two. -/
theorem two_levels_at_most {src : String} {serial : Nat} {m : Module}
    (hread : Module.parse src serial = .ok m) (hfn : fn ∈ m.funcs) (strict : Bool)
    (cache : Option AnalysisCache) :
    ∃ p, (run strict fn cache).1 = .ok p ∧
      Made fn (folds strict fn cache) p.func ∧
      p.counters.combined = (folds strict fn cache).length ∧
      ((folds strict fn cache).flatMap Folding.blocks).Nodup ∧
      (∀ g ∈ folds strict fn cache, g.Joins fn) ∧
      (∀ x, p.func.owns x ↔ fn.owns x ∧ ∀ g ∈ folds strict fn cache, x ≠ g.nest.middle) ∧
      ∀ x, p.func.owns x → (p.func.block x).instrs = (fn.block x).instrs ++
        ((folds strict fn cache).filter fun g => g.outer = x).map Folding.conjunction := by
  have hw := (Source.wellBuilt_of_parse hread fn hfn).toWired
  obtain ⟨p, hp, hunder, hcombined⟩ := run_history
    (I := fun fs k _ => k.combined = fs.length) hw strict cache rfl fun fs p c cs o p' _ hI ht => by
      rw [combined_of_tries ht, hI, List.length_append, Nat.cast_add]
  have hleaves := hunder.made.leaves hw
  exact ⟨p, hp, hunder.made, hcombined, hunder.distinct, hunder.joins, hleaves.owns,
    hleaves.instrs⟩

/-- A nest of four branches, whose blocks stand in another order than they are reached in. -/
def staircaseText : String :=
  "func @f(%a, %b, %c) \x7b\n" ++
  "i:\nbr %a, j, o\n" ++
  "j:\nbr %b, k, o\n" ++
  "l:\nbr %a, m, o\n" ++
  "k:\nbr %c, l, o\n" ++
  "m:\n%d = lt %a, %b\nret %d\n" ++
  "o:\n%x = phi [%b, i], [%b, j], [%c, k], [%c, l]\nret %x\n\x7d\n"

/-- The function of this program. -/
def staircase : Func where
  serial := 0
  name := "f"
  root := some ⟨0, 0⟩
  params := [⟨0, 0, "a"⟩, ⟨0, 1, "b"⟩, ⟨0, 2, "c"⟩]
  values := #[⟨0, 0, "a"⟩, ⟨0, 1, "b"⟩, ⟨0, 2, "c"⟩, ⟨0, 3, "d"⟩, ⟨0, 4, "x"⟩]
  blocks := #[
    { label := "i", term := some (.branch ⟨0, 0, "a"⟩ ⟨0, 1⟩ ⟨0, 5⟩) },
    { label := "j", preds := [⟨0, 0⟩], term := some (.branch ⟨0, 1, "b"⟩ ⟨0, 3⟩ ⟨0, 5⟩) },
    { label := "l", preds := [⟨0, 3⟩], term := some (.branch ⟨0, 0, "a"⟩ ⟨0, 4⟩ ⟨0, 5⟩) },
    { label := "k", preds := [⟨0, 1⟩], term := some (.branch ⟨0, 2, "c"⟩ ⟨0, 2⟩ ⟨0, 5⟩) },
    { label := "m", instrs := [.binary ⟨0, 3, "d"⟩ .lt ⟨0, 0, "a"⟩ ⟨0, 1, "b"⟩]
      preds := [⟨0, 2⟩], term := some (.ret [⟨0, 3, "d"⟩]) },
    { label := "o"
      phis := [{ result := ⟨0, 4, "x"⟩, inputs := [(⟨0, 0⟩, some ⟨0, 1, "b"⟩),
        (⟨0, 1⟩, some ⟨0, 1, "b"⟩), (⟨0, 2⟩, some ⟨0, 2, "c"⟩), (⟨0, 3⟩, some ⟨0, 2, "c"⟩)] }]
      preds := [⟨0, 0⟩, ⟨0, 1⟩, ⟨0, 2⟩, ⟨0, 3⟩], term := some (.ret [⟨0, 4, "x"⟩]) }]

theorem parse_staircaseText : Module.parse staircaseText = .ok ⟨[staircase]⟩ := by
  decide +kernel

/-- The first two levels become one and so do the next two. The entry then leads to a level that is
itself a conjunction, and the run leaves it at that. -/
theorem staircase_two_levels_at_most :
    ∃ p, (run false staircase none).1 = .ok p ∧ p.counters.combined = 2 ∧
      (folds false staircase none).flatMap Folding.blocks = [⟨0, 0⟩, ⟨0, 1⟩, ⟨0, 3⟩, ⟨0, 2⟩] ∧
      ((folds false staircase none).flatMap Folding.blocks).Nodup ∧
      (p.func.block ⟨0, 0⟩).instrs =
        [.binary ⟨0, 5, "nested.if.combined"⟩ .land ⟨0, 0, "a"⟩ ⟨0, 1, "b"⟩] ∧
      (p.func.block ⟨0, 3⟩).instrs =
        [.binary ⟨0, 6, "nested.if.combined1"⟩ .land ⟨0, 2, "c"⟩ ⟨0, 0, "a"⟩] := by
  obtain ⟨p, hp, -, hcombined, hnodup, -, howns, hinstrs⟩ :=
    two_levels_at_most parse_staircaseText (List.mem_singleton_self staircase) false none
  have hfolds : folds false staircase none =
      [⟨⟨0, 0⟩, ⟨⟨0, 1⟩, ⟨0, 0, "a"⟩, ⟨0, 1, "b"⟩, ⟨0, 3⟩, ⟨0, 5⟩⟩, ⟨0, 5, "nested.if.combined"⟩⟩,
        ⟨⟨0, 3⟩, ⟨⟨0, 2⟩, ⟨0, 2, "c"⟩, ⟨0, 0, "a"⟩, ⟨0, 4⟩, ⟨0, 5⟩⟩,
          ⟨0, 6, "nested.if.combined1"⟩⟩] := by
    decide +kernel
  rw [hfolds] at hcombined howns hinstrs
  refine ⟨p, hp, hcombined, by rw [hfolds]; rfl, hnodup, ?_, ?_⟩
  · exact hinstrs ⟨0, 0⟩ ((howns _).mpr ⟨Func.mem_ids.mp (by decide +kernel), by decide⟩)
  · exact hinstrs ⟨0, 3⟩ ((howns _).mpr ⟨Func.mem_ids.mp (by decide +kernel), by decide⟩)

end NestedIf

end BranchFusion
