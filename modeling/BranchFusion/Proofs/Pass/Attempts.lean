import BranchFusion.Proofs.Pass.Fold

/-!
# Trying branches one after the other

A run of the pass has a queue of branches, collected before the first of them is folded, and tries
each of them once. What trying a branch comes to is said once, with all that it does to the counters
(`BranchFusion.NestedIf.Tries`): the branch is no longer there, or something speaks against folding
it, or it is folded.

The folds of a run are its history (`BranchFusion.NestedIf.foldings`). Facts about a run relate the
folds made so far, the function as they left it and the branches that are still in the queue;
`BranchFusion.NestedIf.attemptAll_history` carries such a fact from one branch to the whole queue.
In a wired function no fold meets a fault, so a run always gets to the end of its queue.
-/

namespace BranchFusion

/-- Whether a terminator is a two-way branch. -/
def Terminator.isBranch : Terminator → Bool
  | .branch .. => true
  | _ => false

namespace NestedIf

variable {fn fn' : Func} {p p' : Progress} {b : BlockId} {n : Nest} {cond : Value} {c : Candidate}
  {cs : List Candidate}

/-! ### One branch -/

/-- A fold of a run: the block of the outer branch, the two branches, and the value of their
conjunction. -/
structure Folding where
  outer : BlockId
  nest : Nest
  cond : Value
deriving DecidableEq, Repr

/-- The fold that trying a branch makes, if it makes one. -/
def folding? (p : Progress) (c : Candidate) : Option Folding :=
  if isStale p.func c then none
  else match find p.func p.avail c.block with
    | .error _ => none
    | .ok n =>
      match fold p.func c.block n with
      | .error _ => none
      | .ok (cond, _) => some ⟨c.block, n, cond⟩

/-- **What trying a branch comes to.** -/
inductive Tries (p : Progress) (c : Candidate) : Option Folding → Progress → Prop
  /-- The branch is no longer there. -/
  | stale (hstale : isStale p.func c = true) :
      Tries p c none { p with counters := { p.counters with stale := p.counters.stale + 1 } }
  /-- The branch is looked at, and something speaks against folding it. -/
  | rejected {r : Rejection} (hstale : isStale p.func c = false)
      (hfind : find p.func p.avail c.block = .error r) :
      Tries p c none { p with
        counters := Counters.reject { p.counters with visited := p.counters.visited + 1 } r }
  /-- The branch is looked at and folded with the one below it. -/
  | folded {n : Nest} {cond : Value} {p' : Progress} {outer inner : String}
      (hstale : isStale p.func c = false) (hfind : find p.func p.avail c.block = .ok n)
      (hfold : fold p.func c.block n = .ok (cond, p'.func))
      (havail : p'.avail = p.avail.map fun a => { a with sites := a.sites.set cond c.block })
      (hcounters : p'.counters = { p.counters with
        visited := p.counters.visited + 1, combined := p.counters.combined + 1 })
      (hjournal : p'.journal = p.journal ++ [.nestedIfs p.func.name outer inner]) :
      Tries p c (some ⟨c.block, n, cond⟩) p'

theorem tries_of_attempt (h : attempt p c = .ok p') : Tries p c (folding? p c) p' := by
  rw [attempt] at h
  rw [folding?]
  split at h
  · next hstale =>
    rw [if_pos hstale]
    obtain rfl := Except.ok.inj h
    exact .stale hstale
  · next hstale =>
    rw [if_neg hstale]
    rw [Bool.not_eq_true] at hstale
    dsimp only at h
    cases hfind : find p.func p.avail c.block with
    | error r =>
      rw [hfind] at h
      obtain rfl := Except.ok.inj h
      exact .rejected hstale hfind
    | ok n =>
      rw [hfind] at h
      dsimp only [accept] at h ⊢
      cases hfold : fold p.func c.block n with
      | error e => simp [hfold] at h
      | ok r =>
        rw [hfold] at h
        obtain rfl := Except.ok.inj h
        exact .folded hstale hfind hfold rfl rfl rfl

/-- A branch that is still there is that of a live block. -/
theorem owns_of_not_stale (hc : c.block.func = fn.serial) (h : isStale fn c = false) :
    fn.owns c.block ∧ (fn.block c.block).term = some c.branch := by
  rw [isStale, Bool.or_eq_false_iff, Option.isNone_eq_false_iff, Func.liveAt?_isSome_iff,
    Func.mk_index hc, bne_eq_false_iff_eq] at h
  exact h

theorem folded_of_fold (hf : Found fn b n) (hw : fn.Wired) (hb : fn.owns b)
    (h : fold fn b n = .ok (cond, fn')) : Folded fn fn' b n cond := by
  obtain ⟨cond', f, hfold, hfolded⟩ := exists_folded hf hw hb
  rw [h] at hfold
  obtain ⟨rfl, rfl⟩ := Prod.mk.inj (Except.ok.inj hfold)
  exact hfolded

/-- **In a wired function every branch can be tried.** -/
theorem exists_attempt (hw : p.func.Wired) (hc : c.block.func = p.func.serial) :
    ∃ p', attempt p c = .ok p' ∧ Tries p c (folding? p c) p' := by
  suffices hok : ∃ p', attempt p c = .ok p' by
    obtain ⟨p', hp'⟩ := hok
    exact ⟨p', hp', tries_of_attempt hp'⟩
  rw [attempt]
  split
  · exact ⟨_, rfl⟩
  · next hstale =>
    have hb := (owns_of_not_stale hc (Bool.not_eq_true _ ▸ hstale)).1
    cases hfind : find p.func p.avail c.block with
    | error r => exact ⟨_, rfl⟩
    | ok n =>
      obtain ⟨cond, fn', hfold, -⟩ := exists_folded (found_of_find hfind).1 hw hb
      simp only [accept, hfold]
      exact ⟨_, rfl⟩

/-! ### The queue -/

/-- The branches of a function are collected block by block. -/
theorem map_block_candidates : (candidates fn).map Candidate.block =
    fn.ids.filter fun b => (fn.block b).term.any Terminator.isBranch := by
  rw [candidates, List.map_filterMap, ← List.filterMap_eq_filter]
  refine List.filterMap_congr fun b _ => ?_
  rcases hterm : (fn.block b).term with - | (t | ⟨v, t, f⟩ | ⟨v, d, cases⟩ | vs)
  all_goals simp [Option.guard, hterm, Terminator.isBranch]

theorem nodup_candidates : ((candidates fn).map Candidate.block).Nodup := by
  rw [map_block_candidates]
  exact fn.nodup_ids.filter _

/-- **What is in the queue**: the branches of live blocks. -/
theorem mem_candidates_iff : c ∈ candidates fn ↔
    fn.owns c.block ∧ (fn.block c.block).term = some c.branch ∧ c.branch.isBranch = true := by
  rw [candidates, List.mem_filterMap]
  constructor
  · rintro ⟨b, hb, hc⟩
    split at hc
    · next v t f hterm =>
      obtain rfl := Option.some.inj hc
      exact ⟨Func.mem_ids.mp hb, hterm, rfl⟩
    · exact absurd hc (by simp)
  · rintro ⟨hb, hterm, hbranch⟩
    obtain ⟨b, t⟩ := c
    refine ⟨b, Func.mem_ids.mpr hb, ?_⟩
    simp only at hterm hbranch ⊢
    rw [hterm]
    cases t with
    | branch v t f => rfl
    | jump t => simp [Terminator.isBranch] at hbranch
    | switch v d cases => simp [Terminator.isBranch] at hbranch
    | ret vs => simp [Terminator.isBranch] at hbranch

theorem func_of_mem_candidates (h : c ∈ candidates fn) : c.block.func = fn.serial :=
  Func.func_of_owns (mem_candidates_iff.mp h).1

/-! ### The history of a run -/

/-- **The folds of a run**, in the order in which they are made. -/
def foldings : Progress → List Candidate → List Folding
  | _, [] => []
  | p, c :: cs =>
    match attempt p c with
    | .error _ => []
    | .ok p' => (folding? p c).toList ++ foldings p' cs

theorem attemptAll_append (ds : List Candidate) : ∀ {cs : List Candidate} {p p' : Progress},
    attemptAll p cs = .ok p' → attemptAll p (cs ++ ds) = attemptAll p' ds
  | [], p, p', h => by
    obtain rfl := Except.ok.inj h
    rfl
  | c :: cs, p, p', h => by
    rw [attemptAll] at h
    rw [List.cons_append, attemptAll]
    cases hc : attempt p c with
    | error e => simp [hc] at h
    | ok q =>
      rw [hc] at h
      exact attemptAll_append ds h

/-- **From one branch to the whole queue.** What relates the folds so far, the state of the run and
the queue, and is kept when the first branch of the queue is tried, holds when the queue is empty,
of all the folds. -/
theorem attemptAll_history {I : List Folding → Progress → List Candidate → Prop}
    (hready : ∀ fs p c cs, I fs p (c :: cs) → p.func.Wired ∧ c.block.func = p.func.serial)
    (hstep : ∀ fs p c cs o p', I fs p (c :: cs) → Tries p c o p' → I (fs ++ o.toList) p' cs) :
    ∀ (cs : List Candidate) (fs : List Folding) (p : Progress), I fs p cs →
      ∃ p', attemptAll p cs = .ok p' ∧ I (fs ++ foldings p cs) p' []
  | [], fs, p, hI => ⟨p, rfl, by rwa [foldings, List.append_nil]⟩
  | c :: cs, fs, p, hI => by
    obtain ⟨hw, hc⟩ := hready fs p c cs hI
    obtain ⟨p', hp', htries⟩ := exists_attempt hw hc
    obtain ⟨q, hq, hIq⟩ := attemptAll_history hready hstep cs _ p' (hstep fs p c cs _ p' hI htries)
    refine ⟨q, by rw [attemptAll, hp']; exact hq, ?_⟩
    rw [foldings, hp', ← List.append_assoc]
    exact hIq

/-- A run starts with the function as it is, with nothing counted and nothing in the journal. -/
theorem start_eq (strict : Bool) (fn : Func) (cache : Option AnalysisCache) :
    (start strict fn cache).1 = { func := fn, avail := (start strict fn cache).1.avail } := by
  rw [start]
  split <;> rfl

end NestedIf

end BranchFusion
