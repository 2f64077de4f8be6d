import BranchFusion.Pass.Basic
import BranchFusion.Proofs.Dominance.Tree
import BranchFusion.Proofs.Emulation.Absorption
import BranchFusion.Proofs.Pass.Attempts

/-!
# Folding the branches of a function

A fold keeps a function valid and in strict form. It also keeps what the function does, provided
that the inner condition is available at the outer branch: the conjunction reads it on paths that
never met the inner branch. There are two reasons why it may be available. In a function in strict
form it always is, since the middle block defines nothing. In strict mode it is looked up, and
`BranchFusion.NestedIf.Availability.Sound` says that what strict mode knows stays true while the run
folds one pair of branches after the other, although the dominators are those of the first function.
`BranchFusion.NestedIf.Availability.Complete` says that strict mode knows all that is true.

`BranchFusion.NestedIf.run_induction` carries such facts from one fold to a whole run, which never
meets a fault.
-/

namespace BranchFusion

namespace NestedIf

open Emulator

variable {fn fn' : Func} {b x : BlockId} {n : Nest} {cond : Value}

/-! ### Strict form -/

/-- In strict form, the inner condition is available at the outer branch. -/
theorem Found.available_of_strict (hf : Found fn b n) (hv : fn.Valid) (hs : fn.Strict)
    (hb : fn.owns b) : fn.Available b n.inner := by
  have hm := (hf.owned hv.toWired hb).1
  have hknown := hs.term n.middle hm _ hf.inner_term n.inner (by simp [Terminator.operands])
  rcases hknown with hp | hd | ⟨d, hne, hd, hvd, hdom⟩
  · exact Or.inl hp
  · rw [hf.no_definitions] at hd
    exact absurd hd (by simp)
  · have he : fn.Edge b n.middle := (hf.edge_middle_iff hv.toWired hb hb).mpr rfl
    exact Or.inr ⟨d, hd, hvd, hdom.of_edge hne (hv.reached b hb) he⟩

/-- **A fold keeps strict form.** -/
theorem Folded.strict (h : Folded fn fn' b n cond) (hf : Found fn b n) (hv : fn.Valid)
    (hentered : fn.Entered) (hb : fn.owns b) (hs : fn.Strict) : fn'.Strict := by
  have hab := h.absorbs hf hv hentered hb
  have hm := (hf.owned hv.toWired hb).1
  have hcode := h.instrs b hab.ne
  rw [if_pos rfl] at hcode
  refine hab.strict hv hs hcode (fun before i after hi v hvi => ?_) fun t ht v hvt => ?_
  · obtain ⟨rfl, rfl⟩ : before = [] ∧ i = .binary cond .land n.outer n.inner := by
      cases before with
      | nil => exact ⟨rfl, (List.cons.inj hi).1.symm⟩
      | cons j before => exact absurd (List.cons.inj hi).2 (by simp)
    rw [List.filterMap_nil, List.append_nil]
    rcases List.mem_pair.mp hvi with rfl | rfl
    · exact hab.known hv.closed hab.ne
        (hs.term b hb _ hf.outer_term _ (by simp [Terminator.operands]))
    · have hknown := hab.known_removed hv.closed
        (hs.term n.middle hm _ hf.inner_term n.inner (by simp [Terminator.operands]))
      rwa [hf.no_definitions, List.append_nil] at hknown
  · rw [h.term b hab.ne, if_pos rfl] at ht
    obtain rfl := Option.some.inj ht
    refine Or.inr (Or.inl ?_)
    rw [hab.definitions]
    simpa [Terminator.operands] using Or.inr (Or.inr hvt)

/-! ### What a fold does -/

theorem truth_ne_zero (p : Bool) : (Operator.truth p != 0) = p := by
  cases p <;> decide

/-- The code that a fold adds: the conjunction, and the branch on it. -/
theorem finish_conjunction {handler : CallHandler} {t : State} {u w : Int64}
    (hu : t.env.get? n.outer = some u) (hw : t.env.get? n.inner = some w) :
    finish fn handler b [.binary cond .land n.outer n.inner]
        (some (.branch cond n.target n.shared)) t =
      .ok (.goto (if u != 0 && w != 0 then n.target else n.shared),
        { t with env := t.env.set cond (Operator.truth (u != 0 && w != 0)) }) := by
  have hexec : execAll fn handler t [.binary cond .land n.outer n.inner] =
      .ok { t with env := t.env.set cond (Operator.truth (u != 0 && w != 0)) } := by
    rw [execAll, exec, read_of_some hu, read_of_some hw]
    rfl
  have hcond : (t.env.set cond (Operator.truth (u != 0 && w != 0))).get? cond =
      some (Operator.truth (u != 0 && w != 0)) := by
    rw [Table.get?_set, if_pos rfl]
  have hbranch : finish fn handler b [] (some (.branch cond n.target n.shared))
      { t with env := t.env.set cond (Operator.truth (u != 0 && w != 0)) } = _ :=
    finish_branch hcond
  rw [truth_ne_zero] at hbranch
  rw [← List.append_nil [Instr.binary cond .land n.outer n.inner], finish_append, hexec]
  exact hbranch

/-- **The folded branch does what the two branches did**, if the inner condition is available. -/
theorem Folded.takesOver (h : Folded fn fn' b n cond) (hf : Found fn b n) (hv : fn.Valid)
    (hentered : fn.Entered) (hb : fn.owns b) (hav : fn.Available b n.inner) :
    TakesOver fn fn' b n.middle [cond] := by
  have hab := h.absorbs hf hv hentered hb
  have hm := (hf.owned hv.toWired hb).1
  have hcode := h.instrs b hab.ne
  have hterm := h.term b hab.ne
  rw [if_pos rfl] at hcode hterm
  have houter : n.outer ∉ [cond] := not_fresh_of_reads hab hv hb
    (Or.inr ⟨_, hf.outer_term, by simp [Terminator.operands]⟩)
  have hinner : n.inner ∉ [cond] := not_fresh_of_reads hab hv hm
    (Or.inr ⟨_, hf.inner_term, by simp [Terminator.operands]⟩)
  refine takesOver_of_ends h.name hcode
    (fun i hi v hvi => not_fresh_of_reads hab hv hb (Or.inl ⟨i, hi, hvi⟩)) ?_
  intro handler t t' ht hready
  rw [hf.outer_term, hterm]
  obtain ⟨w, hw⟩ := Option.isSome_iff_exists.mp (hready n.inner hav)
  have hw' : t'.env.get? n.inner = some w := (ht.env n.inner hinner).symm.trans hw
  have heq := ht.env n.outer houter
  cases hu : t.env.get? n.outer with
  | none =>
    -- both functions stop at the outer condition
    rw [hu] at heq
    refine Or.inl ?_
    have hnew : finish fn' handler b [.binary cond .land n.outer n.inner]
        (some (.branch cond n.target n.shared)) t' =
          .error ⟨.undefinedRead fn.name (some n.outer), t.trace⟩ := by
      rw [finish, execAll, exec, read_of_none heq.symm, h.name, ht.trace]
      rfl
    rw [finish_branch_of_none hu, hnew]
    exact .error _
  | some u =>
    rw [hu] at heq
    have hset := ht.set_right (v := cond) (by simp) (Operator.truth (u != 0 && w != 0))
    rw [finish_branch hu, finish_conjunction heq.symm hw']
    cases hu0 : u != 0 with
    | true =>
      -- the old run goes on to the inner branch, which defines nothing and decides by `w`
      have hmid : code fn handler n.middle t =
          .ok (.goto (if w != 0 then n.target else n.shared), t) := by
        rw [code, hf.no_instrs, hf.inner_term]
        exact finish_branch hw
      refine Or.inr ⟨t, rfl, ?_⟩
      rw [hu0] at hset
      rw [hmid]
      exact .ok ⟨rfl, hset⟩
    | false =>
      rw [hu0] at hset
      exact Or.inl (.ok ⟨rfl, hset⟩)

/-- **A fold keeps what a function does**, errors included. -/
theorem Folded.refines (h : Folded fn fn' b n cond) (hf : Found fn b n) (hv : fn.Valid)
    (hentered : fn.Entered) (hb : fn.owns b) (hav : fn.Available b n.inner) :
    fn.Refines (· ≠ .stepLimit) fn' :=
  refines_of_absorbs (h.absorbs hf hv hentered hb) hv (h.takesOver hf hv hentered hb hav)

theorem Folded.valid (h : Folded fn fn' b n cond) (hf : Found fn b n) (hv : fn.Valid)
    (hentered : fn.Entered) (hb : fn.owns b) : fn'.Valid :=
  (h.absorbs hf hv hentered hb).valid hv (h.wired hf hv.toWired hb)

/-! ### What strict mode knows -/

/-- **What strict mode knows about a function is true of it.** The function may be a later one than
the dominators were computed for. -/
structure Availability.Sound (a : Availability) (fn : Func) : Prop where
  site : ∀ v d, a.sites.get? v = some d → fn.owns d ∧ v ∈ (fn.block d).definitions
  tree : ∀ d x, fn.owns d → fn.owns x → a.tree.dominates d x = true → fn.Dominates d x

theorem Availability.Sound.available {a : Availability} (ha : a.Sound fn) (hv : fn.Valid)
    (hb : fn.owns b) {v : Value} (hk : a.knows fn b v = true) : fn.Available b v := by
  rw [Availability.knows, Bool.or_eq_true] at hk
  rcases hk with hp | hk
  · exact Or.inl (List.contains_iff_mem.mp hp)
  · cases hd : a.sites.get? v with
    | none => simp [hd] at hk
    | some d =>
      obtain ⟨hown, hvd⟩ := ha.site v d hd
      simp only [hd, Bool.or_eq_true, decide_eq_true_eq] at hk
      rcases hk with rfl | hk
      · exact Or.inr ⟨d, hown, hvd, .refl (hv.reached d hown)⟩
      · exact Or.inr ⟨d, hown, hvd, ha.tree d b hown hb hk⟩

/-- The middle block defines nothing, and dominance between the other blocks is kept; so a fold
leaves what was known true, and adds the conjunction. -/
theorem Availability.Sound.fold {a : Availability} (ha : a.Sound fn)
    (h : Folded fn fn' b n cond) (hf : Found fn b n) (hw : fn.Wired) (hb : fn.owns b) :
    Availability.Sound { a with sites := a.sites.set cond b } fn' := by
  refine ⟨fun v d hvd => ?_, fun d x hd hx hdom => ?_⟩
  · rw [Table.get?_set] at hvd
    split at hvd
    · next hcond =>
      obtain rfl := Option.some.inj hvd
      have hbm : b ≠ n.middle := Ne.symm hf.middle_ne
      exact ⟨(h.owns b).mpr ⟨hb, hbm⟩,
        (h.mem_definitions_iff hf hbm).mpr (Or.inr ⟨rfl, hcond.symm⟩)⟩
    · obtain ⟨hown, hmem⟩ := ha.site v d hvd
      have hd : d ≠ n.middle := by
        rintro rfl
        rw [hf.no_definitions] at hmem
        exact absurd hmem (by simp)
      exact ⟨(h.owns d).mpr ⟨hown, hd⟩, (h.mem_definitions_iff hf hd).mpr (Or.inl hmem)⟩
  · exact (h.dominates_iff hf hw hb hd hx).mpr
      (ha.tree d x ((h.owns d).mp hd).1 ((h.owns x).mp hx).1 hdom)

/-- **What is true of a function, strict mode knows**: where its values are defined, and which of
its live blocks dominate which. -/
structure Availability.Complete (a : Availability) (fn : Func) : Prop where
  site : ∀ v d, fn.owns d → v ∈ (fn.block d).definitions → a.sites.get? v = some d
  tree : ∀ d x, fn.owns d → fn.owns x → fn.Dominates d x → a.tree.dominates d x = true

theorem Availability.Complete.knows {a : Availability} (ha : a.Complete fn) (hb : fn.owns b)
    {v : Value} (h : fn.Available b v) : a.knows fn b v = true := by
  rw [Availability.knows, Bool.or_eq_true]
  rcases h with hp | ⟨d, hd, hvd, hdom⟩
  · exact Or.inl (List.contains_iff_mem.mpr hp)
  · refine Or.inr ?_
    rw [ha.site v d hd hvd]
    simp [ha.tree d b hd hb hdom]

/-- A fold leaves nothing unknown: the conjunction is a new value, so the other definitions are
found where they were. -/
theorem Availability.Complete.fold {a : Availability} (ha : a.Complete fn)
    (h : Folded fn fn' b n cond) (hf : Found fn b n) (hw : fn.Wired) (hentered : fn.Entered)
    (hb : fn.owns b) : Availability.Complete { a with sites := a.sites.set cond b } fn' := by
  refine ⟨fun v d hd hvd => ?_, fun d x hd hx hdom => ?_⟩
  · obtain ⟨hown, hdm⟩ := (h.owns d).mp hd
    rw [Table.get?_set]
    rcases (h.mem_definitions_iff hf hdm).mp hvd with hvd | ⟨rfl, rfl⟩
    · have hne : cond ≠ v := by
        rintro rfl
        exact h.not_defined hentered (Or.inr ⟨d, hown, hvd⟩)
      rw [if_neg hne]
      exact ha.site v d hown hvd
    · rw [if_pos rfl]
  · exact ha.tree d x ((h.owns d).mp hd).1 ((h.owns x).mp hx).1
      ((h.dominates_iff hf hw hb hd hx).mp hdom)

/-- The table of definitions lists blocks that define the values. -/
theorem mem_definitions_of_get? {v : Value} {d : BlockId} (h : fn.definitions.get? v = some d) :
    fn.owns d ∧ v ∈ (fn.block d).definitions := by
  rcases Table.get?_sites fn.ids [] h with ⟨hd, hmem⟩ | hnone
  · exact ⟨Func.mem_ids.mp hd, hmem⟩
  · exact absurd hnone (by simp [Table.get?])

/-- At the start, strict mode knows the dominators and the definitions of the function. -/
theorem sound_start (hc : fn.Closed) :
    Availability.Sound ⟨DominatorTree.build fn, fn.definitions⟩ fn :=
  ⟨fun _ _ h => mem_definitions_of_get? h, fun _ _ _ hx h =>
    (DominatorTree.dominates_build_iff hc (Func.func_of_owns hx)).mp h⟩

/-- Where no value is defined in two blocks, nothing else is to be known. -/
theorem complete_start (hc : fn.Closed) (hunique : ∀ b c v, fn.owns b → fn.owns c →
      v ∈ (fn.block b).definitions → v ∈ (fn.block c).definitions → b = c) :
    Availability.Complete ⟨DominatorTree.build fn, fn.definitions⟩ fn := by
  refine ⟨fun v d hd hvd => ?_, fun _ _ _ hx h =>
    (DominatorTree.dominates_build_iff hc (Func.func_of_owns hx)).mpr h⟩
  have hkey : v ∈ fn.definitions.keys :=
    (Table.mem_keys_sites fn.ids []).mpr (Or.inl ⟨d, Func.mem_ids.mpr hd, hvd⟩)
  obtain ⟨e, he⟩ := Option.isSome_iff_exists.mp (Table.isSome_get?_iff.mpr hkey)
  obtain ⟨hown, hve⟩ := mem_definitions_of_get? he
  rw [he, hunique e d v hown hd hve hvd]

/-- Two who know all that is true, and nothing else, know the same. -/
theorem Availability.Complete.agree {a a' : Availability} (hc : a.Complete fn) (hs : a.Sound fn)
    (hc' : a'.Complete fn) (hs' : a'.Sound fn) :
    (∀ v, a.sites.get? v = a'.sites.get? v) ∧
      ∀ d x, fn.owns d → fn.owns x → a.tree.dominates d x = a'.tree.dominates d x := by
  refine ⟨fun v => Option.ext fun d => ⟨fun h => ?_, fun h => ?_⟩, fun d x hd hx => ?_⟩
  · obtain ⟨hd, hvd⟩ := hs.site v d h
    exact hc'.site v d hd hvd
  · obtain ⟨hd, hvd⟩ := hs'.site v d h
    exact hc.site v d hd hvd
  · rw [Bool.eq_iff_iff]
    exact ⟨fun h => hc'.tree d x hd hx (hs.tree d x hd hx h),
      fun h => hc.tree d x hd hx (hs'.tree d x hd hx h)⟩

/-! ### Whole runs -/

/-- **What every fold keeps, a run keeps**, and a run meets no fault. What is kept may depend on how
many folds there were. -/
theorem attemptAll_induction {I : Func → Option Availability → Int → Prop}
    (hwired : ∀ f a k, I f a k → f.Wired)
    (hfold : ∀ f f' a k b n cond, I f a k → f.owns b → Found f b n →
      (∀ av, a = some av → av.knows f b n.inner = true) → Folded f f' b n cond →
        I f' (a.map fun av => { av with sites := av.sites.set cond b }) (k + 1))
    (cs : List Candidate) (p : Progress) (hstart : I p.func p.avail p.counters.combined)
    (hcs : ∀ c ∈ cs, c.block.func = p.func.serial) :
    ∃ p', attemptAll p cs = .ok p' ∧ I p'.func p'.avail p'.counters.combined := by
  have hrun := attemptAll_history
    (I := fun _ q ds => I q.func q.avail q.counters.combined ∧
      ∀ c ∈ ds, c.block.func = q.func.serial)
    (fun _ q c ds h => ⟨hwired _ _ _ h.1, h.2 c List.mem_cons_self⟩) ?step cs [] p ⟨hstart, hcs⟩
  case step =>
    rintro _ q c ds o q' ⟨hI, hds⟩ ht
    have hrest : ∀ d ∈ ds, d.block.func = q.func.serial := fun d hd =>
      hds d (List.mem_cons_of_mem c hd)
    cases ht with
    | stale => exact ⟨hI, hrest⟩
    | rejected => exact ⟨hI, hrest⟩
    | folded hstale hfind hfolds havail hcounters =>
      obtain ⟨hf, hknown⟩ := found_of_find hfind
      have hb := (owns_of_not_stale (hds c List.mem_cons_self) hstale).1
      have hfolded := folded_of_fold hf (hwired _ _ _ hI) hb hfolds
      rw [havail, hcounters, hfolded.serial]
      exact ⟨hfold _ _ _ _ _ _ _ hI hb hf hknown hfolded, hrest⟩
  obtain ⟨p', hp', hI, -⟩ := hrun
  exact ⟨p', hp', hI⟩

/-- **The induction over a run of the pass.** -/
theorem run_induction {I : Func → Option Availability → Int → Prop} {strict : Bool}
    {cache : Option AnalysisCache} (hwired : ∀ f a k, I f a k → f.Wired)
    (hfold : ∀ f f' a k b n cond, I f a k → f.owns b → Found f b n →
      (∀ av, a = some av → av.knows f b n.inner = true) → Folded f f' b n cond →
        I f' (a.map fun av => { av with sites := av.sites.set cond b }) (k + 1))
    (hstart : I fn (start strict fn cache).1.avail 0) :
    ∃ p, (run strict fn cache).1 = .ok p ∧ I p.func p.avail p.counters.combined := by
  refine attemptAll_induction hwired hfold (candidates fn) (start strict fn cache).1 ?_ ?_
  · rw [start_eq]
    exact hstart
  · rw [start_eq]
    exact fun c hc => func_of_mem_candidates hc

/-- **A run keeps a function valid**, and if it was in strict form it keeps that and what the
function does. Strictness of the run and the state of the cache make no difference. -/
theorem run_valid (hv : fn.Valid) (hentered : fn.Entered) (strict : Bool)
    (cache : Option AnalysisCache) :
    ∃ p, (run strict fn cache).1 = .ok p ∧ p.func.Valid ∧ p.func.Entered ∧
      (fn.Strict → p.func.Strict ∧ fn.Refines (· ≠ .stepLimit) p.func) := by
  refine run_induction (I := fun f _ _ => f.Valid ∧ f.Entered ∧
    (fn.Strict → f.Strict ∧ fn.Refines (· ≠ .stepLimit) f)) ?_ ?_ ?_
  · exact fun f _ _ hI => hI.1.toWired
  · rintro f f' a k b n cond ⟨hfv, hfe, hfs⟩ hb hf - hfolded
    refine ⟨hfolded.valid hf hfv hfe hb, hfolded.entered hf hfe, fun hs => ?_⟩
    obtain ⟨hfstrict, hrefines⟩ := hfs hs
    refine ⟨hfolded.strict hf hfv hfe hb hfstrict, hrefines.trans ?_⟩
    exact hfolded.refines hf hfv hfe hb (hf.available_of_strict hfv hfstrict hb)
  · exact ⟨hv, hentered, fun hs => ⟨hs, .refl fn⟩⟩

/-- **A run in strict mode keeps what a function does**, strict form or not, if the dominators that
it is given are those of the function. -/
theorem run_refines (hv : fn.Valid) (hentered : fn.Entered) {cache : Option AnalysisCache}
    (htree : (dominatorsWith fn cache).1 = DominatorTree.build fn) :
    ∃ p, (run true fn cache).1 = .ok p ∧ fn.Refines (· ≠ .stepLimit) p.func := by
  suffices hrun : ∃ p, (run true fn cache).1 = .ok p ∧ p.func.Valid ∧ p.func.Entered ∧
      (∃ av, p.avail = some av ∧ av.Sound p.func) ∧ fn.Refines (· ≠ .stepLimit) p.func by
    obtain ⟨p, hp, -, -, -, hrefines⟩ := hrun
    exact ⟨p, hp, hrefines⟩
  refine run_induction (I := fun f a _ => f.Valid ∧ f.Entered ∧
    (∃ av, a = some av ∧ av.Sound f) ∧ fn.Refines (· ≠ .stepLimit) f) ?_ ?_ ?_
  · exact fun f _ _ hI => hI.1.toWired
  · rintro f f' a k b n cond ⟨hfv, hfe, ⟨av, rfl, hsound⟩, hrefines⟩ hb hf hknown hfolded
    refine ⟨hfolded.valid hf hfv hfe hb, hfolded.entered hf hfe,
      ⟨_, rfl, hsound.fold hfolded hf hfv.toWired hb⟩, hrefines.trans ?_⟩
    exact hfolded.refines hf hfv hfe hb (hsound.available hfv hb (hknown av rfl))
  · refine ⟨hv, hentered, ⟨⟨DominatorTree.build fn, fn.definitions⟩, ?_, sound_start hv.closed⟩,
      .refl fn⟩
    rw [start, if_pos rfl, ← htree]

end NestedIf

/-- What comes of a run of the pass that met no fault. -/
theorem Pass.run_nestedIf {fn : Func} {strict : Bool} {cache : Option AnalysisCache}
    {q : NestedIf.Progress} (hq : (NestedIf.run strict fn cache).1 = .ok q) :
    Pass.run .nestedIf strict fn cache =
      { func := q.func, cache := (NestedIf.run strict fn cache).2
        changed := q.counters.combined ≠ 0, counters := q.counters, journal := q.journal } := by
  rw [Pass.run]
  cases hrun : NestedIf.run strict fn cache with
  | mk result c =>
    rw [hrun] at hq
    simp only at hq
    rw [hq]

end BranchFusion
