import BranchFusion.Proofs.Pass.DeadCode
import BranchFusion.Proofs.WellBuilt
import Mathlib.Algebra.Order.BigOperators.Group.List
import Mathlib.Order.Bounds.Basic

/-!
# Which definitions are kept

A phi, a constant or a binary expression is kept for its result only. A set of such definitions is
*self-supporting* (`BranchFusion.DeadCode.SelfSupporting`) if the result of each is used by a call,
by a terminator or in the set; definitions that use each other in a circle support themselves. The
union of self-supporting sets is one, so there is a greatest, and it is what a run of the pass keeps
(`BranchFusion.DeadCode.run_keeps_greatest_support`).

The rounds approach it from above. A round removes nothing that is in a self-supporting set
(`BranchFusion.DeadCode.removable_round_iff`), and when a round removes nothing at all, what is left
is self-supporting. That the rounds know when to stop is a matter of counting: a function from which
definitions were removed is smaller (`BranchFusion.DeadCode.Pruned.measure_lt_iff`).
-/

namespace BranchFusion

namespace DeadCode

variable {fn f : Func} {b : BlockId} {v : Value}

/-! ### Definitions and their support -/

/-- A phi or an instruction, with the block in which it stands. -/
inductive Definition
  | phi (b : BlockId) (p : Phi)
  | instr (b : BlockId) (i : Instr)

/-- The value that is defined. -/
def Definition.result? : Definition → Option Value
  | .phi _ p => some p.result
  | .instr _ i => i.result?

/-- The values that the definition uses. -/
def Definition.operands : Definition → List (Option Value)
  | .phi _ p => p.operands
  | .instr _ i => i.operands.map some

/-- **A definition of a function that may be removed**: a phi, a constant or a binary expression of
a live block. -/
def Definition.Removable (fn : Func) : Definition → Prop
  | .phi b p => fn.owns b ∧ p ∈ (fn.block b).phis
  | .instr b i => fn.owns b ∧ i ∈ (fn.block b).instrs ∧ i.isPure = true

/-- A call or a terminator of a live block uses the value. -/
def Demanded (fn : Func) (v : Value) : Prop :=
  ∃ b, fn.owns b ∧ ((∃ i ∈ (fn.block b).instrs, i.isPure = false ∧ v ∈ i.operands) ∨
    ∃ t, (fn.block b).term = some t ∧ v ∈ t.operands)

/-- **A set of definitions that supports itself**: the result of each of them is used by a call, by
a terminator, or by one of them. -/
structure SelfSupporting (fn : Func) (K : Set Definition) : Prop where
  removable : ∀ d ∈ K, d.Removable fn
  supported : ∀ d ∈ K, ∃ v, d.result? = some v ∧
    (Demanded fn v ∨ ∃ e ∈ K, some v ∈ e.operands)

/-- A value is used if it is in demand, or is used by a definition that may be removed. -/
theorem needed_iff_demanded :
    Needed fn v ↔ Demanded fn v ∨ ∃ e : Definition, e.Removable fn ∧ some v ∈ e.operands := by
  rw [needed_iff]
  constructor
  · rintro ⟨b, hb, hv⟩
    rcases Block.mem_uses_iff.mp hv with ⟨p, hp, hv⟩ | ⟨w, hw, ⟨i, hi, hwi⟩ | ⟨t, ht, hwt⟩⟩
    · exact Or.inr ⟨.phi b p, ⟨hb, hp⟩, hv⟩
    · obtain rfl := Option.some.inj hw
      cases hpure : i.isPure with
      | true => exact Or.inr ⟨.instr b i, ⟨hb, hi, hpure⟩, List.mem_map_of_mem hwi⟩
      | false => exact Or.inl ⟨b, hb, Or.inl ⟨i, hi, hpure, hwi⟩⟩
    · obtain rfl := Option.some.inj hw
      exact Or.inl ⟨b, hb, Or.inr ⟨t, ht, hwt⟩⟩
  · rintro (⟨b, hb, ⟨i, hi, -, hv⟩ | ⟨t, ht, hv⟩⟩ | ⟨⟨b, p⟩ | ⟨b, i⟩, he, hv⟩)
    · exact ⟨b, hb, Block.mem_uses_of_instr hi hv⟩
    · exact ⟨b, hb, Block.mem_uses_of_term ht hv⟩
    · exact ⟨b, he.1, Block.mem_uses_iff.mpr (Or.inl ⟨p, he.2, hv⟩)⟩
    · obtain ⟨w, hw, hwv⟩ := List.mem_map.mp hv
      obtain rfl := Option.some.inj hwv
      exact ⟨b, he.1, Block.mem_uses_of_instr he.2.1 hw⟩

/-- **A round keeps the definitions whose results are used.** -/
theorem removable_round_iff {d : Definition} :
    d.Removable (round fn) ↔ d.Removable fn ∧ ∃ v, d.result? = some v ∧ Needed fn v := by
  cases d with
  | phi b p =>
    simp only [Definition.Removable, Definition.result?, owns_round, Option.some.injEq,
      exists_eq_left', and_assoc]
    refine and_congr_right fun hb => ?_
    rw [block_round hb, prune, List.mem_filter, keepsPhi, List.contains_iff_mem]
    rfl
  | instr b i =>
    simp only [Definition.Removable, Definition.result?, owns_round, and_assoc]
    refine and_congr_right fun hb => ?_
    rw [block_round hb, prune, List.mem_filter, and_assoc]
    refine and_congr_right fun _ => ?_
    rw [and_comm]
    refine and_congr_right fun hpure => ?_
    rw [keepsInstr, hpure]
    cases i with
    | const r w => simp [Instr.result?, Needed]
    | binary r op x y => simp [Instr.result?, Needed]
    | call r callee args => simp [Instr.isPure] at hpure

/-! ### Functions from which definitions were removed -/

/-- **`f` is `fn` without some of its definitions**: nothing but the phis and the instructions of
live blocks is touched, their order is kept, and no call is gone. -/
structure Pruned (fn f : Func) : Prop where
  rest : f = { fn with blocks := f.blocks }
  ids : f.ids = fn.ids
  outside : ∀ b, ¬fn.owns b → f.block b = fn.block b
  inside : ∀ b, fn.owns b → ∃ (P : Phi → Bool) (Q : Instr → Bool),
    (∀ i, i.isPure = false → Q i = true) ∧
      f.block b = { fn.block b with
        phis := (fn.block b).phis.filter P
        instrs := (fn.block b).instrs.filter Q }

theorem Pruned.refl (fn : Func) : Pruned fn fn := by
  refine ⟨rfl, rfl, fun _ _ => rfl, fun b _ => ⟨fun _ => true, fun _ => true, by simp, ?_⟩⟩
  simp only [List.filter_true]

theorem Pruned.owns (h : Pruned fn f) : f.owns b ↔ fn.owns b := by
  rw [← Func.mem_ids, ← Func.mem_ids, h.ids]

/-- A round removes definitions. -/
theorem pruned_round (fn : Func) : Pruned fn (round fn) := by
  refine ⟨rfl, ids_round, fun b hb => block_round_of_not_owns hb, fun b hb => ?_⟩
  refine ⟨keepsPhi (used fn), keepsInstr (used fn), fun i hi => ?_, block_round hb⟩
  rw [keepsInstr, hi]
  rfl

theorem Pruned.trans {g : Func} (h : Pruned fn f) (h' : Pruned f g) : Pruned fn g := by
  refine ⟨?_, h'.ids.trans h.ids, fun b hb => ?_, fun b hb => ?_⟩
  · rw [h'.rest, h.rest]
  · rw [h'.outside b (fun hf => hb (h.owns.mp hf)), h.outside b hb]
  · obtain ⟨P, Q, hQ, hblock⟩ := h.inside b hb
    obtain ⟨P', Q', hQ', hblock'⟩ := h'.inside b (h.owns.mpr hb)
    refine ⟨fun p => P p && P' p, fun i => Q i && Q' i, fun i hi => by simp [hQ i hi, hQ' i hi], ?_⟩
    rw [hblock', hblock]
    simp only [List.filter_filter, Bool.and_comm]

section Pruned

variable (h : Pruned fn f)

include h

theorem Pruned.removable {d : Definition} (hd : d.Removable f) : d.Removable fn := by
  cases d with
  | phi b p =>
    have hb := h.owns.mp hd.1
    obtain ⟨P, Q, -, hblock⟩ := h.inside b hb
    have hp := hd.2
    rw [hblock] at hp
    exact ⟨hb, List.mem_of_mem_filter hp⟩
  | instr b i =>
    have hb := h.owns.mp hd.1
    obtain ⟨P, Q, -, hblock⟩ := h.inside b hb
    have hi := hd.2.1
    rw [hblock] at hi
    exact ⟨hb, List.mem_of_mem_filter hi, hd.2.2⟩

/-- Calls and terminators are where they were. -/
theorem Pruned.demanded_iff : Demanded f v ↔ Demanded fn v := by
  refine exists_congr fun b => ?_
  rw [h.owns]
  refine and_congr_right fun hb => ?_
  obtain ⟨P, Q, hQ, hblock⟩ := h.inside b hb
  rw [hblock]
  refine or_congr_left (exists_congr fun i => ?_)
  rw [List.mem_filter, and_assoc]
  refine and_congr_right fun _ => ⟨fun hi => hi.2, fun hi => ⟨hQ i hi.1, hi⟩⟩

open Classical in
/-- **The definitions that are left say what is left**: a block is without those that are gone. -/
theorem Pruned.block_eq (hb : fn.owns b) : f.block b = { fn.block b with
    phis := (fn.block b).phis.filter fun p => (Definition.phi b p).Removable f
    instrs := (fn.block b).instrs.filter fun i =>
      !i.isPure || (Definition.instr b i).Removable f } := by
  obtain ⟨P, Q, hQ, hblock⟩ := h.inside b hb
  have hphis : (fn.block b).phis.filter P =
      (fn.block b).phis.filter fun p => (Definition.phi b p).Removable f := by
    refine List.filter_congr fun p hp => ?_
    rw [Bool.eq_iff_iff, decide_eq_true_eq, Definition.Removable, hblock, List.mem_filter]
    exact ⟨fun hP => ⟨h.owns.mpr hb, hp, hP⟩, fun hd => hd.2.2⟩
  have hinstrs : (fn.block b).instrs.filter Q = (fn.block b).instrs.filter fun i =>
      !i.isPure || (Definition.instr b i).Removable f := by
    refine List.filter_congr fun i hi => ?_
    cases hpure : i.isPure with
    | false => simp [hQ i hpure]
    | true =>
      rw [Bool.not_true, Bool.false_or, Bool.eq_iff_iff, decide_eq_true_eq,
        Definition.Removable, hblock, List.mem_filter]
      exact ⟨fun hQi => ⟨h.owns.mpr hb, ⟨hi, hQi⟩, hpure⟩, fun hd => hd.2.1.2⟩
  rw [hblock, hphis, hinstrs]

/-- A block loses nothing if it keeps all its definitions. -/
theorem Pruned.block_eq_self (hall : ∀ d : Definition, d.Removable fn → d.Removable f) :
    f.block b = fn.block b := by
  by_cases hb : fn.owns b
  · classical
    have hphis : ((fn.block b).phis.filter fun p => (Definition.phi b p).Removable f) =
        (fn.block b).phis :=
      List.filter_eq_self.mpr fun p hp => decide_eq_true (hall (.phi b p) ⟨hb, hp⟩)
    have hinstrs : ((fn.block b).instrs.filter fun i =>
        !i.isPure || (Definition.instr b i).Removable f) = (fn.block b).instrs := by
      refine List.filter_eq_self.mpr fun i hi => ?_
      cases hpure : i.isPure with
      | false => rfl
      | true => simpa using hall (.instr b i) ⟨hb, hi, hpure⟩
    rw [h.block_eq hb, hphis, hinstrs]
  · exact h.outside b hb

theorem Pruned.size_le (b : BlockId) : (f.block b).size ≤ (fn.block b).size := by
  by_cases hb : fn.owns b
  · obtain ⟨P, Q, -, hblock⟩ := h.inside b hb
    have hphis := List.length_filter_le P (fn.block b).phis
    have hinstrs := List.length_filter_le Q (fn.block b).instrs
    rw [hblock, Block.size, Block.size]
    dsimp only
    omega
  · rw [h.outside b hb]

/-- A block that is as large as it was is the block that it was. -/
theorem Pruned.block_eq_of_size (hsize : (fn.block b).size ≤ (f.block b).size) :
    f.block b = fn.block b := by
  by_cases hb : fn.owns b
  · obtain ⟨P, Q, -, hblock⟩ := h.inside b hb
    have hphis := List.length_filter_le P (fn.block b).phis
    have hinstrs := List.length_filter_le Q (fn.block b).instrs
    rw [hblock, Block.size, Block.size] at hsize
    dsimp only at hsize
    have hP : (fn.block b).phis.filter P = (fn.block b).phis :=
      List.filter_sublist.eq_of_length_le (by omega)
    have hQ : (fn.block b).instrs.filter Q = (fn.block b).instrs :=
      List.filter_sublist.eq_of_length_le (by omega)
    rw [hblock, hP, hQ]
  · exact h.outside b hb

/-- Where a definition is gone, a block is smaller. -/
theorem Pruned.exists_size_lt {d : Definition} (hd : d.Removable fn) (hgone : ¬d.Removable f) :
    ∃ b, fn.owns b ∧ (f.block b).size < (fn.block b).size := by
  by_contra hnone
  have hsame : ∀ b, fn.owns b → f.block b = fn.block b := fun b hb =>
    h.block_eq_of_size (Nat.le_of_not_lt fun hless => hnone ⟨b, hb, hless⟩)
  refine hgone ?_
  cases d with
  | phi b p => exact ⟨h.owns.mpr hd.1, by rw [hsame b hd.1]; exact hd.2⟩
  | instr b i => exact ⟨h.owns.mpr hd.1, by rw [hsame b hd.1]; exact hd.2⟩

/-- **A function is smaller just when definitions were removed.** -/
theorem Pruned.measure_lt_iff :
    f.measure < fn.measure ↔ ∃ d : Definition, d.Removable fn ∧ ¬d.Removable f := by
  rw [Func.measure_eq_sum, Func.measure_eq_sum, h.ids]
  constructor
  · intro hless
    by_contra hall
    simp only [not_exists, not_and, not_not] at hall
    simp only [h.block_eq_self hall, lt_irrefl] at hless
  · rintro ⟨d, hd, hgone⟩
    obtain ⟨b, hb, hless⟩ := h.exists_size_lt hd hgone
    exact List.sum_lt_sum _ _ (fun c _ => Nat.succ_le_succ (h.size_le c))
      ⟨b, Func.mem_ids.mpr hb, Nat.succ_lt_succ hless⟩

end Pruned

/-! ### Whole runs -/

theorem pruned_run (fn : Func) : Pruned fn (run fn).1 :=
  rounds_induction (fun _ hf => hf.trans (pruned_round _)) (fn.measure + 1) fn false (.refl fn)

/-- **The rounds end when there is nothing to remove**: with as many rounds as the function is
large, another round would not make it smaller. -/
theorem rounds_end : ∀ (fuel : Nat) (f : Func) (changed : Bool), f.measure < fuel →
    ¬(round (rounds fuel f changed).1).measure < (rounds fuel f changed).1.measure
  | 0, _, _, hfuel => absurd hfuel (by simp)
  | fuel + 1, f, changed, hfuel => by
    rw [rounds]
    split
    · exact rounds_end fuel (round f) true (by omega)
    · next hdone => exact hdone

theorem run_ends (fn : Func) : ¬(round (run fn).1).measure < (run fn).1.measure :=
  rounds_end (fn.measure + 1) fn false (Nat.lt_succ_self _)

/-- After a run every definition that is left is used. -/
theorem needed_of_removable_run {d : Definition} (hd : d.Removable (run fn).1) :
    ∃ v, d.result? = some v ∧ Needed (run fn).1 v := by
  by_contra hunused
  refine run_ends fn ((pruned_round _).measure_lt_iff.mpr ⟨d, hd, fun hkept => hunused ?_⟩)
  exact (removable_round_iff.mp hkept).2

/-- What is left after a run supports itself. -/
theorem selfSupporting_run (fn : Func) : SelfSupporting fn {d | d.Removable (run fn).1} := by
  have hpruned := pruned_run fn
  refine ⟨fun d hd => hpruned.removable hd, fun d hd => ?_⟩
  obtain ⟨v, hv, hneeded⟩ := needed_of_removable_run hd
  refine ⟨v, hv, ?_⟩
  rcases needed_iff_demanded.mp hneeded with hdemand | ⟨e, he, hve⟩
  · exact Or.inl (hpruned.demanded_iff.mp hdemand)
  · exact Or.inr ⟨e, he, hve⟩

/-- **A round spares what supports itself.** -/
theorem SelfSupporting.round {K : Set Definition} (hK : SelfSupporting fn K) (hf : Pruned fn f)
    (hleft : ∀ d ∈ K, d.Removable f) : ∀ d ∈ K, d.Removable (round f) := by
  intro d hd
  obtain ⟨v, hv, hsupport⟩ := hK.supported d hd
  refine removable_round_iff.mpr ⟨hleft d hd, v, hv, needed_iff_demanded.mpr ?_⟩
  rcases hsupport with hdemand | ⟨e, he, hve⟩
  · exact Or.inl (hf.demanded_iff.mpr hdemand)
  · exact Or.inr ⟨e, hleft e he, hve⟩

theorem SelfSupporting.run {K : Set Definition} (hK : SelfSupporting fn K) :
    ∀ d ∈ K, d.Removable (run fn).1 :=
  (rounds_induction (I := fun f => Pruned fn f ∧ ∀ d ∈ K, d.Removable f)
    (fun _ hf => ⟨hf.1.trans (pruned_round _), hK.round hf.1 hf.2⟩) (fn.measure + 1) fn false
    ⟨.refl fn, hK.removable⟩).2

open Classical in
/-- **Removal keeps the greatest set of definitions that supports itself**, with all calls, in the
order in which they were. Nothing else of the function is touched: the live blocks are the same and
have their labels, predecessors and terminators. A change is reported just when a definition is
gone, and running the pass again changes nothing. -/
theorem run_keeps_greatest_support (fn : Func) :
    ∃ K : Set Definition, IsGreatest {K | SelfSupporting fn K} K ∧
      (run fn).1 = { fn with blocks := (run fn).1.blocks } ∧ (run fn).1.ids = fn.ids ∧
      (∀ b, ¬fn.owns b → (run fn).1.block b = fn.block b) ∧
      (∀ b, fn.owns b → (run fn).1.block b = { fn.block b with
        phis := (fn.block b).phis.filter fun p => Definition.phi b p ∈ K
        instrs := (fn.block b).instrs.filter fun i => !i.isPure || Definition.instr b i ∈ K }) ∧
      ((run fn).2 = true ↔ ∃ d : Definition, d.Removable fn ∧ d ∉ K) ∧
      run (run fn).1 = ((run fn).1, false) := by
  have hpruned := pruned_run fn
  refine ⟨{d | d.Removable (run fn).1}, ⟨selfSupporting_run fn, fun K hK => hK.run⟩, hpruned.rest,
    hpruned.ids, hpruned.outside, fun b hb => hpruned.block_eq hb, ?_, ?_⟩
  · refine Iff.trans ?_ hpruned.measure_lt_iff
    rcases rounds_measure (fn.measure + 1) fn false with hrun | ⟨hless, hchanged⟩
    · have hsame : run fn = (fn, false) := hrun
      simp [hsame]
    · exact ⟨fun _ => hless, fun _ => hchanged⟩
  · rw [run, rounds, if_neg (run_ends fn)]

end DeadCode

end BranchFusion
