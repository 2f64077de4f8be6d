import BranchFusion.Pass.NestedIf
import BranchFusion.Proofs.Contraction

/-!
# Folding one pair of branches

What a fold needs is written down once (`BranchFusion.NestedIf.Found`), as it is found by
`BranchFusion.NestedIf.find`. In a wired function such a fold always succeeds, and
`BranchFusion.NestedIf.Folded` says what comes of it, part by part: the outer block gets the
conjunction and the new branch, phis and predecessor lists of the two targets are redirected, and
nothing else changes. Wiring is kept, edge for edge, and so is dominance between the blocks that
stay (`BranchFusion.NestedIf.Folded.dominates_iff`): a fold contracts the edge between the two.

In a valid function a fold is an absorption (`BranchFusion.NestedIf.Folded.absorbs`): the outer
block absorbs the middle one.
-/

namespace BranchFusion

namespace NestedIf

variable {fn fn' : Func} {avail : Option Availability} {b x : BlockId} {n : Nest} {cond : Value}

/-! ### The pattern -/

/-- **Two branches that can be folded** at the block `b`. -/
structure Found (fn : Func) (b : BlockId) (n : Nest) : Prop where
  outer_term : (fn.block b).term = some (.branch n.outer n.middle n.shared)
  inner_term : (fn.block n.middle).term = some (.branch n.inner n.target n.shared)
  no_phis : (fn.block n.middle).phis = []
  no_instrs : (fn.block n.middle).instrs = []
  middle_ne : n.middle ≠ b
  target_ne : n.target ≠ n.middle
  shared_ne : n.shared ≠ n.middle
  not_entry : fn.root ≠ some n.middle
  preds : (fn.block n.middle).preds = [b]
  /-- The phis of the shared block do not tell the two false edges apart. -/
  phis : ∀ p ∈ (fn.block n.shared).phis, p.valueFrom b = p.valueFrom n.middle

/-- What is found can be folded, and in strict mode the inner condition is known. -/
theorem found_of_find (h : find fn avail b = .ok n) :
    Found fn b n ∧ ∀ a, avail = some a → a.knows fn b n.inner = true := by
  rw [find] at h
  split at h
  · next outer middle onFalse hterm =>
    dsimp only at h
    split at h
    · exact absurd h (by simp)
    next hsize =>
    split at h
    · next inner target shared hmid =>
      split_ifs at h with helse hself hentry hpreds hphis havail
      obtain rfl := Except.ok.inj h
      obtain rfl := not_not.mp helse
      obtain ⟨hb, ht, hs⟩ := (not_or.mp hself).imp_right not_or.mp
      have hempty : (fn.block middle).phis.length = 0 ∧ (fn.block middle).instrs.length = 0 := by
        simp only [Block.size, hmid, Option.isSome_some, if_true] at hsize
        omega
      refine ⟨⟨hterm, hmid, List.length_eq_zero_iff.mp hempty.1,
        List.length_eq_zero_iff.mp hempty.2, hb, ht, hs, hentry, not_not.mp hpreds, ?_⟩, ?_⟩
      · intro p hp
        by_contra hne
        exact hphis (List.any_eq_true.mpr ⟨p, hp, by simpa using hne⟩)
      · rintro a rfl
        simpa using havail
    · exact absurd h (by simp)
  · exact absurd h (by simp)

/-! ### The result of a fold -/

/-- What a fold does to a phi of the block `x`. -/
def reroute (b : BlockId) (n : Nest) (x : BlockId) (p : Phi) : Phi :=
  let p := if x = n.target then p.moveInput n.middle b else p
  if x = n.shared then p.dropInput n.middle else p

/-- **What comes of a fold.** -/
structure Folded (fn fn' : Func) (b : BlockId) (n : Nest) (cond : Value) : Prop where
  serial : fn'.serial = fn.serial
  name : fn'.name = fn.name
  root : fn'.root = fn.root
  params : fn'.params = fn.params
  values : fn'.values = fn.values.push cond
  cond_func : cond.func = fn.serial
  cond_id : cond.id = fn.values.size
  cond_name : cond.name = fn.freshName "nested.if.combined"
  label : ∀ x, fn'.label x = fn.label x
  owns : ∀ x, fn'.owns x ↔ fn.owns x ∧ x ≠ n.middle
  instrs : ∀ x, x ≠ n.middle → (fn'.block x).instrs =
    if x = b then (fn.block b).instrs ++ [.binary cond .land n.outer n.inner]
    else (fn.block x).instrs
  term : ∀ x, x ≠ n.middle → (fn'.block x).term =
    if x = b then some (.branch cond n.target n.shared) else (fn.block x).term
  phis : ∀ x, x ≠ n.middle → (fn'.block x).phis = (fn.block x).phis.map (reroute b n x)
  /-- An edge from the middle block to the target becomes one from the outer block, and one to the
  shared block disappears. -/
  preds : ∀ x q, x ≠ n.middle → (fn'.block x).preds.count q +
      (if q = n.middle then (if x = n.target then 1 else 0) + (if x = n.shared then 1 else 0)
        else 0) =
    (fn.block x).preds.count q + (if q = b ∧ x = n.target then 1 else 0)

/-- The edits of a fold, given the new predecessors of the target and of the shared block. -/
def edits (b : BlockId) (n : Nest) (cond : Value) (ps qs : List BlockId) :
    List (BlockId × (Block → Block)) :=
  [(b, fun bb => { bb with
      instrs := bb.instrs ++ [.binary cond .land n.outer n.inner]
      term := some (.branch cond n.target n.shared) }),
    (n.target, fun bb => { bb with preds := ps }),
    (n.target, fun bb => { bb with phis := bb.phis.map fun p => p.moveInput n.middle b }),
    (n.shared, fun bb => { bb with preds := qs }),
    (n.shared, fun bb => { bb with phis := bb.phis.map fun p => p.dropInput n.middle }),
    (n.middle, fun bb => { bb with preds := [], term := none })]

theorem live_edits {ps qs : List BlockId} :
    ∀ e ∈ edits b n cond ps qs, ∀ bb, (e.2 bb).live = bb.live := by
  simp [edits]

theorem label_edits {ps qs : List BlockId} :
    ∀ e ∈ edits b n cond ps qs, ∀ bb, (e.2 bb).label = bb.label := by
  simp [edits]

/-- The blocks that a fold edits are live. -/
theorem Found.owned (hf : Found fn b n) (hw : fn.Wired) (hb : fn.owns b) :
    fn.owns n.middle ∧ fn.owns n.target ∧ fn.owns n.shared := by
  have hmid : fn.owns n.middle := hw.successors b n.middle hb (by
    simp [Func.Edge, Func.successors, Block.successors, Block.edges, hf.outer_term,
      Terminator.edges])
  refine ⟨hmid, hw.successors n.middle n.target hmid ?_, hw.successors n.middle n.shared hmid ?_⟩
  all_goals simp [Func.Edge, Func.successors, Block.successors, Block.edges, hf.inner_term,
    Terminator.edges]

theorem owns_of_mem_edits (hf : Found fn b n) (hw : fn.Wired) (hb : fn.owns b)
    {ps qs : List BlockId} : ∀ e ∈ edits b n cond ps qs, fn.owns e.1 := by
  obtain ⟨hm, ht, hs⟩ := hf.owned hw hb
  simp [edits, hb, hm, ht, hs]

theorem successors_of_found (hf : Found fn b n) :
    fn.successors b = [n.middle, n.shared] ∧ fn.successors n.middle = [n.target, n.shared] := by
  simp [Func.successors, Block.successors, Block.edges, hf.outer_term, hf.inner_term,
    Terminator.edges]

/-- The predecessor lists have the entries that a fold changes. -/
theorem exists_preds (hf : Found fn b n) (hw : fn.Wired) (hb : fn.owns b) :
    ∃ ps qs, replaceFirst n.middle b (fn.block n.target).preds = some ps ∧
      removeFirst n.middle (if n.shared = n.target then ps else (fn.block n.shared).preds) =
        some qs ∧
      (∀ q, ps.count q + (if q = n.middle then 1 else 0) =
        (fn.block n.target).preds.count q + (if q = b then 1 else 0)) ∧
      ∀ q, qs.count q + (if q = n.middle then 1 else 0) =
        (if n.shared = n.target then ps else (fn.block n.shared).preds).count q := by
  obtain ⟨hm, ht, hs⟩ := hf.owned hw hb
  have hcount : ∀ x, fn.owns x → (fn.block x).preds.count n.middle =
      (if x = n.target then 1 else 0) + (if x = n.shared then 1 else 0) := by
    intro x hx
    rw [hw.preds x hx, if_pos hm, (successors_of_found hf).2]
    simp only [List.count_cons, List.count_nil, beq_iff_eq, eq_comm (a := x)]
    omega
  have htarget := hcount n.target ht
  have hmem : n.middle ∈ (fn.block n.target).preds := by
    rw [← List.count_pos_iff, htarget, if_pos rfl]
    omega
  obtain ⟨ps, hps, hpscount⟩ := exists_replaceFirst b hmem
  have hmem' : n.middle ∈ if n.shared = n.target then ps else (fn.block n.shared).preds := by
    rw [← List.count_pos_iff]
    split
    · next heq =>
      -- both edges lead to one block, and one of the two entries is left
      have := hpscount n.middle
      rw [htarget, if_pos rfl, if_pos rfl, if_pos heq.symm, if_neg hf.middle_ne] at this
      omega
    · rw [hcount n.shared hs]
      simp
  obtain ⟨qs, hqs, hqscount⟩ := exists_removeFirst hmem'
  exact ⟨ps, qs, hps, hqs, hpscount, hqscount⟩

/-- A fold is a sequence of edits, and then the removal of the middle block. -/
theorem fold_eq (hf : Found fn b n) (hw : fn.Wired) (hb : fn.owns b) {ps qs : List BlockId}
    (hps : replaceFirst n.middle b (fn.block n.target).preds = some ps)
    (hqs : removeFirst n.middle
      (if n.shared = n.target then ps else (fn.block n.shared).preds) = some qs)
    {fn₀ : Func} (hfresh : fn.freshValue "nested.if.combined" = (cond, fn₀)) :
    fold fn b n = .ok (cond, (fn₀.modifyAll (edits b n cond ps qs)).modify n.middle
      fun bb => { bb with live := false }) := by
  obtain ⟨hblock, howns, hroot⟩ : (∀ x, fn₀.block x = fn.block x) ∧
      (∀ x, fn₀.owns x = fn.owns x) ∧ fn₀.root = fn.root := by
    obtain ⟨-, rfl⟩ : _ = cond ∧ _ = fn₀ := Prod.mk.inj hfresh
    exact ⟨fun x => rfl, fun x => rfl, rfl⟩
  have hown : ∀ e ∈ edits b n cond ps qs, fn₀.owns e.1 := fun e he => by
    rw [howns]
    exact owns_of_mem_edits hf hw hb e he
  -- the predecessor lists are read after some of the edits
  have htarget : ((fn₀.modifyAll ((edits b n cond ps qs).take 1)).block n.target).preds =
      (fn.block n.target).preds := by
    rw [Func.block_modifyAll (fun e he => hown e (List.mem_of_mem_take he))
      (fun e he => live_edits e (List.mem_of_mem_take he)), ← hblock]
    simp only [edits, List.take_succ_cons, List.take_zero, List.foldl_cons, List.foldl_nil]
    split <;> rfl
  have hshared : ((fn₀.modifyAll ((edits b n cond ps qs).take 3)).block n.shared).preds =
      if n.shared = n.target then ps else (fn.block n.shared).preds := by
    rw [Func.block_modifyAll (fun e he => hown e (List.mem_of_mem_take he))
      (fun e he => live_edits e (List.mem_of_mem_take he)), ← hblock]
    simp only [edits, List.take_succ_cons, List.take_zero, List.foldl_cons, List.foldl_nil]
    split
    · rfl
    · split <;> rfl
  have hremove : (fn₀.modifyAll (edits b n cond ps qs)).removeBlock n.middle =
      .ok ((fn₀.modifyAll (edits b n cond ps qs)).modify n.middle
        fun bb => { bb with live := false }) := by
    have hm' : (fn₀.modifyAll (edits b n cond ps qs)).owns n.middle := by
      rw [Func.owns_modifyAll live_edits, howns]
      exact (hf.owned hw hb).1
    rw [Func.removeBlock, Func.root_modifyAll, hroot, if_neg hf.not_entry, if_pos hm']
  rw [fold, hfresh]
  simp only [edits, List.take_succ_cons, List.take_zero,
    Func.modifyAll] at htarget hshared hremove ⊢
  simp only [Func.replacePred, Func.removePred, htarget, hps, hshared, hqs, hremove, bind,
    Except.bind, pure, Except.pure]

/-- What the edited predecessor lists count, for the target, the shared block and all others. -/
theorem count_edited {ps qs : List BlockId} {x q : BlockId}
    (hps : ps.count q + (if q = n.middle then 1 else 0) =
      (fn.block n.target).preds.count q + (if q = b then 1 else 0))
    (hqs : qs.count q + (if q = n.middle then 1 else 0) =
      (if n.shared = n.target then ps else (fn.block n.shared).preds).count q) :
    (if x = n.shared then qs else if x = n.target then ps else (fn.block x).preds).count q +
        (if q = n.middle then (if x = n.target then 1 else 0) + (if x = n.shared then 1 else 0)
          else 0) =
      (fn.block x).preds.count q + (if q = b ∧ x = n.target then 1 else 0) := by
  by_cases hxs : x = n.shared
  · subst hxs
    by_cases hxt : n.shared = n.target
    · simp only [hxt, if_true, and_true] at hqs hps ⊢
      split_ifs at hps hqs ⊢ <;> omega
    · simp only [hxt, if_true, if_false, and_false] at hqs ⊢
      split_ifs at hqs ⊢ <;> omega
  · by_cases hxt : x = n.target
    · subst hxt
      simp only [hxs, if_true, if_false, and_true] at hps ⊢
      split_ifs at hps ⊢ <;> omega
    · simp [hxs, hxt]

/-- **In a wired function a fold succeeds.** -/
theorem exists_folded (hf : Found fn b n) (hw : fn.Wired) (hb : fn.owns b) :
    ∃ cond fn', fold fn b n = .ok (cond, fn') ∧ Folded fn fn' b n cond := by
  obtain ⟨ps, qs, hps, hqs, hpscount, hqscount⟩ := exists_preds hf hw hb
  have hm := (hf.owned hw hb).1
  let cond : Value := ⟨fn.serial, fn.values.size, fn.freshName "nested.if.combined"⟩
  let fn₀ : Func := { fn with values := fn.values.push cond }
  have hmid : (fn₀.modifyAll (edits b n cond ps qs)).owns n.middle := by
    rw [Func.owns_modifyAll live_edits]
    exact hm
  -- a block that stays has gone through the edits that are meant for it
  have hblock : ∀ x, x ≠ n.middle → ((fn₀.modifyAll (edits b n cond ps qs)).modify n.middle
      fun bb => { bb with live := false }).block x =
        (edits b n cond ps qs).foldl (fun bb e => if x = e.1 then e.2 bb else bb)
          (fn.block x) := by
    intro x hx
    have hown : ∀ e ∈ edits b n cond ps qs, fn₀.owns e.1 := owns_of_mem_edits hf hw hb
    rw [Func.block_modify hmid, if_neg hx, Func.block_modifyAll hown live_edits]
    rfl
  refine ⟨cond, _, fold_eq hf hw hb hps hqs (rfl : fn.freshValue _ = (cond, fn₀)), ?_⟩
  constructor
  case serial => simp
  case name => simp
  case root => simp
  case params => simp
  case values =>
    simp only [Func.values_modify, Func.values_modifyAll]
    rfl
  case cond_func => rfl
  case cond_id => rfl
  case cond_name => rfl
  case label =>
    intro x
    exact (Func.label_modify (by simp)).trans (Func.label_modifyAll label_edits)
  case owns =>
    intro x
    rw [Func.owns_remove hmid, Func.owns_modifyAll live_edits, Bool.and_eq_true,
      decide_eq_true_eq]
    rfl
  case instrs =>
    intro x hx
    rw [hblock x hx]
    simp only [edits, List.foldl_cons, List.foldl_nil, if_neg hx]
    split_ifs with hs ht hxb hxb ht hxb hxb <;> simp [hxb]
  case term =>
    intro x hx
    rw [hblock x hx]
    simp only [edits, List.foldl_cons, List.foldl_nil, if_neg hx]
    split_ifs <;> rfl
  case phis =>
    intro x hx
    rw [hblock x hx]
    simp only [edits, List.foldl_cons, List.foldl_nil, if_neg hx]
    unfold reroute
    split_ifs <;> simp
  case preds =>
    intro x q hx
    have hpreds : ((edits b n cond ps qs).foldl (fun bb e => if x = e.1 then e.2 bb else bb)
        (fn.block x)).preds =
          if x = n.shared then qs else if x = n.target then ps else (fn.block x).preds := by
      simp only [edits, List.foldl_cons, List.foldl_nil, if_neg hx]
      split_ifs <;> rfl
    rw [hblock x hx, hpreds]
    exact count_edited (hpscount q) (hqscount q)

/-! ### Wiring is kept -/

/-- The outer block is the only predecessor of the middle one. -/
theorem Found.edge_middle_iff (hf : Found fn b n) (hw : fn.Wired) (hb : fn.owns b)
    (hx : fn.owns x) : fn.Edge x n.middle ↔ x = b := by
  have hmem := hw.mem_preds_iff (p := x) (hf.owned hw hb).1
  rw [hf.preds, List.mem_singleton] at hmem
  rw [hmem]
  simp [hx]

theorem Folded.successors_eq (h : Folded fn fn' b n cond) (hx : x ≠ n.middle) :
    fn'.successors x = if x = b then [n.target, n.shared] else fn.successors x := by
  rw [Func.successors, Block.successors, Block.edges, h.term x hx]
  by_cases hxb : x = b
  · rw [if_pos hxb, if_pos hxb]
    rfl
  · rw [if_neg hxb, if_neg hxb]
    rfl

/-- The entries of the predecessor lists are still those of the edges. -/
theorem Folded.count_preds (h : Folded fn fn' b n cond) (hf : Found fn b n) (hw : fn.Wired)
    (hb : fn.owns b) (hx : fn'.owns x) (q : BlockId) :
    (fn'.block x).preds.count q = if fn'.owns q then (fn'.successors q).count x else 0 := by
  obtain ⟨hm, -, -⟩ := hf.owned hw hb
  obtain ⟨hsuccb, hsuccm⟩ := successors_of_found hf
  obtain ⟨hown, hne⟩ := (h.owns x).mp hx
  have hcount := h.preds x q hne
  have hold := hw.preds x hown q
  by_cases hqm : q = n.middle
  · -- both entries for the middle block are gone
    have hq : ¬fn'.owns q := fun hq => ((h.owns q).mp hq).2 hqm
    rw [if_neg hq]
    subst hqm
    rw [if_pos hm, hsuccm] at hold
    simp only [List.count_cons, List.count_nil, beq_iff_eq, eq_comm (b := x)] at hold
    simp only [if_true, hf.middle_ne, false_and, if_false] at hcount
    omega
  · rw [if_neg hqm] at hcount
    by_cases hqo : fn.owns q
    · rw [if_pos ((h.owns q).mpr ⟨hqo, hqm⟩), h.successors_eq hqm]
      rw [if_pos hqo] at hold
      by_cases hqb : q = b
      · -- the outer block leads to the target instead of the middle block
        subst hqb
        rw [hsuccb] at hold
        simp only [List.count_cons, List.count_nil, beq_iff_eq, eq_comm (b := x),
          if_neg hne] at hold
        simp only [true_and] at hcount
        rw [if_pos rfl]
        simp only [List.count_cons, List.count_nil, beq_iff_eq, eq_comm (b := x)]
        omega
      · simp only [hqb, false_and, if_false] at hcount ⊢
        omega
    · have hq : ¬fn'.owns q := fun hq => hqo ((h.owns q).mp hq).1
      have hqb : q ≠ b := fun hqb => hqo (hqb ▸ hb)
      rw [if_neg hq]
      rw [if_neg hqo] at hold
      simp only [hqb, false_and, if_false] at hcount
      omega

/-- **A fold keeps a function wired.** -/
theorem Folded.wired (h : Folded fn fn' b n cond) (hf : Found fn b n) (hw : fn.Wired)
    (hb : fn.owns b) : fn'.Wired := by
  obtain ⟨-, ht, hs⟩ := hf.owned hw hb
  constructor
  case entry =>
    obtain ⟨r, hr, hown⟩ := hw.entry
    refine ⟨r, h.root.trans hr, (h.owns r).mpr ⟨hown, ?_⟩⟩
    rintro rfl
    exact hf.not_entry hr
  case terminated =>
    intro x hx
    obtain ⟨hown, hne⟩ := (h.owns x).mp hx
    rw [h.term x hne]
    split
    · rfl
    · exact hw.terminated x hown
  case successors =>
    intro x y hx he
    obtain ⟨hown, hne⟩ := (h.owns x).mp hx
    rw [Func.Edge, h.successors_eq hne] at he
    rw [h.owns]
    split at he
    · rcases List.mem_pair.mp he with rfl | rfl
      · exact ⟨ht, hf.target_ne⟩
      · exact ⟨hs, hf.shared_ne⟩
    · next hxb =>
      refine ⟨hw.successors x y hown he, ?_⟩
      rintro rfl
      exact hxb ((hf.edge_middle_iff hw hb hown).mp he)
  case preds => exact fun x hx q => h.count_preds hf hw hb hx q

/-! ### Dominance is kept -/

/-- **The edges after a fold**: those there were between the blocks that stay, and those of the
middle block, which now come out of the outer one. -/
theorem Folded.liveEdge_iff (h : Folded fn fn' b n cond) (hf : Found fn b n) (hw : fn.Wired)
    (hb : fn.owns b) {y : BlockId} : fn'.LiveEdge x y ↔
      x ≠ n.middle ∧ y ≠ n.middle ∧ (fn.LiveEdge x y ∨ x = b ∧ fn.LiveEdge n.middle y) := by
  obtain ⟨hsuccb, hsuccm⟩ := successors_of_found hf
  obtain ⟨hm, -, -⟩ := hf.owned hw hb
  have hmid : fn.LiveEdge n.middle y ↔ y = n.target ∨ y = n.shared := by
    rw [Func.LiveEdge, Func.Edge, hsuccm, List.mem_pair, and_iff_right hm]
  constructor
  · rintro ⟨hx, he⟩
    obtain ⟨hown, hxm⟩ := (h.owns x).mp hx
    rw [Func.Edge, h.successors_eq hxm] at he
    split at he
    · next hxb =>
      have hy := List.mem_pair.mp he
      refine ⟨hxm, ?_, Or.inr ⟨hxb, hmid.mpr hy⟩⟩
      rcases hy with rfl | rfl
      · exact hf.target_ne
      · exact hf.shared_ne
    · next hxb =>
      refine ⟨hxm, ?_, Or.inl ⟨hown, he⟩⟩
      rintro rfl
      exact hxb ((hf.edge_middle_iff hw hb hown).mp he)
  · rintro ⟨hxm, hym, ⟨hown, he⟩ | ⟨rfl, he⟩⟩
    · refine ⟨(h.owns x).mpr ⟨hown, hxm⟩, ?_⟩
      rw [Func.Edge, h.successors_eq hxm]
      split
      · next hxb =>
        rw [Func.Edge, hxb, hsuccb, List.mem_pair] at he
        exact List.mem_pair.mpr (Or.inr (he.resolve_left hym))
      · exact he
    · refine ⟨(h.owns x).mpr ⟨hb, hxm⟩, ?_⟩
      rw [Func.Edge, h.successors_eq hxm, if_pos rfl]
      exact List.mem_pair.mpr (hmid.mp he)

/-- A fold contracts the edge from the outer block to the middle one. -/
theorem Folded.contracts (h : Folded fn fn' b n cond) (hf : Found fn b n) (hw : fn.Wired)
    (hb : fn.owns b) {r : BlockId} (hr : fn.root = some r) :
    Graph.Contracts fn.LiveEdge fn'.LiveEdge r b n.middle where
  entry hrm := hf.not_entry (hrm ▸ hr)
  pred x := by
    refine ⟨fun he => (hf.edge_middle_iff hw hb he.1).mp he.2, ?_⟩
    rintro rfl
    exact ⟨hb, (hf.edge_middle_iff hw hb hb).mpr rfl⟩
  pred_ne := Ne.symm hf.middle_ne
  kept x y hx hy he := (h.liveEdge_iff hf hw hb).mpr ⟨hx, hy, Or.inl he⟩
  moved y he := by
    refine (h.liveEdge_iff hf hw hb).mpr ⟨Ne.symm hf.middle_ne, ?_, Or.inr ⟨rfl, he⟩⟩
    rintro rfl
    exact hf.middle_ne ((hf.edge_middle_iff hw hb he.1).mp he.2)
  edge x y he := by
    obtain ⟨hx, hy, he⟩ := (h.liveEdge_iff hf hw hb).mp he
    exact ⟨hy, hx, he⟩

/-- **Between the blocks that stay, dominance is what it was.** -/
theorem Folded.dominates_iff (h : Folded fn fn' b n cond) (hf : Found fn b n) (hw : fn.Wired)
    (hb : fn.owns b) {d : BlockId} (hd : fn'.owns d) (hx : fn'.owns x) :
    fn'.Dominates d x ↔ fn.Dominates d x := by
  obtain ⟨r, hr, -⟩ := hw.entry
  have hclosed := (h.wired hf hw hb).closed
  rw [hclosed.dominates_iff_live (h.root.trans hr), hw.closed.dominates_iff_live hr]
  exact (h.contracts hf hw hb hr).dominates_iff ((h.owns d).mp hd).2 ((h.owns x).mp hx).2

/-! ### A fold is an absorption -/

theorem Folded.not_defined (h : Folded fn fn' b n cond) (he : fn.Entered) : ¬fn.Defined cond := by
  intro hdef
  have := he cond hdef h.cond_func
  rw [h.cond_id] at this
  omega

theorem result_reroute {p : Phi} : (reroute b n x p).result = p.result := by
  unfold reroute
  split_ifs <;> rfl

theorem Folded.results_phis (h : Folded fn fn' b n cond) (hx : x ≠ n.middle) :
    (fn'.block x).phis.map Phi.result = (fn.block x).phis.map Phi.result := by
  rw [h.phis x hx, List.map_map]
  exact List.map_congr_left fun p _ => result_reroute

theorem Found.no_definitions (hf : Found fn b n) : (fn.block n.middle).definitions = [] := by
  rw [Block.definitions, hf.no_phis, hf.no_instrs]
  rfl

theorem Folded.definitions_of_ne (h : Folded fn fn' b n cond) (hxb : x ≠ b)
    (hxm : x ≠ n.middle) : (fn'.block x).definitions = (fn.block x).definitions := by
  rw [Block.definitions, Block.definitions, h.results_phis hxm, h.instrs x hxm, if_neg hxb]

/-- The outer block defines the conjunction on top of what it defined. -/
theorem Folded.definitions_eq (h : Folded fn fn' b n cond) (hf : Found fn b n) :
    (fn'.block b).definitions =
      (fn.block b).definitions ++ ((fn.block n.middle).definitions ++ [cond]) := by
  have hbm : b ≠ n.middle := Ne.symm hf.middle_ne
  rw [hf.no_definitions, Block.definitions, Block.definitions, h.results_phis hbm,
    h.instrs b hbm, if_pos rfl]
  simp [Instr.result?]

/-- The definitions of a block that stays are those it had, and the outer block has one more. -/
theorem Folded.mem_definitions_iff (h : Folded fn fn' b n cond) (hf : Found fn b n)
    (hx : x ≠ n.middle) {v : Value} :
    v ∈ (fn'.block x).definitions ↔ v ∈ (fn.block x).definitions ∨ x = b ∧ v = cond := by
  by_cases hxb : x = b
  · subst hxb
    rw [h.definitions_eq hf, hf.no_definitions]
    simp
  · rw [h.definitions_of_ne hxb hx]
    simp [hxb]

theorem input?_reroute {p : Phi} {q : BlockId} :
    (reroute b n x p).input? q =
      if q = n.middle ∧ (x = n.target ∨ x = n.shared) then none
      else if q = b ∧ x = n.target then some (p.valueFrom n.middle) else p.input? q := by
  have hmove : ∀ q, (if x = n.target then p.moveInput n.middle b else p).input? q =
      if q = n.middle ∧ x = n.target then none
      else if q = b ∧ x = n.target then some (p.valueFrom n.middle) else p.input? q := by
    intro q
    by_cases hx : x = n.target
    · simp [hx, Phi.input?_moveInput, eq_comm (a := q)]
    · simp [hx]
  by_cases hs : x = n.shared
  · rw [reroute, if_pos hs, Phi.input?_dropInput, hmove q]
    by_cases hq : q = n.middle
    · simp [hq, hs]
    · simp [hq, Ne.symm hq]
  · rw [reroute, if_neg hs, hmove q]
    simp [hs]

theorem operands_reroute {p : Phi} {w : Option Value}
    (hmid : x = n.target → p.valueFrom n.middle ∈ p.operands)
    (hw : w ∈ (reroute b n x p).operands) : w ∈ p.operands := by
  have hmove : ∀ w ∈ (if x = n.target then p.moveInput n.middle b else p).operands,
      w ∈ p.operands := by
    intro w hw
    split at hw
    · next hxt =>
      rcases Phi.mem_operands_moveInput hw with rfl | hw
      · exact hmid hxt
      · exact hw
    · exact hw
  rw [reroute] at hw
  split at hw
  · exact hmove w (Phi.mem_operands_dropInput hw)
  · exact hmove w hw

/-- **The phis of the targets are led from predecessors to their heirs.** -/
theorem rerouted (hf : Found fn b n) (hv : fn.Valid) (hb : fn.owns b) (hx : fn.owns x) {p : Phi}
    (hp : p ∈ (fn.block x).phis) : fn.Rerouted b n.middle x p (reroute b n x p) := by
  obtain ⟨hsuccb, hsuccm⟩ := successors_of_found hf
  have hm := (hf.owned hv.toWired hb).1
  have hsome : ∀ q, fn.owns q → fn.Edge q x → p.input? q = some (p.valueFrom q) :=
    fun q hq he => Phi.input?_eq_valueFrom
      ((hv.inputs x hx p hp q).mpr ((hv.mem_preds_iff hx).mpr ⟨hq, he⟩))
  have hedge : ∀ q, (p.input? q).isSome → fn.owns q ∧ fn.Edge q x := fun q hq =>
    (hv.mem_preds_iff hx).mp ((hv.inputs x hx p hp q).mp hq)
  have hmid : fn.Edge n.middle x ↔ x = n.target ∨ x = n.shared := by
    rw [Func.Edge, hsuccm, List.mem_pair]
  have hout : fn.Edge b x ↔ x = n.middle ∨ x = n.shared := by
    rw [Func.Edge, hsuccb, List.mem_pair]
  constructor
  case result => exact result_reroute
  case input =>
    intro q hq he
    by_cases hqm : q = n.middle
    · subst hqm
      rw [heir_self, input?_reroute, if_neg fun h => hf.middle_ne h.1.symm,
        hsome _ hq he]
      by_cases hxt : x = n.target
      · rw [if_pos ⟨rfl, hxt⟩]
      · -- the false edges agree
        have hxs : x = n.shared := (hmid.mp he).resolve_left hxt
        rw [if_neg fun h => hxt h.2, hsome b hb (hout.mpr (Or.inr hxs)),
          hf.phis p (hxs ▸ hp)]
    · rw [heir_of_ne hqm, input?_reroute, if_neg fun h => hqm h.1]
      split
      · -- the target is the shared block too, where the inputs from both branches are the same
        next h =>
        obtain ⟨rfl, hxt⟩ := h
        have hxs : x = n.shared :=
          (hout.mp he).resolve_left fun hxm => hf.target_ne (hxt.symm.trans hxm)
        rw [hsome q hq he, hf.phis p (hxs ▸ hp)]
      · rfl
  case source =>
    intro q hq
    rw [input?_reroute] at hq
    split_ifs at hq with h1 h2
    · exact absurd hq (by simp)
    · exact ⟨n.middle, hm, hmid.mpr (Or.inl h2.2), by rw [heir_self, h2.1]⟩
    · obtain ⟨hqo, he⟩ := hedge q hq
      have hqm : q ≠ n.middle := fun hqm => h1 ⟨hqm, hmid.mp (hqm ▸ he)⟩
      exact ⟨q, hqo, he, heir_of_ne hqm⟩
  case operands =>
    exact fun w hw => operands_reroute
      (fun hxt => Phi.mem_operands_of_input? (hsome n.middle hm (hmid.mpr (Or.inl hxt)))) hw

/-- **A fold is an absorption**: the outer block absorbs the middle one, and defines the
conjunction. -/
theorem Folded.absorbs (h : Folded fn fn' b n cond) (hf : Found fn b n) (hv : fn.Valid)
    (hentered : fn.Entered) (hb : fn.owns b) : fn.Absorbs fn' b n.middle [cond] := by
  obtain ⟨hsuccb, hsuccm⟩ := successors_of_found hf
  obtain ⟨hm, -, -⟩ := hf.owned hv.toWired hb
  have hbm : b ≠ n.middle := Ne.symm hf.middle_ne
  refine
    { name := h.name, root := h.root, params := h.params, owned := ⟨hb, hm⟩, ne := hbm
      entry := hf.not_entry, no_phis := hf.no_phis, owns := h.owns
      pred := fun x hx => hf.edge_middle_iff hv.toWired hb hx
      instrs := fun x _ hxb hxm => by rw [h.instrs x hxm, if_neg hxb]
      term := fun x _ hxb hxm => by rw [h.term x hxm, if_neg hxb]
      phis := fun x hx hxm => ?phis
      edge := fun y => ?edge
      definitions := h.definitions_eq hf
      reads := fun v hr => ?reads
      nodup_fresh := by simp
      not_defined := fun v hvc => ?fresh }
  case phis =>
    rw [h.phis x hxm, List.forall₂_map_right_iff, List.forall₂_same]
    exact fun p hp => rerouted hf hv hb hx hp
  case edge =>
    rw [Func.Edge, Func.Edge, Func.Edge, h.successors_eq hbm, if_pos rfl, hsuccb, hsuccm]
    simp only [List.mem_pair]
    constructor
    · exact Or.inr
    · rintro (⟨rfl | rfl, hy⟩ | hy)
      · exact absurd rfl hy
      · exact Or.inr rfl
      · exact hy
  case reads =>
    rcases hr with ⟨i, hi, hvi⟩ | ⟨t, ht, hvt⟩
    · rw [h.instrs b hbm, if_pos rfl, List.mem_append, List.mem_singleton] at hi
      rcases hi with hi | rfl
      · exact Or.inl (Or.inl ⟨i, hi, hvi⟩)
      · -- the conjunction reads what the two branches read
        rcases List.mem_pair.mp hvi with rfl | rfl
        · exact Or.inl (Or.inr ⟨_, hf.outer_term, by simp [Terminator.operands]⟩)
        · exact Or.inr (Or.inl (Or.inr ⟨_, hf.inner_term, by simp [Terminator.operands]⟩))
    · rw [h.term b hbm, if_pos rfl] at ht
      obtain rfl := Option.some.inj ht
      exact Or.inr (Or.inr hvt)
  case fresh =>
    obtain rfl := List.mem_singleton.mp hvc
    exact h.not_defined hentered

/-- A fold enters the value that it defines. -/
theorem Folded.entered (h : Folded fn fn' b n cond) (hf : Found fn b n)
    (hentered : fn.Entered) : fn'.Entered := by
  intro v hdef hfunc
  rw [h.serial] at hfunc
  rw [h.values, Array.size_push]
  rcases hdef with hp | ⟨d, hd, hvd⟩
  · exact Nat.lt_succ_of_lt (hentered v (Or.inl (h.params ▸ hp)) hfunc)
  · obtain ⟨hown, hdm⟩ := (h.owns d).mp hd
    rcases (h.mem_definitions_iff hf hdm).mp hvd with hvd | ⟨-, rfl⟩
    · exact Nat.lt_succ_of_lt (hentered v (Or.inr ⟨d, hown, hvd⟩) hfunc)
    · rw [h.cond_id]
      exact Nat.lt_succ_self _

end NestedIf

end BranchFusion
