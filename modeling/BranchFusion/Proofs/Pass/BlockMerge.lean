import BranchFusion.Pass.BlockMerge
import BranchFusion.Proofs.Emulation.Absorption

/-!
# Merging chains of blocks

A block that jumps to a block with no other predecessor absorbs it. What a merge needs is
`BranchFusion.BlockMerge.Mergeable` and what comes of it is `BranchFusion.BlockMerge.Merged`; in a
wired function a merge always succeeds. Since the code of the one block follows that of the other,
nothing has to be available anywhere for a merge to keep what the function does.

A run is a sequence of merges, or nothing at all, and its flag says which
(`BranchFusion.BlockMerge.sweeps_cases`); so it keeps whatever every merge keeps
(`BranchFusion.BlockMerge.run_induction`).
-/

namespace BranchFusion

namespace BlockMerge

open Emulator

variable {fn fn' : Func} {b m x y : BlockId}

/-! ### One merge -/

/-- **The block `b` can take over the block `m`.** -/
structure Mergeable (fn : Func) (b m : BlockId) : Prop where
  term : (fn.block b).term = some (.jump m)
  ne : m ≠ b
  not_entry : fn.root ≠ some m
  one_pred : (fn.block m).preds.length = 1
  no_phis : (fn.block m).phis = []

theorem mergeable_of_target? (h : target? fn b = some m) : Mergeable fn b m := by
  rw [target?] at h
  split at h
  · next target hterm =>
    dsimp only at h
    split_ifs at h with hcond
    obtain rfl := Option.some.inj h
    exact ⟨hterm, hcond.1, hcond.2.1, hcond.2.2.1, hcond.2.2.2⟩
  · exact absurd h (by simp)

/-- **What comes of a merge.** -/
structure Merged (fn fn' : Func) (b m : BlockId) : Prop where
  serial : fn'.serial = fn.serial
  name : fn'.name = fn.name
  root : fn'.root = fn.root
  params : fn'.params = fn.params
  values : fn'.values = fn.values
  label : ∀ x, fn'.label x = fn.label x
  owns : ∀ x, fn'.owns x ↔ fn.owns x ∧ x ≠ m
  instrs : ∀ x, x ≠ m → (fn'.block x).instrs =
    if x = b then (fn.block b).instrs ++ (fn.block m).instrs else (fn.block x).instrs
  term : ∀ x, x ≠ m → (fn'.block x).term =
    if x = b then (fn.block m).term else (fn.block x).term
  phis : ∀ x, x ≠ m → (fn'.block x).phis =
    if x ∈ fn.successors m then (fn.block x).phis.map fun p => p.moveInput m b
    else (fn.block x).phis
  preds : ∀ x, x ≠ m → (fn'.block x).preds =
    if x ∈ fn.successors m then (fn.block x).preds.map (heir b m) else (fn.block x).preds

/-- What a merge does to the block that takes over another. -/
def takeOver (taken bb : Block) : Block :=
  { bb with instrs := bb.instrs ++ taken.instrs, term := taken.term }

/-- What a merge does to a successor of the block that was taken over. -/
def redirected (b m : BlockId) (bb : Block) : Block :=
  { bb with preds := bb.preds.map (heir b m), phis := bb.phis.map fun p => p.moveInput m b }

/-- The edits of a merge. -/
def edits (b m : BlockId) (taken : Block) : List (BlockId × (Block → Block)) :=
  (b, takeOver taken) ::
    ((taken.successors.eraseDups.map fun s => (s, redirected b m)) ++
      [(m, fun bb => { bb with instrs := [], preds := [], term := none })])

theorem live_edits {taken : Block} : ∀ e ∈ edits b m taken, ∀ bb, (e.2 bb).live = bb.live := by
  intro e he bb
  simp only [edits, List.mem_cons, List.mem_append, List.mem_map, List.not_mem_nil,
    or_false] at he
  rcases he with rfl | ⟨s, -, rfl⟩ | rfl
  · rfl
  · rfl
  · rfl

theorem label_edits {taken : Block} : ∀ e ∈ edits b m taken, ∀ bb, (e.2 bb).label = bb.label := by
  intro e he bb
  simp only [edits, List.mem_cons, List.mem_append, List.mem_map, List.not_mem_nil,
    or_false] at he
  rcases he with rfl | ⟨s, -, rfl⟩ | rfl
  · rfl
  · rfl
  · rfl

theorem redirect_eq (ss : List BlockId) :
    ∀ fn : Func, redirect m b fn ss = fn.modifyAll (ss.map fun s => (s, redirected b m)) := by
  induction ss with
  | nil => exact fun _ => rfl
  | cons s ss ih =>
    intro fn
    rw [redirect, ih]
    rfl

/-- Editing some blocks in one way, each once. -/
theorem foldl_edits (f : Block → Block) (bb : Block) : ∀ {ss : List BlockId}, ss.Nodup →
    (ss.map fun s => (s, f)).foldl (fun bb e => if x = e.1 then e.2 bb else bb) bb =
      if x ∈ ss then f bb else bb
  | [], _ => by simp
  | s :: ss, hnodup => by
    obtain ⟨hs, hnodup⟩ := List.nodup_cons.mp hnodup
    rw [List.map_cons, List.foldl_cons]
    by_cases hx : x = s
    · have hrest : ∀ bb : Block, (ss.map fun s => (s, f)).foldl
          (fun bb e => if x = e.1 then e.2 bb else bb) bb = bb := by
        intro bb
        rw [foldl_edits f bb hnodup, if_neg (hx ▸ hs)]
      rw [hrest]
      simp [hx]
    · rw [if_neg hx, foldl_edits f bb hnodup]
      simp [hx]

section Wired

variable (h : Mergeable fn b m) (hw : fn.Wired) (hb : fn.owns b)

include h

theorem Mergeable.successors_eq : fn.successors b = [m] := by
  simp [Func.successors, Block.successors, Block.edges, h.term, Terminator.edges]

include hw hb

theorem Mergeable.owned : fn.owns m := by
  refine hw.successors b m hb ?_
  rw [Func.Edge, h.successors_eq]
  simp

/-- The block that jumps to it is the only predecessor. -/
theorem Mergeable.edge_iff (hx : fn.owns x) : fn.Edge x m ↔ x = b := by
  have hm := h.owned hw hb
  have hmem : ∀ y, y ∈ (fn.block m).preds ↔ fn.owns y ∧ fn.Edge y m :=
    fun y => hw.mem_preds_iff hm
  obtain ⟨p, hp⟩ := List.length_eq_one_iff.mp h.one_pred
  rw [hp] at hmem
  have hbp : b = p := List.mem_singleton.mp ((hmem b).mpr ⟨hb, by
    rw [Func.Edge, h.successors_eq]
    simp⟩)
  constructor
  · intro he
    rw [List.mem_singleton.mp ((hmem x).mpr ⟨hx, he⟩), hbp]
  · rintro rfl
    rw [Func.Edge, h.successors_eq]
    simp

theorem Mergeable.not_self : ¬fn.Edge m m :=
  fun he => h.ne ((h.edge_iff hw hb (h.owned hw hb)).mp he)

theorem owns_of_mem_edits : ∀ e ∈ edits b m (fn.block m), fn.owns e.1 := by
  have hm := h.owned hw hb
  intro e he
  simp only [edits, List.mem_append, List.mem_cons, List.mem_map, List.mem_eraseDups,
    List.not_mem_nil, or_false] at he
  rcases he with rfl | ⟨s, hs, rfl⟩ | rfl
  · exact hb
  · exact hw.successors m s hm hs
  · exact hm

/-- **In a wired function a merge succeeds.** -/
theorem exists_merged : ∃ fn', merge fn b m = .ok fn' ∧ Merged fn fn' b m := by
  have hm := h.owned hw hb
  have hmid : (fn.modifyAll (edits b m (fn.block m))).owns m := by
    rw [Func.owns_modifyAll live_edits]
    exact hm
  -- a merge is a sequence of edits, and then the removal of the block that was absorbed
  have hmerge : merge fn b m = .ok ((fn.modifyAll (edits b m (fn.block m))).modify m
      fun bb => { bb with live := false }) := by
    have hedits : (redirect m b (fn.modify b (takeOver (fn.block m)))
        (fn.block m).successors.eraseDups).modify m
          (fun bb => { bb with instrs := [], preds := [], term := none }) =
        fn.modifyAll (edits b m (fn.block m)) := by
      rw [redirect_eq, edits, Func.modifyAll, Func.modifyAll_append]
      rfl
    have hunfold : merge fn b m = ((redirect m b (fn.modify b (takeOver (fn.block m)))
        (fn.block m).successors.eraseDups).modify m
          (fun bb => { bb with instrs := [], preds := [], term := none })).removeBlock m := rfl
    rw [hunfold, hedits, Func.removeBlock, Func.root_modifyAll, if_neg h.not_entry, if_pos hmid]
  have hblock : ∀ x, x ≠ m → ((fn.modifyAll (edits b m (fn.block m))).modify m
      fun bb => { bb with live := false }).block x =
        if x ∈ fn.successors m then
          redirected b m (if x = b then takeOver (fn.block m) (fn.block x) else fn.block x)
        else if x = b then takeOver (fn.block m) (fn.block x) else fn.block x := by
    intro x hx
    rw [Func.block_modify hmid, if_neg hx,
      Func.block_modifyAll (owns_of_mem_edits h hw hb) live_edits]
    simp only [edits, List.foldl_append, List.foldl_cons, List.foldl_nil, if_neg hx,
      foldl_edits _ _ (nodup_eraseDups _), List.mem_eraseDups]
    rfl
  refine ⟨_, hmerge, by simp, by simp, by simp, by simp, by simp, fun x => ?_, fun x => ?_,
    fun x hx => ?_, fun x hx => ?_, fun x hx => ?_, fun x hx => ?_⟩
  · exact (Func.label_modify (by simp)).trans (Func.label_modifyAll label_edits)
  · rw [Func.owns_remove hmid, Func.owns_modifyAll live_edits, Bool.and_eq_true,
      decide_eq_true_eq]
  all_goals
    rw [hblock x hx]
    split_ifs with hxs hxb hxb
  all_goals first | rfl | rw [hxb]; rfl

end Wired

/-! ### Wiring is kept -/

theorem Merged.successors_eq (h : Merged fn fn' b m) (hx : x ≠ m) :
    fn'.successors x = if x = b then fn.successors m else fn.successors x := by
  rw [Func.successors, Block.successors, Block.edges, h.term x hx]
  by_cases hxb : x = b
  · rw [if_pos hxb, if_pos hxb]
    rfl
  · rw [if_neg hxb, if_neg hxb]
    rfl

theorem count_map_heir (hne : m ≠ b) (q : BlockId) (ps : List BlockId) :
    (ps.map (heir b m)).count q =
      if q = m then 0 else if q = b then ps.count b + ps.count m else ps.count q := by
  induction ps with
  | nil => simp
  | cons p ps ih =>
    rw [List.map_cons, List.count_cons, ih]
    simp only [List.count_cons, heir, beq_iff_eq]
    grind

/-- The predecessors of a block that stays are the heirs of those it had. -/
theorem Merged.preds_eq (h : Merged fn fn' b m) (hw : fn.Wired) (hx : fn.owns x) (hxm : x ≠ m) :
    (fn'.block x).preds = (fn.block x).preds.map (heir b m) := by
  rw [h.preds x hxm]
  split
  · rfl
  · next hxs =>
    -- no entry is there for the block that is gone
    have hnot : m ∉ (fn.block x).preds := fun hmem => hxs ((hw.mem_preds_iff hx).mp hmem).2
    have hid : (fn.block x).preds.map (heir b m) = (fn.block x).preds.map id :=
      List.map_congr_left fun q hq => heir_of_ne fun hqm => hnot (hqm ▸ hq)
    rw [hid, List.map_id]

/-- The entries of the predecessor lists are still those of the edges. -/
theorem Merged.count_preds (h : Merged fn fn' b m) (hm : Mergeable fn b m) (hw : fn.Wired)
    (hb : fn.owns b) (hx : fn'.owns x) (q : BlockId) :
    (fn'.block x).preds.count q = if fn'.owns q then (fn'.successors q).count x else 0 := by
  have hown := hm.owned hw hb
  obtain ⟨hxo, hxm⟩ := (h.owns x).mp hx
  rw [h.preds_eq hw hxo hxm, count_map_heir hm.ne]
  by_cases hqm : q = m
  · have hq : ¬fn'.owns q := fun hq => ((h.owns q).mp hq).2 hqm
    rw [if_pos hqm, if_neg hq]
  · rw [if_neg hqm]
    by_cases hqb : q = b
    · -- the jump is gone, and the edges of the block that it led to have come
      subst hqb
      have hjump : (fn.block x).preds.count q = 0 := by
        rw [hw.preds x hxo, if_pos hb, hm.successors_eq]
        simp [Ne.symm hxm]
      rw [if_pos rfl, if_pos ((h.owns q).mpr ⟨hb, hqm⟩), h.successors_eq hqm, if_pos rfl, hjump,
        hw.preds x hxo, if_pos hown, Nat.zero_add]
    · rw [if_neg hqb, hw.preds x hxo]
      by_cases hqo : fn.owns q
      · rw [if_pos hqo, if_pos ((h.owns q).mpr ⟨hqo, hqm⟩), h.successors_eq hqm, if_neg hqb]
      · have hq : ¬fn'.owns q := fun hq => hqo ((h.owns q).mp hq).1
        rw [if_neg hqo, if_neg hq]

/-- **A merge keeps a function wired.** -/
theorem Merged.wired (h : Merged fn fn' b m) (hm : Mergeable fn b m) (hw : fn.Wired)
    (hb : fn.owns b) : fn'.Wired := by
  have hown := hm.owned hw hb
  constructor
  case entry =>
    obtain ⟨r, hr, hro⟩ := hw.entry
    refine ⟨r, h.root.trans hr, (h.owns r).mpr ⟨hro, ?_⟩⟩
    rintro rfl
    exact hm.not_entry hr
  case terminated =>
    intro x hx
    obtain ⟨hxo, hxm⟩ := (h.owns x).mp hx
    rw [h.term x hxm]
    split
    · exact hw.terminated m hown
    · exact hw.terminated x hxo
  case successors =>
    intro x y hx he
    obtain ⟨hxo, hxm⟩ := (h.owns x).mp hx
    rw [Func.Edge, h.successors_eq hxm] at he
    rw [h.owns]
    split at he
    · refine ⟨hw.successors m y hown he, ?_⟩
      rintro rfl
      exact hm.not_self hw hb he
    · next hxb =>
      refine ⟨hw.successors x y hxo he, ?_⟩
      rintro rfl
      exact hxb ((hm.edge_iff hw hb hxo).mp he)
  case preds => exact fun x hx q => h.count_preds hm hw hb hx q

/-! ### A merge is an absorption -/

theorem Merged.results_phis (h : Merged fn fn' b m) (hx : x ≠ m) :
    (fn'.block x).phis.map Phi.result = (fn.block x).phis.map Phi.result := by
  rw [h.phis x hx]
  split
  · rw [List.map_map]
    rfl
  · rfl

/-- The two blocks define what they defined, one after the other. -/
theorem Merged.definitions_eq (h : Merged fn fn' b m) (hm : Mergeable fn b m) :
    (fn'.block b).definitions = (fn.block b).definitions ++ ((fn.block m).definitions ++ []) := by
  have hbm : b ≠ m := Ne.symm hm.ne
  rw [Block.definitions, Block.definitions, Block.definitions, h.results_phis hbm, h.instrs b hbm,
    if_pos rfl, hm.no_phis, List.filterMap_append]
  simp

/-- A phi of a successor of the block that is gone reads for its heir what it read for it. -/
theorem rerouted_moveInput (hm : Mergeable fn b m) (hv : fn.Valid) (hb : fn.owns b)
    (hx : fn.owns x) (hxm : x ≠ m) (he : fn.Edge m x) {p : Phi} (hp : p ∈ (fn.block x).phis) :
    fn.Rerouted b m x p (p.moveInput m b) := by
  have hown := hm.owned hv.toWired hb
  have hsome : p.input? m = some (p.valueFrom m) := Phi.input?_eq_valueFrom
    ((hv.inputs x hx p hp m).mpr ((hv.mem_preds_iff hx).mpr ⟨hown, he⟩))
  refine ⟨rfl, fun q hq hqx => ?_, fun q hq => ?_, fun w hw => ?_⟩
  · rw [Phi.input?_moveInput]
    by_cases hqm : q = m
    · rw [hqm, heir_self, if_neg hm.ne, if_pos rfl, hsome]
    · have hqb : b ≠ q := by
        rintro rfl
        rw [Func.Edge, hm.successors_eq, List.mem_singleton] at hqx
        exact hxm hqx
      rw [heir_of_ne hqm, if_neg (Ne.symm hqm), if_neg hqb]
  · rw [Phi.input?_moveInput] at hq
    split_ifs at hq with hqm hqb
    · exact absurd hq (by simp)
    · exact ⟨m, hown, he, by rw [heir_self, hqb]⟩
    · obtain ⟨hqo, hqe⟩ := (hv.mem_preds_iff hx).mp ((hv.inputs x hx p hp q).mp hq)
      exact ⟨q, hqo, hqe, heir_of_ne (Ne.symm hqm)⟩
  · rcases Phi.mem_operands_moveInput hw with rfl | hw
    · exact Phi.mem_operands_of_input? hsome
    · exact hw

/-- A phi that reads nothing for the block that is gone stays as it is. -/
theorem rerouted_self (hv : fn.Valid) (hx : fn.owns x) (he : ¬fn.Edge m x) {p : Phi}
    (hp : p ∈ (fn.block x).phis) : fn.Rerouted b m x p p := by
  have hne : ∀ q, fn.Edge q x → q ≠ m := fun q hq hqm => he (hqm ▸ hq)
  refine ⟨rfl, fun q _ hqx => by rw [heir_of_ne (hne q hqx)], fun q hq => ?_, fun w hw => hw⟩
  obtain ⟨hqo, hqe⟩ := (hv.mem_preds_iff hx).mp ((hv.inputs x hx p hp q).mp hq)
  exact ⟨q, hqo, hqe, heir_of_ne (hne q hqe)⟩

/-- **A merge is an absorption**, and defines nothing new. -/
theorem Merged.absorbs (h : Merged fn fn' b m) (hm : Mergeable fn b m) (hv : fn.Valid)
    (hb : fn.owns b) : fn.Absorbs fn' b m [] := by
  have hown := hm.owned hv.toWired hb
  have hbm : b ≠ m := Ne.symm hm.ne
  have hphis : ∀ x, fn.owns x → x ≠ m →
      List.Forall₂ (fn.Rerouted b m x) (fn.block x).phis (fn'.block x).phis := by
    intro x hx hxm
    rw [h.phis x hxm]
    split
    · next hxs =>
      rw [List.forall₂_map_right_iff, List.forall₂_same]
      exact fun p hp => rerouted_moveInput hm hv hb hx hxm hxs hp
    · next hxs =>
      rw [List.forall₂_same]
      exact fun p hp => rerouted_self hv hx hxs hp
  refine
    { name := h.name, root := h.root, params := h.params, owned := ⟨hb, hown⟩, ne := hbm
      entry := hm.not_entry, no_phis := hm.no_phis, owns := h.owns, phis := hphis
      pred := fun x hx => hm.edge_iff hv.toWired hb hx
      instrs := fun x _ hxb hxm => by rw [h.instrs x hxm, if_neg hxb]
      term := fun x _ hxb hxm => by rw [h.term x hxm, if_neg hxb]
      edge := fun y => ?edge
      definitions := h.definitions_eq hm
      reads := fun v hr => ?reads
      nodup_fresh := List.nodup_nil
      not_defined := fun v hvn => absurd hvn (by simp) }
  case edge =>
    rw [Func.Edge, Func.Edge, Func.Edge, h.successors_eq hbm, if_pos rfl, hm.successors_eq,
      List.mem_singleton]
    exact ⟨Or.inr, fun hy => hy.resolve_left fun hy => hy.2 hy.1⟩
  case reads =>
    rcases hr with ⟨i, hi, hvi⟩ | ⟨t, ht, hvt⟩
    · rw [h.instrs b hbm, if_pos rfl, List.mem_append] at hi
      rcases hi with hi | hi
      · exact Or.inl (Or.inl ⟨i, hi, hvi⟩)
      · exact Or.inr (Or.inl (Or.inl ⟨i, hi, hvi⟩))
    · rw [h.term b hbm, if_pos rfl] at ht
      exact Or.inr (Or.inl (Or.inr ⟨t, ht, hvt⟩))

theorem Merged.valid (h : Merged fn fn' b m) (hm : Mergeable fn b m) (hv : fn.Valid)
    (hb : fn.owns b) : fn'.Valid :=
  (h.absorbs hm hv hb).valid hv (h.wired hm hv.toWired hb)

theorem Merged.entered (h : Merged fn fn' b m) (hm : Mergeable fn b m) (hv : fn.Valid)
    (hentered : fn.Entered) (hb : fn.owns b) : fn'.Entered := by
  intro v hdef hfunc
  rw [h.serial] at hfunc
  rw [h.values]
  exact hentered v (((h.absorbs hm hv hb).defined_or_fresh hdef).resolve_right (by simp)) hfunc

/-- **A merge keeps strict form**: what the second block knows is known at the end of the first. -/
theorem Merged.strict (h : Merged fn fn' b m) (hm : Mergeable fn b m) (hv : fn.Valid)
    (hb : fn.owns b) (hs : fn.Strict) : fn'.Strict := by
  have hab := h.absorbs hm hv hb
  have hown := hm.owned hv.toWired hb
  have hcode := h.instrs b hab.ne
  rw [if_pos rfl] at hcode
  refine hab.strict hv hs hcode (fun before i after hi v hvi => ?_) fun t ht v hvt => ?_
  · have hknown := hab.known_removed hv.closed (hs.instr m hown before i after hi v hvi)
    rwa [hm.no_phis, List.map_nil, List.nil_append] at hknown
  · rw [h.term b hab.ne, if_pos rfl] at ht
    rw [hab.definitions, List.append_nil]
    exact hab.known_removed hv.closed (hs.term m hown t ht v hvt)

/-- **The code of the two blocks, one after the other.** -/
theorem Merged.takesOver (h : Merged fn fn' b m) (hm : Mergeable fn b m) (hv : fn.Valid)
    (hb : fn.owns b) : TakesOver fn fn' b m [] := by
  have hab := h.absorbs hm hv hb
  have hown := hm.owned hv.toWired hb
  obtain ⟨t, ht⟩ := Option.isSome_iff_exists.mp (hv.terminated m hown)
  have hcode := h.instrs b hab.ne
  have hterm := h.term b hab.ne
  rw [if_pos rfl] at hcode hterm
  refine takesOver_of_ends h.name hcode (fun i _ v _ => by simp) fun handler u u' hu _ => ?_
  refine Or.inr ⟨u, ?_, ?_⟩
  · rw [hm.term]
    rfl
  · rw [code, hterm, ht]
    exact finish_alike h.name hu (fun i _ v _ => by simp) fun v _ => by simp

/-- **A merge keeps what a function does**, errors included. -/
theorem Merged.refines (h : Merged fn fn' b m) (hm : Mergeable fn b m) (hv : fn.Valid)
    (hb : fn.owns b) : fn.Refines (· ≠ .stepLimit) fn' :=
  refines_of_absorbs (h.absorbs hm hv hb) hv (h.takesOver hm hv hb)

/-- **A merge keeps the calls of a function that never end.** -/
theorem Merged.diverges (h : Merged fn fn' b m) (hm : Mergeable fn b m) (hv : fn.Valid)
    (hb : fn.owns b) {handler : CallHandler} {args : List Int64} {trace : Array CallRecord}
    (hdiv : fn.Diverges handler args trace) : fn'.Diverges handler args trace :=
  diverges_of_absorbs (h.absorbs hm hv hb) hv (h.takesOver hm hv hb) hdiv

/-! ### Whole runs -/

/-- One merge, of any blocks that can be merged. -/
def MergeStep (fn fn' : Func) : Prop :=
  ∃ b m, fn.owns b ∧ Mergeable fn b m ∧ Merged fn fn' b m

theorem MergeStep.wired (h : MergeStep fn fn') (hw : fn.Wired) : fn'.Wired := by
  obtain ⟨b, m, hb, hm, hmerged⟩ := h
  exact hmerged.wired hm hw hb

/-- What every merge keeps, a sequence of merges keeps. -/
theorem merges_induction {I : Func → Prop} (hstep : ∀ f f', MergeStep f f' → I f → I f')
    (h : Relation.TransGen MergeStep fn fn') (hI : I fn) : I fn' := by
  induction h with
  | single h => exact hstep _ _ h hI
  | tail _ h ih => exact hstep _ _ h ih

theorem wired_of_merges (h : Relation.TransGen MergeStep fn fn') (hw : fn.Wired) : fn'.Wired :=
  merges_induction (fun _ _ h hw => h.wired hw) h hw

/-- **A sweep** meets no fault. It leaves the function alone, or it merges blocks and says so. -/
theorem sweep_cases : ∀ (bs : List BlockId) (f : Func) (changed : Bool), f.Wired →
    (∀ b ∈ bs, b.func = f.serial) → ∃ f' c, sweep f changed bs = .ok (f', c) ∧
      (f' = f ∧ c = changed ∨ Relation.TransGen MergeStep f f' ∧ c = true)
  | [], f, changed, _, _ => ⟨f, changed, rfl, Or.inl ⟨rfl, rfl⟩⟩
  | b :: bs, f, changed, hw, hbs => by
    have hrest : ∀ c ∈ bs, c.func = f.serial := fun c hc => hbs c (List.mem_cons_of_mem b hc)
    rw [sweep]
    split
    · exact sweep_cases bs f changed hw hrest
    · next hlive =>
      have hb : f.owns b := by
        rw [Bool.not_eq_true, Option.isNone_eq_false_iff, Func.liveAt?_isSome_iff,
          Func.mk_index (hbs b (by simp))] at hlive
        exact hlive
      cases htarget : target? f b with
      | none => exact sweep_cases bs f changed hw hrest
      | some m =>
        have hm := mergeable_of_target? htarget
        obtain ⟨f', hf', hmerged⟩ := exists_merged hm hw hb
        have hstep : MergeStep f f' := ⟨b, m, hb, hm, hmerged⟩
        obtain ⟨f'', c, hsweep, hcases⟩ := sweep_cases bs f' true (hstep.wired hw) fun c hc => by
          rw [hmerged.serial]
          exact hrest c hc
        simp only [hf']
        refine ⟨f'', c, hsweep, Or.inr ?_⟩
        rcases hcases with ⟨rfl, hc⟩ | ⟨hmerges, hc⟩
        · exact ⟨.single hstep, hc⟩
        · exact ⟨hmerges.head hstep, hc⟩

/-- Repeated sweeps, too. -/
theorem sweeps_cases : ∀ (fuel : Nat) (f : Func) (changed : Bool), f.Wired →
    ∃ f' c, sweeps fuel f changed = .ok (f', c) ∧
      (f' = f ∧ c = changed ∨ Relation.TransGen MergeStep f f' ∧ c = true)
  | 0, f, changed, _ => ⟨f, changed, rfl, Or.inl ⟨rfl, rfl⟩⟩
  | fuel + 1, f, changed, hw => by
    obtain ⟨f', again, hf', hcases⟩ := sweep_cases f.ids f false hw
      fun b hb => Func.func_of_owns (Func.mem_ids.mp hb)
    rw [sweeps, hf']
    rcases hcases with ⟨rfl, rfl⟩ | ⟨hmerges, rfl⟩
    · exact ⟨f', changed, rfl, Or.inl ⟨rfl, rfl⟩⟩
    · obtain ⟨f'', c, hsweeps, hcases⟩ := sweeps_cases fuel f' true (wired_of_merges hmerges hw)
      refine ⟨f'', c, hsweeps, Or.inr ?_⟩
      rcases hcases with ⟨rfl, hc⟩ | ⟨hmore, hc⟩
      · exact ⟨hmerges, hc⟩
      · exact ⟨hmerges.trans hmore, hc⟩

/-- **The induction over a run of the pass.** -/
theorem run_induction {I : Func → Prop} (hwired : ∀ f, I f → f.Wired)
    (hmerge : ∀ f f' b m, I f → f.owns b → Mergeable f b m → Merged f f' b m → I f')
    (hI : I fn) : ∃ f' c, run fn = .ok (f', c) ∧ I f' := by
  obtain ⟨f', c, hrun, hcases⟩ := sweeps_cases (fn.ids.length + 1) fn false (hwired fn hI)
  refine ⟨f', c, hrun, ?_⟩
  rcases hcases with ⟨rfl, -⟩ | ⟨hmerges, -⟩
  · exact hI
  · refine merges_induction ?_ hmerges hI
    rintro f f' ⟨b, m, hb, hm, hmerged⟩ hf
    exact hmerge f f' b m hf hb hm hmerged

/-- **A run keeps a function valid and keeps what it does**, and it keeps strict form. -/
theorem run_valid (hv : fn.Valid) (hentered : fn.Entered) :
    ∃ f' c, run fn = .ok (f', c) ∧ f'.Valid ∧ f'.Entered ∧ (fn.Strict → f'.Strict) ∧
      fn.Refines (· ≠ .stepLimit) f' := by
  refine run_induction (I := fun f => f.Valid ∧ f.Entered ∧ (fn.Strict → f.Strict) ∧
    fn.Refines (· ≠ .stepLimit) f) (fun f hI => hI.1.toWired) ?_ ?_
  · rintro f f' b m ⟨hfv, hfe, hfs, hrefines⟩ hb hm hmerged
    exact ⟨hmerged.valid hm hfv hb, hmerged.entered hm hfv hfe hb,
      fun hs => hmerged.strict hm hfv hb (hfs hs), hrefines.trans (hmerged.refines hm hfv hb)⟩
  · exact ⟨hv, hentered, fun hs => hs, .refl fn⟩

end BlockMerge

end BranchFusion
