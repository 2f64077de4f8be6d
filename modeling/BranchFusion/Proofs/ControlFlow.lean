import BranchFusion.Func
import BranchFusion.Proofs.Graph.Dominance
import Mathlib.Data.List.Nodup
import Mathlib.Data.List.Perm.Subperm

/-!
# The control-flow graph of a function

The vertices are blocks and the edges lead to successors (`BranchFusion.Func.Edge`); reachability
and dominance are those of that graph, from the entry. A function is *closed*
(`BranchFusion.Func.Closed`) when its entry and all successors of its live blocks are live, so that
no path leads out of it.

The rest says what a look-up sees: which blocks are live (`BranchFusion.Func.owns_iff`,
`BranchFusion.Func.mem_ids`), and how the contents of blocks follow an edit
(`BranchFusion.Func.block_modify`, `BranchFusion.Func.owns_modify`). Every edit of a pass is a
sequence of such modifications (`BranchFusion.Func.block_modifyAll`), so nothing else has to look
into the representation.
-/

namespace BranchFusion

/-! ### Successors -/

namespace Terminator

variable {α : Type} {v : α} {b c : BlockId} {cases : Table Int64 BlockId}

@[simp] theorem successors_jump : (jump b : Terminator α).successors = [b] := rfl

@[simp] theorem successors_branch : (branch v b c).successors = [b, c] := rfl

@[simp] theorem successors_switch :
    (switch v b cases).successors = cases.map Prod.snd ++ [b] := by
  simp only [successors, edges, List.map_append, List.map_map, List.map_singleton]
  rfl

@[simp] theorem successors_ret {vs : List α} : (ret vs).successors = [] := rfl

end Terminator

namespace Func

open Relation

variable {α : Type} {fn : Func α} {a b c : BlockId} {f : Block α → Block α}

/-! ### Live blocks -/

theorem owns_iff : fn.owns b = true ↔
    b.func = fn.serial ∧ ∃ bb, fn.blocks[b.index]? = some bb ∧ bb.live = true := by
  obtain ⟨s, i⟩ := b
  simp only [owns, liveAt?, decide_eq_true_eq]
  cases hb : fn.blocks[i]? with
  | none => simp
  | some bb =>
    by_cases hl : bb.live
    · simp only [hl, if_true, Option.some.injEq, BlockId.mk.injEq, and_true]
      exact ⟨fun h => ⟨h.symm, bb, rfl, hl⟩, fun h => h.1.symm⟩
    · simp [hl]

theorem func_of_owns (h : fn.owns b) : b.func = fn.serial := (owns_iff.mp h).1

theorem index_lt_of_owns (h : fn.owns b) : b.index < fn.blocks.size := by
  obtain ⟨-, bb, hbb, -⟩ := owns_iff.mp h
  by_contra hge
  rw [Array.getElem?_eq_none (by omega)] at hbb
  exact absurd hbb (by simp)

/-- Blocks of one function are told apart by their index. -/
theorem eq_of_index_eq (ha : a.func = fn.serial) (hb : b.func = fn.serial)
    (h : a.index = b.index) : a = b := by
  obtain ⟨s, i⟩ := a
  obtain ⟨t, j⟩ := b
  simp only at ha hb h
  rw [ha, hb, h]

theorem mk_index (h : b.func = fn.serial) : (⟨fn.serial, b.index⟩ : BlockId) = b := by
  rw [← h]

theorem liveAt?_isSome_iff {i : Nat} : (fn.liveAt? i).isSome ↔ fn.owns ⟨fn.serial, i⟩ := by
  simp only [owns, liveAt?, decide_eq_true_eq]
  cases fn.blocks[i]? with
  | none => simp
  | some bb => by_cases hl : bb.live <;> simp [hl]

theorem liveAt?_eq_some_iff {i : Nat} : fn.liveAt? i = some b ↔ fn.owns b ∧ b.index = i := by
  constructor
  · intro h
    have hi : b.index = i := by
      simp only [liveAt?] at h
      split at h
      · split at h
        · rw [← Option.some.inj h]
        · exact absurd h (by simp)
      · exact absurd h (by simp)
    subst hi
    exact ⟨by simpa [owns] using h, rfl⟩
  · rintro ⟨h, rfl⟩
    simpa [owns] using h

/-- The live blocks are those that the function owns. -/
@[simp] theorem mem_ids : b ∈ fn.ids ↔ fn.owns b := by
  simp only [ids, List.mem_filterMap, List.mem_range, liveAt?_eq_some_iff]
  constructor
  · rintro ⟨i, -, h, -⟩
    exact h
  · intro h
    exact ⟨b.index, index_lt_of_owns h, h, rfl⟩

theorem nodup_ids : fn.ids.Nodup := by
  refine List.Nodup.filterMap (fun i j b hi hj => ?_) List.nodup_range
  rw [Option.mem_def, liveAt?_eq_some_iff] at hi hj
  rw [← hi.2, ← hj.2]

/-- Different live blocks have different indices. -/
theorem nodup_index {bs : List BlockId} (hnodup : bs.Nodup) (hown : ∀ b ∈ bs, fn.owns b) :
    (bs.map BlockId.index).Nodup :=
  hnodup.map_on fun a ha b hb hab =>
    eq_of_index_eq (func_of_owns (hown a ha)) (func_of_owns (hown b hb)) hab

/-- The indices of different live blocks are some of those that blocks were created with. -/
theorem subperm_index {bs : List BlockId} (hnodup : bs.Nodup) (hown : ∀ b ∈ bs, fn.owns b) :
    (bs.map BlockId.index).Subperm (List.range fn.blocks.size) := by
  refine (nodup_index hnodup hown).subperm fun i hi => ?_
  obtain ⟨b, hb, rfl⟩ := List.mem_map.mp hi
  exact List.mem_range.mpr (index_lt_of_owns (hown b hb))

theorem block?_of_owns (h : fn.owns b) : fn.block? b = some (fn.block b) := by
  obtain ⟨hf, bb, hbb, -⟩ := owns_iff.mp h
  simp [block, block?, hf, hbb]

theorem block_mem_of_owns (h : fn.owns b) : fn.block b ∈ fn.blocks := by
  obtain ⟨hf, bb, hbb, -⟩ := owns_iff.mp h
  have hblock : fn.block b = bb := by simp [block, block?, hf, hbb]
  rw [hblock]
  exact Array.mem_of_getElem? hbb

theorem live_of_owns (h : fn.owns b) : (fn.block b).live = true := by
  obtain ⟨hf, bb, hbb, hl⟩ := owns_iff.mp h
  simpa [block, block?, hf, hbb] using hl

/-! ### Edits -/

@[simp] theorem serial_modify : (fn.modify b f).serial = fn.serial := by
  simp only [modify]; split <;> rfl

@[simp] theorem name_modify : (fn.modify b f).name = fn.name := by
  simp only [modify]; split <;> rfl

@[simp] theorem root_modify : (fn.modify b f).root = fn.root := by
  simp only [modify]; split <;> rfl

@[simp] theorem params_modify : (fn.modify b f).params = fn.params := by
  simp only [modify]; split <;> rfl

@[simp] theorem values_modify : (fn.modify b f).values = fn.values := by
  simp only [modify]; split <;> rfl

@[simp] theorem size_modify : (fn.modify b f).blocks.size = fn.blocks.size := by
  simp only [modify]; split <;> simp

/-- **An edit of a live block** is seen there and nowhere else. -/
theorem block_modify (h : fn.owns b) :
    (fn.modify b f).block c = if c = b then f (fn.block b) else fn.block c := by
  rw [block, block?_modify]
  by_cases hc : c = b
  · subst hc
    simp [block?_of_owns h]
  · rw [if_neg (Ne.symm hc), if_neg hc, block]

/-- An edit that keeps labels keeps how blocks are written, live or not. -/
theorem label_modify (hf : ∀ bb, (f bb).label = bb.label) :
    (fn.modify b f).label c = fn.label c := by
  have hblock : ((fn.modify b f).block c).label = (fn.block c).label := by
    rw [block, block, block?_modify]
    split
    · next hc =>
      subst hc
      cases fn.block? b with
      | none => rfl
      | some bb => exact hf bb
    · rfl
  rw [label, label, hblock]

/-- An edit that does not remove a block removes none. -/
theorem owns_modify (hf : ∀ bb, (f bb).live = bb.live) :
    (fn.modify b f).owns c = fn.owns c := by
  rw [Bool.eq_iff_iff, owns_iff, owns_iff, serial_modify]
  simp only [modify]
  split
  · simp only [Array.getElem?_modify]
    split
    · next hi =>
      cases fn.blocks[c.index]? with
      | none => simp
      | some bb => simp [hf]
    · rfl
  · rfl

theorem ids_congr {fn' : Func α} (hsize : fn'.blocks.size = fn.blocks.size)
    (howns : ∀ c, fn'.owns c = fn.owns c) : fn'.ids = fn.ids := by
  have hlive : fn'.liveAt? = fn.liveAt? := by
    funext i
    refine Option.ext fun c => ?_
    rw [liveAt?_eq_some_iff, liveAt?_eq_some_iff, howns]
  rw [ids, ids, hsize, hlive]

theorem ids_modify (hf : ∀ bb, (f bb).live = bb.live) : (fn.modify b f).ids = fn.ids :=
  ids_congr size_modify fun _ => owns_modify hf

/-- Marking a block as removed removes that block. -/
theorem owns_remove (h : fn.owns b) :
    (fn.modify b fun bb => { bb with live := false }).owns c = (fn.owns c && decide (c ≠ b)) := by
  have hb := func_of_owns h
  rw [Bool.eq_iff_iff, Bool.and_eq_true, owns_iff, owns_iff, serial_modify]
  simp only [modify, if_pos hb, Array.getElem?_modify, decide_eq_true_eq]
  by_cases hc : c = b
  · subst hc
    simp
  · by_cases hi : b.index = c.index
    · have hne : c.func ≠ fn.serial := fun hf => hc (eq_of_index_eq hf hb hi.symm)
      simp [hne]
    · simp [hi, hc]

/-- A sequence of edits, each of one block. -/
def modifyAll (fn : Func α) : List (BlockId × (Block α → Block α)) → Func α
  | [] => fn
  | e :: es => (fn.modify e.1 e.2).modifyAll es

section ModifyAll

variable {es : List (BlockId × (Block α → Block α))}

@[simp] theorem serial_modifyAll : (fn.modifyAll es).serial = fn.serial := by
  induction es generalizing fn with
  | nil => rfl
  | cons e es ih => rw [modifyAll, ih, serial_modify]

@[simp] theorem name_modifyAll : (fn.modifyAll es).name = fn.name := by
  induction es generalizing fn with
  | nil => rfl
  | cons e es ih => rw [modifyAll, ih, name_modify]

@[simp] theorem root_modifyAll : (fn.modifyAll es).root = fn.root := by
  induction es generalizing fn with
  | nil => rfl
  | cons e es ih => rw [modifyAll, ih, root_modify]

@[simp] theorem params_modifyAll : (fn.modifyAll es).params = fn.params := by
  induction es generalizing fn with
  | nil => rfl
  | cons e es ih => rw [modifyAll, ih, params_modify]

@[simp] theorem values_modifyAll : (fn.modifyAll es).values = fn.values := by
  induction es generalizing fn with
  | nil => rfl
  | cons e es ih => rw [modifyAll, ih, values_modify]

theorem owns_modifyAll (hlive : ∀ e ∈ es, ∀ bb, (e.2 bb).live = bb.live) :
    (fn.modifyAll es).owns c = fn.owns c := by
  induction es generalizing fn with
  | nil => rfl
  | cons e es ih =>
    rw [modifyAll, ih fun e' he' => hlive e' (List.mem_cons_of_mem e he')]
    exact owns_modify (hlive e (by simp))

theorem label_modifyAll (hlabel : ∀ e ∈ es, ∀ bb, (e.2 bb).label = bb.label) :
    (fn.modifyAll es).label c = fn.label c := by
  induction es generalizing fn with
  | nil => rfl
  | cons e es ih =>
    rw [modifyAll, ih fun e' he' => hlabel e' (List.mem_cons_of_mem e he')]
    exact label_modify (hlabel e (by simp))

/-- **What a block looks like after a sequence of edits**: the edits of that block, in order. -/
theorem block_modifyAll (hown : ∀ e ∈ es, fn.owns e.1)
    (hlive : ∀ e ∈ es, ∀ bb, (e.2 bb).live = bb.live) : (fn.modifyAll es).block c =
      es.foldl (fun bb e => if c = e.1 then e.2 bb else bb) (fn.block c) := by
  induction es generalizing fn with
  | nil => rfl
  | cons e es ih =>
    have he := hown e (by simp)
    rw [modifyAll, ih, List.foldl_cons, block_modify he]
    · by_cases hc : c = e.1
      · rw [if_pos hc, if_pos hc, hc]
      · rw [if_neg hc, if_neg hc]
    · intro e' he'
      rw [owns_modify (hlive e (by simp))]
      exact hown e' (List.mem_cons_of_mem e he')
    · exact fun e' he' => hlive e' (List.mem_cons_of_mem e he')

@[simp] theorem size_modifyAll : (fn.modifyAll es).blocks.size = fn.blocks.size := by
  induction es generalizing fn with
  | nil => rfl
  | cons e es ih => rw [modifyAll, ih, size_modify]

theorem ids_modifyAll (hlive : ∀ e ∈ es, ∀ bb, (e.2 bb).live = bb.live) :
    (fn.modifyAll es).ids = fn.ids :=
  ids_congr size_modifyAll fun _ => owns_modifyAll hlive

theorem modifyAll_append (es' : List (BlockId × (Block α → Block α))) :
    fn.modifyAll (es ++ es') = (fn.modifyAll es).modifyAll es' := by
  induction es generalizing fn with
  | nil => rfl
  | cons e es ih => rw [List.cons_append, modifyAll, modifyAll, ih]

end ModifyAll

/-! ### New blocks -/

/-- A new block is the last of the live ones. -/
theorem ids_createBlock (label : String) :
    (fn.createBlock label).2.ids = fn.ids ++ [(fn.createBlock label).1] := by
  have hnew : (fn.createBlock label).2.liveAt? fn.blocks.size =
      some (fn.createBlock label).1 := by
    simp [liveAt?, createBlock]
  have hold : ∀ i ∈ List.range fn.blocks.size,
      (fn.createBlock label).2.liveAt? i = fn.liveAt? i := by
    intro i hi
    have hne : i ≠ fn.blocks.size := Nat.ne_of_lt (List.mem_range.mp hi)
    simp [liveAt?, createBlock, Array.getElem?_push, hne]
  have hsize : (fn.createBlock label).2.blocks.size = fn.blocks.size + 1 := Array.size_push ..
  rw [ids, hsize, List.range_succ, List.filterMap_append, List.filterMap_congr hold]
  simp [hnew, ids]

theorem owns_createBlock (label : String) : (fn.createBlock label).2.owns c ↔
    fn.owns c ∨ c = (fn.createBlock label).1 := by
  rw [← mem_ids, ids_createBlock, List.mem_append, mem_ids, List.mem_singleton]

theorem block?_createBlock_of_ne {label : String} (h : c ≠ (fn.createBlock label).1) :
    (fn.createBlock label).2.block? c = fn.block? c := by
  by_cases hc : c.func = fn.serial
  · have hi : c.index ≠ fn.blocks.size := fun hi => h (by rw [createBlock, ← hc, ← hi])
    simp [block?, createBlock, hc, Array.getElem?_push, hi]
  · simp [block?, createBlock, hc]

theorem block_createBlock (label : String) : (fn.createBlock label).2.block c =
    if c = (fn.createBlock label).1 then { label := label } else fn.block c := by
  split
  · next h =>
    subst h
    simp [block, block?, createBlock]
  · next h => rw [block, block?_createBlock_of_ne h, block]

theorem not_owns_createBlock (label : String) : ¬fn.owns (fn.createBlock label).1 :=
  fun h => Nat.lt_irrefl _ (index_lt_of_owns h)

/-! ### Terminating a block -/

theorem addPreds_eq (ss : List BlockId) : ∀ fn : Func α, fn.addPreds b ss =
    fn.modifyAll (ss.map fun s => (s, fun bb => { bb with preds := bb.preds ++ [b] })) := by
  induction ss with
  | nil => exact fun _ => rfl
  | cons s ss ih => exact fun fn => ih _

/-- The edits of a termination. -/
def termEdits (b : BlockId) (t : Terminator α) : List (BlockId × (Block α → Block α)) :=
  (t.successors.map fun s => (s, fun bb => { bb with preds := bb.preds ++ [b] })) ++
    [(b, fun bb => { bb with term := some t })]

theorem terminate_eq (t : Terminator α) : fn.terminate b t = fn.modifyAll (termEdits b t) := by
  rw [terminate, addPreds_eq, setTerm, termEdits, modifyAll_append]
  rfl

theorem live_termEdits {t : Terminator α} :
    ∀ e ∈ termEdits b t, ∀ bb, (e.2 bb).live = bb.live := by
  intro e he bb
  simp only [termEdits, List.mem_append, List.mem_map, List.mem_singleton] at he
  rcases he with ⟨s, -, rfl⟩ | rfl
  · rfl
  · rfl

theorem label_termEdits {t : Terminator α} :
    ∀ e ∈ termEdits b t, ∀ bb, (e.2 bb).label = bb.label := by
  intro e he bb
  simp only [termEdits, List.mem_append, List.mem_map, List.mem_singleton] at he
  rcases he with ⟨s, -, rfl⟩ | rfl
  · rfl
  · rfl

theorem foldl_preds (ss : List BlockId) (bb : Block α) :
    (ss.map fun s => (s, fun bb : Block α => { bb with preds := bb.preds ++ [b] })).foldl
        (fun bb e => if c = e.1 then e.2 bb else bb) bb =
      { bb with preds := bb.preds ++ List.replicate (ss.count c) b } := by
  induction ss generalizing bb with
  | nil => simp
  | cons s ss ih =>
    rw [List.map_cons, List.foldl_cons, ih, List.count_cons]
    by_cases hc : c = s
    · subst hc
      simp [List.replicate_succ]
    · simp [hc, Ne.symm hc]

/-- **What a block looks like after another was terminated.** -/
theorem block_terminate {t : Terminator α} (hb : fn.owns b) (ht : ∀ s ∈ t.successors, fn.owns s) :
    (fn.terminate b t).block c =
      { fn.block c with
        preds := (fn.block c).preds ++ List.replicate (t.successors.count c) b
        term := if c = b then some t else (fn.block c).term } := by
  have hown : ∀ e ∈ termEdits b t, fn.owns e.1 := by
    intro e he
    simp only [termEdits, List.mem_append, List.mem_map, List.mem_singleton] at he
    rcases he with ⟨s, hs, rfl⟩ | rfl
    · exact ht s hs
    · exact hb
  rw [terminate_eq, block_modifyAll hown live_termEdits, termEdits, List.foldl_append,
    foldl_preds]
  by_cases hc : c = b
  · simp [hc]
  · simp [hc]

/-! ### The graph -/

/-- An edge leads from a block to a successor. -/
def Edge (fn : Func α) (a b : BlockId) : Prop := b ∈ fn.successors a

/-- The entry reaches a block. -/
def Reaches (fn : Func α) (b : BlockId) : Prop :=
  ∃ r, fn.root = some r ∧ ReflTransGen fn.Edge r b

/-- **Dominance between blocks**: the entry reaches `b`, and only through `a`. -/
def Dominates (fn : Func α) (a b : BlockId) : Prop :=
  ∃ r, fn.root = some r ∧ Graph.Dominates fn.Edge r a b

/-- **Immediate dominance between blocks**: `d` is the strict dominator of `b` that all strict
dominators of `b` dominate. -/
def ImmediatelyDominates (fn : Func α) (d b : BlockId) : Prop :=
  ∃ r, fn.root = some r ∧ Graph.ImmediatelyDominates fn.Edge r d b

/-- **A closed function**: its entry is live, and so is every successor of a live block. -/
structure Closed (fn : Func α) : Prop where
  entry : ∀ r, fn.root = some r → fn.owns r
  edge : ∀ a b, fn.owns a → fn.Edge a b → fn.owns b

instance (fn : Func α) : Decidable fn.Closed :=
  decidable_of_iff ((∀ r ∈ fn.root, fn.owns r) ∧ ∀ a ∈ fn.ids, ∀ b ∈ fn.successors a, fn.owns b)
    ⟨fun h => ⟨h.1, fun a b ha he => h.2 a (mem_ids.mpr ha) b he⟩,
      fun h => ⟨h.entry, fun a ha b he => h.edge a b (mem_ids.mp ha) he⟩⟩

/-- **What holds of the entry and is kept by edges holds of all that the entry reaches.** -/
theorem Reaches.induction {P : BlockId → Prop} (hb : fn.Reaches b)
    (hentry : ∀ r, fn.root = some r → P r) (hedge : ∀ a c, P a → fn.Edge a c → P c) : P b := by
  obtain ⟨r, hr, hb⟩ := hb
  induction hb with
  | refl => exact hentry r hr
  | tail _ he ih => exact hedge _ _ ih he

theorem Closed.owns_of_reaches (h : fn.Closed) (hb : fn.Reaches b) : fn.owns b :=
  hb.induction h.entry h.edge

theorem Reaches.edge (hb : fn.Reaches b) (he : fn.Edge b c) : fn.Reaches c := by
  obtain ⟨r, hr, hb⟩ := hb
  exact ⟨r, hr, hb.tail he⟩

theorem Dominates.reaches (h : fn.Dominates a b) : fn.Reaches b := by
  obtain ⟨r, hr, hd⟩ := h
  exact ⟨r, hr, hd.reaches⟩

theorem Dominates.refl (h : fn.Reaches b) : fn.Dominates b b := by
  obtain ⟨r, hr, hb⟩ := h
  exact ⟨r, hr, .refl hb⟩

theorem Dominates.antisymm (h : fn.Dominates a b) (h' : fn.Dominates b a) : a = b := by
  obtain ⟨r, hr, hd⟩ := h
  obtain ⟨r', hr', hd'⟩ := h'
  obtain rfl : r = r' := by simpa [hr] using hr'
  exact hd.antisymm hd'

/-- A strict dominator of a block dominates the blocks that lead to it. -/
theorem Dominates.of_edge (h : fn.Dominates a c) (hne : a ≠ c) (hb : fn.Reaches b)
    (he : fn.Edge b c) : fn.Dominates a b := by
  obtain ⟨r, hr, hd⟩ := h
  obtain ⟨r', hr', hb⟩ := hb
  obtain rfl : r = r' := by simpa [hr] using hr'
  exact ⟨r, hr, hd.of_edge hne hb he⟩

/-- An edge out of a live block. Removed blocks keep their place and may keep their branches, but
no path from the entry of a closed function meets them. -/
def LiveEdge (fn : Func α) (a b : BlockId) : Prop := fn.owns a ∧ fn.Edge a b

theorem Closed.dominates_iff_live {r : BlockId} (h : fn.Closed) (hr : fn.root = some r) :
    fn.Dominates a b ↔ Graph.Dominates fn.LiveEdge r a b := by
  have hlive : ∀ x y, ReflTransGen fn.Edge r x → (fn.Edge x y ↔ fn.LiveEdge x y) := fun x y hx =>
    ⟨fun he => ⟨h.owns_of_reaches ⟨r, hr, hx⟩, he⟩, fun he => he.2⟩
  rw [← Graph.dominates_congr hlive]
  simp [Dominates, hr]

/-- Where a block leads to depends on its terminator. -/
theorem edge_congr {fn' : Func α} (h : (fn'.block a).term = (fn.block a).term) :
    fn'.Edge a b ↔ fn.Edge a b := by
  simp only [Edge, successors, Block.successors, Block.edges, h]

end Func

end BranchFusion
