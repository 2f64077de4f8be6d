import BranchFusion.Dominance.Spanning
import BranchFusion.Proofs.ControlFlow
import BranchFusion.Proofs.Graph.Semidominator
import Mathlib.Algebra.BigOperators.Group.List.Basic
import Mathlib.Algebra.GroupWithZero.Nat
import Mathlib.Algebra.Order.BigOperators.Group.List
import Mathlib.Algebra.Order.Group.Nat
import Mathlib.Data.List.Perm.Subperm

/-!
# The depth-first numbering of a function

`BranchFusion.Spanning.grow` keeps the edges that are still to be followed in one list, with those
of the vertex met last in front. Its invariant is `BranchFusion.Spanning.Grown`. Two parts of it
carry the rest: the sources of the waiting edges are numbered in descending order, and everything
numbered after such a source is a descendant of it. So the next vertex is a descendant of all
sources that wait, and an edge whose target was met in the meantime leads to a descendant.

When no edge waits, the vertices are the blocks that the entry reaches
(`BranchFusion.Spanning.reaches_vertex_iff`), numbered in the order in which the recursive depth-first
search visits them (`BranchFusion.Spanning.visits_build`), and the numbering is one that dominators
can be computed from (`BranchFusion.Spanning.numbering_build`).
-/

namespace BranchFusion

open BranchFusion.Graph

/-! ### The recursive search -/

/-- **Depth-first search**, as a relation between the vertices seen before, the vertices to visit,
and the vertices seen after: a vertex that was not seen is seen now, then what it leads to is
visited, then the rest. -/
inductive Visits {α : Type} (next : α → List α) : List α → List α → List α → Prop
  | nil {seen : List α} : Visits next seen [] seen
  | skip {seen after bs : List α} {b : α} :
      b ∈ seen → Visits next seen bs after → Visits next seen (b :: bs) after
  | visit {seen between after bs : List α} {b : α} :
      b ∉ seen → Visits next (seen ++ [b]) (next b) between → Visits next between bs after →
        Visits next seen (b :: bs) after

/-- Visiting two lists of vertices is visiting the one and then the other. -/
theorem Visits.of_append {α : Type} {next : α → List α} {bs cs : List α} :
    ∀ {seen after : List α}, Visits next seen (bs ++ cs) after →
      ∃ between, Visits next seen bs between ∧ Visits next between cs after := by
  induction bs with
  | nil => exact fun h => ⟨_, .nil, h⟩
  | cons b bs ih =>
    intro seen after h
    cases h with
    | skip hb h =>
      obtain ⟨between, h1, h2⟩ := ih h
      exact ⟨between, .skip hb h1, h2⟩
    | visit hb hv h =>
      obtain ⟨between, h1, h2⟩ := ih h
      exact ⟨between, .visit hb hv h1, h2⟩

/-! ### Counting edges -/

/-- **Different live blocks have no more edges than there are.** -/
theorem Func.sum_successors_le {fn : Func} {bs : List BlockId} (hnodup : bs.Nodup)
    (hown : ∀ b ∈ bs, fn.owns b) :
    (bs.map fun b => (fn.successors b).length).sum ≤ fn.edgeCount := by
  let degree : Nat → Nat := fun i => (fn.successors ⟨fn.serial, i⟩).length
  have hdegree : (bs.map fun b => (fn.successors b).length) =
      (bs.map BlockId.index).map degree := by
    rw [List.map_map]
    refine List.map_congr_left fun b hb => ?_
    simp only [degree, Function.comp_apply, mk_index (func_of_owns (hown b hb))]
  -- so the edges are counted along different indices, all below the number of blocks
  obtain ⟨l, hperm, hsubl⟩ := subperm_index hnodup hown
  have hall : ((List.range fn.blocks.size).map degree).sum =
      fn.blocks.toList.foldr (fun b n => b.successors.length + n) 0 := by
    have hblocks : (List.range fn.blocks.size).map degree =
        fn.blocks.toList.map fun b => b.successors.length := by
      refine List.ext_getElem (by simp) fun i hi _ => ?_
      have hi' : i < fn.blocks.size := by simpa using hi
      simp [degree, successors, block, block?, hi']
    rw [hblocks, List.sum_eq_foldr, List.foldr_map]
  calc (bs.map fun b => (fn.successors b).length).sum
      = (l.map degree).sum := by rw [hdegree, (hperm.map degree).sum_eq]
    _ ≤ ((List.range fn.blocks.size).map degree).sum := (hsubl.map degree).sum_le_sum (by simp)
    _ ≤ fn.edgeCount := by rw [hall, edgeCount]; omega

namespace Spanning

variable {fn : Func} {t : Spanning} {work : List (Nat × BlockId)} {b r : BlockId} {p v w : Nat}

/-! ### Adding a vertex -/

/-- The tree with one more vertex. -/
def push (t : Spanning) (p : Nat) (b : BlockId) : Spanning := ⟨t.order.push b, t.parent.push p⟩

@[simp] theorem size_push : (t.push p b).size = t.size + 1 := by simp [push, size]

theorem lt_size_push : v < (t.push p b).size ↔ v < t.size ∨ v = t.size := by
  rw [size_push, Nat.lt_succ_iff_lt_or_eq]

theorem vertex_push_of_lt (h : v < t.size) : (t.push p b).vertex v = t.vertex v := by
  have h' : v < t.order.size := h
  simp [vertex, push, Array.getElem?_push_lt, h']

theorem vertex_push_self : (t.push p b).vertex t.size = b := by
  simp [vertex, push, size]

theorem parentOf_push_of_lt (hs : t.parent.size = t.size) (h : v < t.size) :
    (t.push p b).parentOf v = t.parentOf v := by
  have h' : v < t.parent.size := hs ▸ h
  simp [parentOf, push, Array.getElem?_push_lt, h']

theorem parentOf_push_self (hs : t.parent.size = t.size) : (t.push p b).parentOf t.size = p := by
  simp [parentOf, push, ← hs]

theorem mem_order_iff : b ∈ t.order.toList ↔ ∃ v, v < t.size ∧ t.vertex v = b := by
  rw [Array.mem_toList_iff, Array.mem_iff_getElem]
  constructor
  · rintro ⟨v, hv, rfl⟩
    exact ⟨v, hv, by simp [vertex, hv]⟩
  · rintro ⟨v, hv, rfl⟩
    have hv' : v < t.order.size := hv
    exact ⟨v, hv', by simp [vertex, hv']⟩

/-! ### Parents -/

/-- A vertex is met by an edge from a vertex that was met before it, whatever the function. -/
theorem parentsFirst_grow : ∀ (fuel : Nat) {work : List (Nat × BlockId)} {t : Spanning},
    t.parent.size = t.size → ParentsFirst t.size t.parentOf → (∀ e ∈ work, e.1 < t.size) →
      ParentsFirst (grow fn fuel work t).size (grow fn fuel work t).parentOf
  | 0, _, _, _, hp, _ => hp
  | _ + 1, [], _, _, hp, _ => hp
  | fuel + 1, (p, b) :: work, t, hs, hp, hwork => by
    rw [grow]
    split
    · exact parentsFirst_grow fuel hs hp fun e he => hwork e (List.mem_cons_of_mem _ he)
    · refine parentsFirst_grow (t := t.push p b) fuel (by simpa [push, size] using hs) ?_ ?_
      · intro w hw0 hw
        rcases lt_size_push.mp hw with hw | rfl
        · rw [parentOf_push_of_lt hs hw]
          exact hp w hw0 hw
        · rw [parentOf_push_self hs]
          exact hwork (p, b) List.mem_cons_self
      · intro e he
        rcases List.mem_append.mp he with he | he
        · obtain ⟨s, -, rfl⟩ := List.mem_map.mp he
          exact lt_size_push.mpr (Or.inr rfl)
        · have := hwork e (List.mem_cons_of_mem _ he)
          rw [size_push]
          omega

/-! ### The invariant of the search -/

/-- **The invariant of the search**: what holds of the vertices met so far and of the edges that are
still to be followed. -/
structure Grown (fn : Func) (r : BlockId) (work : List (Nat × BlockId)) (t : Spanning) : Prop where
  parent_size : t.parent.size = t.size
  entry : 0 < t.size ∧ t.vertex 0 = r
  owned : ∀ v, v < t.size → fn.owns (t.vertex v)
  distinct : ∀ v w, v < t.size → w < t.size → t.vertex v = t.vertex w → v = w
  parent_lt : ∀ w, 0 < w → w < t.size → t.parentOf w < w
  parent_edge : ∀ w, 0 < w → w < t.size → fn.Edge (t.vertex (t.parentOf w)) (t.vertex w)
  preorder : ∀ w, 0 < w → w < t.size → Ancestor t.parentOf (t.parentOf w) (w - 1)
  /-- The edges that wait are edges of vertices met. -/
  source : ∀ e ∈ work, e.1 < t.size ∧ fn.Edge (t.vertex e.1) e.2
  /-- Their sources are in descending order. -/
  sorted : work.Pairwise fun e e' => e'.1 ≤ e.1
  /-- Everything met after a source that still has edges waiting is a descendant of it. -/
  below : ∀ e ∈ work, ∀ w, e.1 ≤ w → w < t.size → Ancestor t.parentOf e.1 w
  /-- An edge waits, or its target has been met. -/
  followed : ∀ v, v < t.size → ∀ s, fn.Edge (t.vertex v) s → (v, s) ∈ work ∨
    ∃ w, w < t.size ∧ t.vertex w = s ∧ (v < w → Ancestor t.parentOf v w)

/-- Ancestors are not affected by a new vertex. -/
theorem Grown.ancestor_push (h : Grown fn r work t) (hw : w < t.size)
    (ha : Ancestor t.parentOf v w) : Ancestor (t.push p b).parentOf v w :=
  ha.congr (fun x hx hxw => h.parent_lt x hx (by omega))
    (fun _ hxw => parentOf_push_of_lt h.parent_size (by omega))

/-- Following an edge to a vertex that has been met. -/
theorem Grown.skip (h : Grown fn r ((p, b) :: work) t) (hw : w < t.size) (hb : t.vertex w = b) :
    Grown fn r work t := by
  refine { h with
    source := fun e he => h.source e (by simp [he])
    sorted := (List.pairwise_cons.mp h.sorted).2
    below := fun e he => h.below e (by simp [he])
    followed := fun v hv s hs => ?_ }
  rcases h.followed v hv s hs with hmem | hmet
  · rcases List.mem_cons.mp hmem with heq | hmem
    · obtain ⟨rfl, rfl⟩ : v = p ∧ s = b := by simpa using heq
      exact Or.inr ⟨w, hw, hb, fun hlt => h.below _ (List.mem_cons_self ..) w hlt.le hw⟩
    · exact Or.inl hmem
  · exact Or.inr hmet

/-- Following an edge to a new vertex, whose own edges are followed next. -/
theorem Grown.visit (hclosed : fn.Closed) (h : Grown fn r ((p, b) :: work) t)
    (hnew : ∀ w, w < t.size → t.vertex w ≠ b) :
    Grown fn r ((fn.successors b).map (fun s => (t.size, s)) ++ work) (t.push p b) := by
  obtain ⟨hp, hedge⟩ := h.source (p, b) (by simp)
  have hps := h.parent_size
  -- the new vertex is a descendant of its parent, and so of every source that waits
  have hnewanc : ∀ v, v ≤ p → Ancestor t.parentOf v p →
      Ancestor (t.push p b).parentOf v t.size := fun v hv ha => by
    refine .up (by omega) ?_
    rw [parentOf_push_self hps]
    exact h.ancestor_push hp ha
  have hwork : ∀ e ∈ work, e.1 ≤ p ∧ Ancestor t.parentOf e.1 p := fun e he => by
    have hle : e.1 ≤ p := (List.pairwise_cons.mp h.sorted).1 e he
    exact ⟨hle, h.below e (by simp [he]) p hle hp⟩
  constructor
  case parent_size => simpa [push, size] using hps
  case entry => exact ⟨by simp, by rw [vertex_push_of_lt h.entry.1, h.entry.2]⟩
  case owned =>
    intro v hv
    rcases lt_size_push.mp hv with hlt | rfl
    · rw [vertex_push_of_lt hlt]
      exact h.owned v hlt
    · rw [vertex_push_self]
      exact hclosed.edge _ _ (h.owned p hp) hedge
  case distinct =>
    intro v w hv hw heq
    rcases lt_size_push.mp hv with hv | rfl <;> rcases lt_size_push.mp hw with hw | rfl
    · rw [vertex_push_of_lt hv, vertex_push_of_lt hw] at heq
      exact h.distinct v w hv hw heq
    · rw [vertex_push_of_lt hv, vertex_push_self] at heq
      exact absurd heq (hnew v hv)
    · rw [vertex_push_self, vertex_push_of_lt hw] at heq
      exact absurd heq.symm (hnew w hw)
    · rfl
  case parent_lt =>
    intro w hw0 hw
    rcases lt_size_push.mp hw with hw | rfl
    · rw [parentOf_push_of_lt hps hw]
      exact h.parent_lt w hw0 hw
    · rw [parentOf_push_self hps]
      exact hp
  case parent_edge =>
    intro w hw0 hw
    rcases lt_size_push.mp hw with hw | rfl
    · have hlt := h.parent_lt w hw0 hw
      rw [parentOf_push_of_lt hps hw, vertex_push_of_lt (by omega), vertex_push_of_lt hw]
      exact h.parent_edge w hw0 hw
    · rw [parentOf_push_self hps, vertex_push_of_lt hp, vertex_push_self]
      exact hedge
  case preorder =>
    intro w hw0 hw
    rcases lt_size_push.mp hw with hw | rfl
    · rw [parentOf_push_of_lt hps hw]
      exact h.ancestor_push (by omega) (h.preorder w hw0 hw)
    · -- the vertex met last is a descendant of every source that waits, `p` among them
      rw [parentOf_push_self hps]
      exact h.ancestor_push (by omega) (h.below _ (List.mem_cons_self ..) _ (by simp; omega)
        (by omega))
  case source =>
    intro e he
    rcases List.mem_append.mp he with he | he
    · obtain ⟨s, hs, rfl⟩ := List.mem_map.mp he
      refine ⟨by simp, ?_⟩
      rw [vertex_push_self]
      exact hs
    · obtain ⟨hlt, he⟩ := h.source e (by simp [he])
      exact ⟨by simp; omega, by rwa [vertex_push_of_lt hlt]⟩
  case sorted =>
    refine List.pairwise_append.mpr ⟨?_, (List.pairwise_cons.mp h.sorted).2, ?_⟩
    · exact List.pairwise_map.mpr (List.pairwise_of_forall fun _ _ => le_rfl)
    · rintro e he e' he'
      obtain ⟨s, -, rfl⟩ := List.mem_map.mp he
      have := (hwork e' he').1
      simp only
      omega
  case below =>
    intro e he w hew hw
    rcases List.mem_append.mp he with he | he
    · obtain ⟨s, -, rfl⟩ := List.mem_map.mp he
      obtain rfl : w = t.size := by simp at hew hw; omega
      exact .refl
    · rcases lt_size_push.mp hw with hw | rfl
      · exact h.ancestor_push hw (h.below e (by simp [he]) w hew hw)
      · exact hnewanc e.1 (hwork e he).1 (hwork e he).2
  case followed =>
    intro v hv s hs
    rcases lt_size_push.mp hv with hv | rfl
    · rw [vertex_push_of_lt hv] at hs
      rcases h.followed v hv s hs with hmem | ⟨w, hw, hws, hanc⟩
      · rcases List.mem_cons.mp hmem with heq | hmem
        · -- this is the edge that was followed
          obtain ⟨rfl, rfl⟩ : v = p ∧ s = b := by simpa using heq
          exact Or.inr ⟨t.size, by simp, vertex_push_self, fun _ => hnewanc v le_rfl .refl⟩
        · exact Or.inl (by simp [hmem])
      · exact Or.inr ⟨w, by simp; omega, by rw [vertex_push_of_lt hw, hws],
          fun hlt => h.ancestor_push hw (hanc hlt)⟩
    · rw [vertex_push_self] at hs
      exact Or.inl (List.mem_append_left _ (List.mem_map.mpr ⟨s, hs, rfl⟩))

/-! ### Enough fuel -/

/-- The edges of the vertices met so far. -/
def metEdges (fn : Func) (t : Spanning) : Nat :=
  (t.order.toList.map fun b => (fn.successors b).length).sum

theorem metEdges_push : metEdges fn (t.push p b) = metEdges fn t + (fn.successors b).length := by
  simp [metEdges, push]

theorem Grown.nodup_order (h : Grown fn r work t) : t.order.toList.Nodup := by
  rw [List.nodup_iff_injective_get]
  intro i j hij
  refine Fin.ext (h.distinct i j (by simp [size]) (by simp [size]) ?_)
  have hi : (i : Nat) < t.order.size := by simp
  have hj : (j : Nat) < t.order.size := by simp
  simpa [vertex, hi, hj] using hij

/-- Different vertices have different edges, so they have no more than there are. -/
theorem Grown.metEdges_le (h : Grown fn r work t) : metEdges fn t ≤ fn.edgeCount := by
  refine Func.sum_successors_le h.nodup_order fun b hb => ?_
  obtain ⟨v, hv, rfl⟩ := mem_order_iff.mp hb
  exact h.owned v hv

theorem any_index_iff (hclosed : fn.Closed) (h : Grown fn r ((p, b) :: work) t) :
    (t.order.any fun v => v.index = b.index) = true ↔ ∃ w, w < t.size ∧ t.vertex w = b := by
  obtain ⟨hp, hedge⟩ := h.source (p, b) (by simp)
  have hb : b.func = fn.serial := Func.func_of_owns (hclosed.edge _ _ (h.owned p hp) hedge)
  rw [Array.any_eq_true', ← mem_order_iff]
  constructor
  · rintro ⟨a, ha, heq⟩
    have ha' := Array.mem_toList_iff.mpr ha
    obtain ⟨v, hv, rfl⟩ := mem_order_iff.mp ha'
    have hvb := Func.eq_of_index_eq (Func.func_of_owns (h.owned v hv)) hb (by simpa using heq)
    exact hvb ▸ ha'
  · intro hmem
    exact ⟨b, Array.mem_toList_iff.mp hmem, by simp⟩

/-- **The search ends with no edge waiting**, and visits what the recursive search visits. -/
theorem Grown.grow (hclosed : fn.Closed) :
    ∀ (fuel : Nat) {work : List (Nat × BlockId)} {t : Spanning}, Grown fn r work t →
      work.length + fn.edgeCount ≤ fuel + metEdges fn t →
      Grown fn r [] (grow fn fuel work t) ∧
        Visits fn.successors t.order.toList (work.map Prod.snd)
          (Spanning.grow fn fuel work t).order.toList
  | 0, work, t, h, hfuel => by
    have hle := h.metEdges_le
    obtain rfl : work = [] := List.eq_nil_of_length_eq_zero (by omega)
    exact ⟨h, .nil⟩
  | fuel + 1, [], t, h, _ => ⟨h, .nil⟩
  | fuel + 1, (p, b) :: work, t, h, hfuel => by
    rw [Spanning.grow]
    split
    · next hany =>
      obtain ⟨w, hw, hwb⟩ := (any_index_iff hclosed h).mp hany
      obtain ⟨h1, hvis⟩ := Grown.grow hclosed fuel (h.skip hw hwb)
        (by simp only [List.length_cons] at hfuel; omega)
      exact ⟨h1, .skip (mem_order_iff.mpr ⟨w, hw, hwb⟩) hvis⟩
    · -- the edges of the new vertex are new among those met, which pays for following them
      next hany =>
      have hnew : ¬∃ w, w < t.size ∧ t.vertex w = b := fun hex =>
        hany ((any_index_iff hclosed h).mpr hex)
      obtain ⟨h1, hvis⟩ := Grown.grow hclosed fuel
        (h.visit hclosed fun w hw hwb => hnew ⟨w, hw, hwb⟩)
        (by
          rw [metEdges_push]
          simp only [List.length_append, List.length_map, List.length_cons] at hfuel ⊢
          omega)
      refine ⟨h1, ?_⟩
      rw [List.map_append, List.map_map] at hvis
      have hid : ((fn.successors b).map (Prod.snd ∘ fun s => (t.size, s))) = fn.successors b :=
        List.map_id _
      rw [hid] at hvis
      obtain ⟨between, hv1, hv2⟩ := hvis.of_append
      refine .visit (fun hmem => hnew (mem_order_iff.mp hmem)) ?_ hv2
      simpa [push] using hv1

/-! ### The finished tree -/

/-- The invariant at the start: the entry is the only vertex, and its edges wait. -/
theorem grown_start (hclosed : fn.Closed) (hr : fn.root = some r) :
    Grown fn r ((fn.successors r).map fun s => (0, s)) (push {} 0 r) := by
  have hvertex : ∀ v, v < 1 → (push {} 0 r).vertex v = r := by
    intro v hv
    obtain rfl : v = 0 := by omega
    rfl
  constructor
  case parent_size => rfl
  case entry => exact ⟨by simp, rfl⟩
  case owned =>
    intro v hlt
    rw [hvertex v hlt]
    exact hclosed.entry r hr
  case distinct =>
    intro v w (hv : v < 1) (hw : w < 1) _
    omega
  -- what is said of parents is said of other vertices than the entry
  case parent_lt =>
    intro w hw0 (hw : w < 1)
    omega
  case parent_edge =>
    intro w hw0 (hw : w < 1)
    omega
  case preorder =>
    intro w hw0 (hw : w < 1)
    omega
  case source =>
    rintro e he
    obtain ⟨s, hs, rfl⟩ := List.mem_map.mp he
    exact ⟨by simp, hs⟩
  case sorted => exact List.pairwise_map.mpr (List.pairwise_of_forall fun _ _ => le_rfl)
  case below =>
    rintro e he w - (hw : w < 1)
    obtain ⟨s, -, rfl⟩ := List.mem_map.mp he
    obtain rfl : w = 0 := by omega
    exact .refl
  case followed =>
    rintro v (hlt : v < 1) s hs
    rw [hvertex v hlt] at hs
    obtain rfl : v = 0 := by omega
    exact Or.inl (List.mem_map.mpr ⟨s, hs, rfl⟩)

/-- The search has met the entry when its first edge is followed. -/
theorem build_eq (hr : fn.root = some r) : build fn =
    grow fn fn.edgeCount ((fn.successors r).map fun s => (0, s)) (push {} 0 r) := by
  rw [build, hr]
  simp [Spanning.grow, push]

/-- The invariant at the end of the search. -/
theorem grown_build (hclosed : fn.Closed) (hr : fn.root = some r) :
    Grown fn r [] (build fn) ∧ Visits fn.successors [] [r] (build fn).order.toList := by
  obtain ⟨h, hvis⟩ := (grown_start hclosed hr).grow hclosed fn.edgeCount
    (by simp [metEdges, push]; omega)
  rw [build_eq hr]
  refine ⟨h, .visit (by simp) ?_ .nil⟩
  have hid : ((fn.successors r).map fun s => ((0 : Nat), s)).map Prod.snd = fn.successors r := by
    rw [List.map_map]
    exact List.map_id _
  rwa [hid] at hvis

/-- **The vertices are numbered in the order of the depth-first search.** -/
theorem visits_build (hclosed : fn.Closed) (hr : fn.root = some r) :
    Visits fn.successors [] [r] (build fn).order.toList :=
  (grown_build hclosed hr).2

/-- In the spanning tree of any function parents come first. -/
theorem parentsFirst_build (fn : Func) : ParentsFirst (build fn).size (build fn).parentOf := by
  rcases hr : fn.root with _ | r
  · intro w _ hw
    have hsize : (build fn).size = 0 := by simp [build, hr, size]
    omega
  · rw [build_eq hr]
    refine parentsFirst_grow _ rfl (fun w hw0 hw => ?_) fun e he => ?_
    · have hw1 : w < 1 := hw
      omega
    · obtain ⟨s, -, rfl⟩ := List.mem_map.mp he
      simp

/-- The edges between the numbers of vertices. -/
def NumberEdge (fn : Func) (t : Spanning) (v w : Nat) : Prop :=
  v < t.size ∧ w < t.size ∧ fn.Edge (t.vertex v) (t.vertex w)

/-- **The numbering is a depth-first numbering.** -/
theorem numbering_build (hclosed : fn.Closed) (hr : fn.root = some r) :
    Numbering (build fn).size (NumberEdge fn (build fn)) (build fn).parentOf := by
  obtain ⟨h, -⟩ := grown_build hclosed hr
  refine ⟨fun v w he => ⟨he.1, he.2.1⟩, h.parent_lt, fun w hw0 hw => ?_, h.preorder, ?_⟩
  · exact ⟨(h.parent_lt w hw0 hw).trans hw, hw, h.parent_edge w hw0 hw⟩
  · rintro v w ⟨hv, hw, he⟩ hlt
    rcases h.followed v hv _ he with hmem | ⟨w', hw', heq, hanc⟩
    · simp at hmem
    · obtain rfl := h.distinct w' w hw' hw heq
      exact hanc hlt

/-- Every edge out of a vertex leads to a vertex. -/
theorem exists_vertex_of_edge (hclosed : fn.Closed) (hr : fn.root = some r)
    (hv : v < (build fn).size) (he : fn.Edge ((build fn).vertex v) b) :
    ∃ w, NumberEdge fn (build fn) v w ∧ (build fn).vertex w = b := by
  obtain ⟨h, -⟩ := grown_build hclosed hr
  rcases h.followed v hv b he with hmem | ⟨w, hw, hwb, -⟩
  · simp at hmem
  · exact ⟨w, ⟨hv, hw, hwb.symm ▸ he⟩, hwb⟩

/-- What reaches what among the numbers is what reaches what among the blocks. -/
theorem reaches_vertex_iff (hclosed : fn.Closed) (hr : fn.root = some r) :
    Relation.ReflTransGen fn.Edge r b ↔ ∃ v, v < (build fn).size ∧ (build fn).vertex v = b := by
  obtain ⟨h, -⟩ := grown_build hclosed hr
  constructor
  · intro hb
    induction hb with
    | refl => exact ⟨0, h.entry⟩
    | tail _ he ih =>
      obtain ⟨v, hv, rfl⟩ := ih
      obtain ⟨w, hw, hwb⟩ := exists_vertex_of_edge hclosed hr hv he
      exact ⟨w, hw.2.1, hwb⟩
  · rintro ⟨v, hv, rfl⟩
    have hreach := (numbering_build hclosed hr).reaches hv
    rw [← h.entry.2]
    exact hreach.lift (build fn).vertex fun _ _ he => he.2.2

theorem mem_preds_build (hclosed : fn.Closed) (hr : fn.root = some r) (hw : w < (build fn).size) :
    v ∈ (build fn).preds fn w ↔ NumberEdge fn (build fn) v w := by
  obtain ⟨h, -⟩ := grown_build hclosed hr
  simp only [preds, List.mem_flatMap, List.mem_range, List.mem_map, List.mem_filter,
    decide_eq_true_eq]
  constructor
  · rintro ⟨x, hx, s, ⟨hs, hidx⟩, rfl⟩
    have hown := hclosed.edge _ _ (h.owned x hx) hs
    have heq := Func.eq_of_index_eq (Func.func_of_owns hown) (Func.func_of_owns (h.owned w hw)) hidx
    exact ⟨hx, hw, heq ▸ hs⟩
  · rintro ⟨hv, -, he⟩
    exact ⟨v, hv, _, ⟨he, rfl⟩, rfl⟩

end Spanning

end BranchFusion
