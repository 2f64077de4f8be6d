import BranchFusion.Proofs.Dominance.DepthFirst
import BranchFusion.Proofs.Dominance.Search

/-!
# The dominator tree of a closed function

The search finds, for every vertex but the entry, the number of its immediate dominator. What is
left is to go back from numbers to blocks: the numbering is injective and no edge leads out of it,
so paths around a vertex are paths around its block (`BranchFusion.Spanning.around_vertex_iff`), and
with them dominance and immediate dominance.

The tree then answers three questions, each exactly:

* the immediate dominator of a block (`BranchFusion.DominatorTree.idom?_build_eq_some_iff`);
* the blocks that a block dominates immediately, in the order of the depth-first search
  (`BranchFusion.DominatorTree.mem_children_build`);
* whether one block dominates another, by walking up the tree
  (`BranchFusion.DominatorTree.dominates_build_iff`).

Blocks are looked up by their index, so all this is about the blocks of the function itself.
-/

namespace BranchFusion

open BranchFusion.Graph

variable {fn : Func} {r a b d : BlockId} {v w : Nat}

/-! ### From numbers to blocks -/

namespace Spanning

/-- Paths around a vertex are paths around its block. -/
theorem around_vertex_iff (hclosed : fn.Closed) (hr : fn.root = some r)
    (hv : v < (build fn).size) (hw : w < (build fn).size) :
    Around (NumberEdge fn (build fn)) v 0 w ↔
      Around fn.Edge ((build fn).vertex v) r ((build fn).vertex w) := by
  obtain ⟨h, -⟩ := grown_build hclosed hr
  have hinj : ∀ x, x < (build fn).size → x ≠ v → (build fn).vertex x ≠ (build fn).vertex v :=
    fun x hx hne heq => hne (h.distinct x v hx hv heq)
  constructor
  · intro har
    refine har.induction (P := fun x => Around fn.Edge ((build fn).vertex v) r
      ((build fn).vertex x)) ?_ ?_
    · have h0 := hinj 0 h.entry.1 har.1
      rw [h.entry.2] at h0 ⊢
      exact .refl h0
    · exact fun x y _ ih he hne => ih.snoc he.2.2 (hinj y he.2.1 hne)
  · intro har
    -- every block on the way has a number, by induction along the path
    have key : ∃ x, x < (build fn).size ∧ (build fn).vertex x = (build fn).vertex w ∧
        Around (NumberEdge fn (build fn)) v 0 x := by
      refine har.induction (P := fun b => ∃ x, x < (build fn).size ∧ (build fn).vertex x = b ∧
        Around (NumberEdge fn (build fn)) v 0 x) ?_ ?_
      · refine ⟨0, h.entry.1, h.entry.2, .refl ?_⟩
        rintro rfl
        exact har.1 h.entry.2.symm
      · rintro b c - ⟨x, hx, rfl, hax⟩ he hne
        obtain ⟨y, hy, rfl⟩ := exists_vertex_of_edge hclosed hr hx he
        refine ⟨y, hy.2.1, rfl, hax.snoc hy ?_⟩
        rintro rfl
        exact hne rfl
    obtain ⟨x, hx, heq, hax⟩ := key
    obtain rfl := h.distinct x w hx hw heq
    exact hax

theorem dominates_vertex_iff (hclosed : fn.Closed) (hr : fn.root = some r)
    (hv : v < (build fn).size) (hw : w < (build fn).size) :
    Graph.Dominates (NumberEdge fn (build fn)) 0 v w ↔
      Graph.Dominates fn.Edge r ((build fn).vertex v) ((build fn).vertex w) := by
  rw [dominates_iff_not_around, dominates_iff_not_around, around_vertex_iff hclosed hr hv hw]
  refine and_congr_left fun _ => ⟨fun _ => ?_, fun _ => (numbering_build hclosed hr).reaches hw⟩
  exact (reaches_vertex_iff hclosed hr).mpr ⟨w, hw, rfl⟩

theorem immediatelyDominates_vertex (hclosed : fn.Closed) (hr : fn.root = some r)
    (hv : v < (build fn).size) (hw : w < (build fn).size)
    (h : Graph.ImmediatelyDominates (NumberEdge fn (build fn)) 0 v w) :
    Graph.ImmediatelyDominates fn.Edge r ((build fn).vertex v) ((build fn).vertex w) := by
  obtain ⟨hg, -⟩ := grown_build hclosed hr
  refine ⟨(dominates_vertex_iff hclosed hr hv hw).mp h.dominates,
    fun heq => h.ne (hg.distinct v w hv hw heq), fun a ha hne => ?_⟩
  obtain ⟨x, hx, rfl⟩ := (reaches_vertex_iff hclosed hr).mp ha.reaches_left
  refine (dominates_vertex_iff hclosed hr hx hv).mp (h.last x ?_ fun heq => hne (heq ▸ rfl))
  exact (dominates_vertex_iff hclosed hr hx hw).mpr ha

end Spanning

namespace DominatorTree

/-! ### What the tree lists -/

/-- The number of the immediate dominator that the search finds for a vertex. -/
def found (fn : Func) (w : Nat) : Nat :=
  let t := Spanning.build fn
  let s := DominatorSearch.descend fn t (t.size - 1) (.start t.size)
  DominatorSearch.domOf
    (DominatorSearch.resolve s.forest (List.range' 1 (t.size - 1)) s.dom) w

theorem idoms_build : (build fn).idoms = (List.range' 1 ((Spanning.build fn).size - 1)).map
    fun w => ((Spanning.build fn).vertex w, (Spanning.build fn).vertex (found fn w)) := rfl

/-- **The search finds the immediate dominators.** -/
theorem immediatelyDominates_found (hclosed : fn.Closed) (hr : fn.root = some r) (hw0 : 0 < w)
    (hw : w < (Spanning.build fn).size) :
    Graph.ImmediatelyDominates (Spanning.NumberEdge fn (Spanning.build fn)) 0 (found fn w) w := by
  have N := Spanning.numbering_build hclosed hr
  have htaken := DominatorSearch.Taken.descend N
    (fun w hw v => Spanning.mem_preds_build hclosed hr hw) ((Spanning.build fn).size - 1)
    (by omega) DominatorSearch.taken_start
  exact DominatorSearch.resolve_spec N htaken.keyed ((Spanning.build fn).size - 1) 1 (by omega)
    Nat.one_pos htaken.dom_size (fun _ _ _ => by omega) (fun v hv hvn => htaken.relative N hv hvn)
    w hw0 hw

theorem found_lt (hclosed : fn.Closed) (hr : fn.root = some r) (hw0 : 0 < w)
    (hw : w < (Spanning.build fn).size) : found fn w < w := by
  have N := Spanning.numbering_build hclosed hr
  have h := immediatelyDominates_found hclosed hr hw0 hw
  exact lt_of_le_of_ne (N.le_of_ancestor (N.ancestor_of_dominates hw h.dominates) hw) h.ne

/-- An entry of the tree is a reachable block other than the entry of the function, with its
immediate dominator. -/
theorem mem_idoms_build (hclosed : fn.Closed) :
    (b, d) ∈ (build fn).idoms ↔ fn.ImmediatelyDominates d b := by
  rcases hr : fn.root with _ | r
  · have hsize : (Spanning.build fn).size = 0 := by simp [Spanning.build, hr, Spanning.size]
    simp [idoms_build, hsize, Func.ImmediatelyDominates, hr]
  obtain ⟨hg, -⟩ := Spanning.grown_build hclosed hr
  have himm : ∀ w, 0 < w → w < (Spanning.build fn).size → Graph.ImmediatelyDominates fn.Edge r
      ((Spanning.build fn).vertex (found fn w)) ((Spanning.build fn).vertex w) :=
    fun w hw0 hw => Spanning.immediatelyDominates_vertex hclosed hr
      ((found_lt hclosed hr hw0 hw).trans hw) hw (immediatelyDominates_found hclosed hr hw0 hw)
  simp only [idoms_build, List.mem_map, List.mem_range'_1, Prod.mk.injEq]
  constructor
  · rintro ⟨w, ⟨hw0, hw⟩, rfl, rfl⟩
    exact ⟨r, hr, himm w (by omega) (by omega)⟩
  · rintro ⟨r', hr', h⟩
    obtain rfl : r = r' := by simpa [hr] using hr'
    obtain ⟨w, hw, rfl⟩ := (Spanning.reaches_vertex_iff hclosed hr).mp h.dominates.reaches
    -- the entry has no strict dominator, so `w` is not its number
    have hw0 : 0 < w := by
      refine Nat.pos_of_ne_zero fun hw0 => h.ne ?_
      have hdom := h.dominates
      rw [hw0, hg.entry.2] at hdom ⊢
      exact hdom.eq_entry
    exact ⟨w, ⟨hw0, by omega⟩, rfl, (himm w hw0 hw).unique h⟩

/-! ### The answers of the tree -/

/-- **The tree knows the immediate dominator of every block.** -/
theorem idom?_build_eq_some_iff (hclosed : fn.Closed) (hb : b.func = fn.serial) :
    (build fn).idom? b.index = some d ↔ fn.ImmediatelyDominates d b := by
  have hown : ∀ x e, (x, e) ∈ (build fn).idoms → x.func = fn.serial := fun x e hx => by
    obtain ⟨r, hr, h⟩ := (mem_idoms_build hclosed).mp hx
    exact Func.func_of_owns (hclosed.owns_of_reaches ⟨r, hr, h.dominates.reaches⟩)
  rw [← mem_idoms_build hclosed, idom?, Option.map_eq_some_iff]
  constructor
  · rintro ⟨⟨x, e⟩, hfind, rfl⟩
    have hmem := List.mem_of_find?_eq_some hfind
    have hidx : x.index = b.index := by simpa using List.find?_some hfind
    rwa [Func.eq_of_index_eq (hown x e hmem) hb hidx] at hmem
  · intro hmem
    have hsome : ((build fn).idoms.find? fun e => e.1.index = b.index).isSome :=
      List.find?_isSome.mpr ⟨_, hmem, by simp⟩
    obtain ⟨⟨x, e⟩, hfind⟩ := Option.isSome_iff_exists.mp hsome
    have hmem' := List.mem_of_find?_eq_some hfind
    have hidx : x.index = b.index := by simpa using List.find?_some hfind
    obtain rfl := Func.eq_of_index_eq (hown x e hmem') hb hidx
    obtain ⟨r, hr, h⟩ := (mem_idoms_build hclosed).mp hmem
    obtain ⟨r', hr', h'⟩ := (mem_idoms_build hclosed).mp hmem'
    obtain rfl : r = r' := by simpa [hr] using hr'
    exact ⟨_, hfind, h'.unique h⟩

/-- **The blocks with an immediate dominator** are those that the entry reaches, but for the entry
itself. -/
theorem isSome_idom?_build_iff (hclosed : fn.Closed) (hb : b.func = fn.serial) :
    ((build fn).idom? b.index).isSome ↔ fn.Reaches b ∧ fn.root ≠ some b := by
  rw [Option.isSome_iff_exists]
  simp only [idom?_build_eq_some_iff hclosed hb]
  constructor
  · rintro ⟨d, r, hr, h⟩
    refine ⟨⟨r, hr, h.dominates.reaches⟩, fun hroot => h.ne ?_⟩
    obtain rfl : r = b := by simpa [hr] using hroot
    exact h.dominates.eq_entry
  · rintro ⟨⟨r, hr, hreach⟩, hne⟩
    obtain ⟨hg, -⟩ := Spanning.grown_build hclosed hr
    obtain ⟨w, hw, rfl⟩ := (Spanning.reaches_vertex_iff hclosed hr).mp hreach
    have hw0 : 0 < w := by
      refine Nat.pos_of_ne_zero fun hw0 => hne ?_
      rw [hw0, hg.entry.2, hr]
    exact ⟨_, r, hr, Spanning.immediatelyDominates_vertex hclosed hr
      ((found_lt hclosed hr hw0 hw).trans hw) hw (immediatelyDominates_found hclosed hr hw0 hw)⟩

theorem reachable_build_iff (hclosed : fn.Closed) (hb : b.func = fn.serial) :
    (build fn).reachable b = true ↔ fn.Reaches b := by
  have hroot : (build fn).root = fn.root := rfl
  rw [reachable, Bool.or_eq_true, isSome_idom?_build_iff hclosed hb, hroot, decide_eq_true_eq]
  constructor
  · rintro (h | h)
    · exact h.1
    · exact ⟨b, h, .refl⟩
  · intro h
    by_cases hne : fn.root = some b
    · exact Or.inr hne
    · exact Or.inl ⟨h, hne⟩

/-- Walking up the tree meets the dominators of a block; the numbers go down on the way. -/
theorem above_build_iff (hclosed : fn.Closed) (hr : fn.root = some r) :
    ∀ (fuel w : Nat), w < (Spanning.build fn).size → w < fuel →
      ((build fn).above a fuel ((Spanning.build fn).vertex w) = true ↔
        Graph.Dominates fn.Edge r a ((Spanning.build fn).vertex w)) := by
  obtain ⟨hg, -⟩ := Spanning.grown_build hclosed hr
  intro fuel
  induction fuel with
  | zero => exact fun w _ hlt => absurd hlt (Nat.not_lt_zero w)
  | succ fuel ih =>
    intro w hw hlt
    have hfunc := Func.func_of_owns (hg.owned w hw)
    rw [above, Bool.or_eq_true, decide_eq_true_eq]
    rcases Nat.eq_zero_or_pos w with rfl | hw0
    · have hnone : (build fn).idom? ((Spanning.build fn).vertex 0).index = none := by
        rw [← Option.not_isSome_iff_eq_none, isSome_idom?_build_iff hclosed hfunc]
        exact fun h => h.2 (by rw [hg.entry.2, hr])
      rw [hnone, hg.entry.2]
      simp only [Bool.false_eq_true, or_false]
      refine ⟨fun h => h ▸ .refl .refl, fun h => h.eq_entry.symm⟩
    · have himm := Spanning.immediatelyDominates_vertex hclosed hr
        ((found_lt hclosed hr hw0 hw).trans hw) hw (immediatelyDominates_found hclosed hr hw0 hw)
      have hsome := (idom?_build_eq_some_iff hclosed hfunc).mpr ⟨r, hr, himm⟩
      have hlt' := found_lt hclosed hr hw0 hw
      rw [hsome]
      simp only
      rw [ih _ (by omega) (by omega), himm.dominates_iff, eq_comm (a := a)]

/-- **The tree decides dominance.** -/
theorem dominates_build_iff (hclosed : fn.Closed) (hb : b.func = fn.serial) :
    (build fn).dominates a b = true ↔ fn.Dominates a b := by
  rw [dominates, Bool.and_eq_true, reachable_build_iff hclosed hb]
  have key : fn.Reaches b →
      ((build fn).above a ((build fn).idoms.length + 1) b = true ↔ fn.Dominates a b) := by
    rintro ⟨r, hr, hreach⟩
    obtain ⟨w, hw, rfl⟩ := (Spanning.reaches_vertex_iff hclosed hr).mp hreach
    have hlen : (build fn).idoms.length = (Spanning.build fn).size - 1 := by simp [idoms_build]
    rw [above_build_iff hclosed hr _ w hw (by omega), Func.Dominates]
    simp [hr]
  constructor
  · rintro ⟨hreach, habove⟩
    exact (key hreach).mp habove
  · intro h
    exact ⟨h.reaches, (key h.reaches).mpr h⟩

/-- **The children of a block** are the blocks that it dominates immediately. -/
theorem mem_children_build (hclosed : fn.Closed) (ha : a.func = fn.serial) :
    b ∈ (build fn).children a.index ↔ fn.ImmediatelyDominates a b := by
  simp only [children, List.mem_map, List.mem_filter, decide_eq_true_eq]
  constructor
  · rintro ⟨⟨x, e⟩, ⟨hmem, hidx⟩, rfl⟩
    have h := (mem_idoms_build hclosed).mp hmem
    obtain ⟨r, hr, hi⟩ := h
    have hown := hclosed.owns_of_reaches ⟨r, hr, hi.dominates.reaches_left⟩
    rw [← Func.eq_of_index_eq (Func.func_of_owns hown) ha hidx]
    exact ⟨r, hr, hi⟩
  · intro h
    exact ⟨(b, a), ⟨(mem_idoms_build hclosed).mpr h, rfl⟩, rfl⟩

/-- The children of a block are listed in the order of the numbering. -/
theorem children_build_sublist (i : Nat) :
    ((build fn).children i).Sublist (Spanning.build fn).order.toList := by
  have hmap : (build fn).idoms.map Prod.fst = (Spanning.build fn).order.toList.drop 1 := by
    rw [idoms_build, List.map_map]
    refine List.ext_getElem ?_ fun i hi hi' => ?_
    · simp [Spanning.size]
    · have hlt : i + 1 < (Spanning.build fn).order.size := by
        simp only [List.length_drop, Array.length_toList] at hi'
        omega
      simp [Spanning.vertex, Nat.add_comm 1 i, hlt]
  have hsub := (List.filter_sublist
    (p := fun e : BlockId × BlockId => decide (e.2.index = i)) (l := (build fn).idoms)).map Prod.fst
  rw [hmap] at hsub
  exact hsub.trans (List.drop_sublist 1 _)

theorem nodup_order_build (hclosed : fn.Closed) : (Spanning.build fn).order.toList.Nodup := by
  rcases hr : fn.root with _ | r
  · simp [Spanning.build, hr]
  obtain ⟨hg, -⟩ := Spanning.grown_build hclosed hr
  exact hg.nodup_order

/-- The numbering follows a depth-first search from the entry, if there is one. -/
theorem visits_order_build (hclosed : fn.Closed) :
    Visits fn.successors [] fn.root.toList (Spanning.build fn).order.toList := by
  rcases hr : fn.root with _ | r
  · simpa [Spanning.build, hr] using Visits.nil
  · exact Spanning.visits_build hclosed hr

/-- **The dominator tree represents dominance.** It decides whether a block dominates another; it
has an immediate dominator for exactly the reachable blocks other than the entry, and it is the
right one; and it lists under each block, without repetition and in the order of a depth-first
search, the blocks that the block dominates immediately. -/
theorem build_represents_dominance (hclosed : fn.Closed) :
    (∀ a b : BlockId, b.func = fn.serial →
      ((build fn).dominates a b = true ↔ fn.Dominates a b)) ∧
    (∀ b : BlockId, b.func = fn.serial →
      (((build fn).idom? b.index).isSome ↔ fn.Reaches b ∧ fn.root ≠ some b) ∧
      ∀ d, (build fn).idom? b.index = some d ↔ fn.ImmediatelyDominates d b) ∧
    ∃ order : List BlockId, Visits fn.successors [] fn.root.toList order ∧ order.Nodup ∧
      ∀ a : BlockId, a.func = fn.serial →
        ((build fn).children a.index).Nodup ∧ ((build fn).children a.index).Sublist order ∧
        ∀ b, b ∈ (build fn).children a.index ↔ fn.ImmediatelyDominates a b := by
  refine ⟨fun a b hb => dominates_build_iff hclosed hb, fun b hb => ⟨?_, fun d => ?_⟩,
    (Spanning.build fn).order.toList, visits_order_build hclosed, nodup_order_build hclosed,
    fun a ha => ⟨?_, children_build_sublist a.index, fun b => mem_children_build hclosed ha⟩⟩
  · exact isSome_idom?_build_iff hclosed hb
  · exact idom?_build_eq_some_iff hclosed hb
  · exact (nodup_order_build hclosed).sublist (children_build_sublist a.index)

/-- A loop with two entries, and a way out of it: the entry branches to both blocks of the loop. -/
def twoEntryLoop : Func where
  serial := 0
  name := "loop"
  root := some ⟨0, 0⟩
  params := [⟨0, 0, "c"⟩]
  values := #[⟨0, 0, "c"⟩]
  blocks := #[
    { label := "entry", term := some (.branch ⟨0, 0, "c"⟩ ⟨0, 1⟩ ⟨0, 2⟩) },
    { label := "left", preds := [⟨0, 0⟩, ⟨0, 2⟩], term := some (.jump ⟨0, 2⟩) },
    { label := "right", preds := [⟨0, 0⟩, ⟨0, 1⟩],
      term := some (.branch ⟨0, 0, "c"⟩ ⟨0, 1⟩ ⟨0, 3⟩) },
    { label := "exit", preds := [⟨0, 2⟩], term := some (.ret []) }]

/-- Neither block of the loop dominates the other, so both hang below the entry. -/
theorem twoEntryLoop_dominance :
    twoEntryLoop.Dominates ⟨0, 2⟩ ⟨0, 3⟩ ∧ ¬twoEntryLoop.Dominates ⟨0, 1⟩ ⟨0, 3⟩ ∧
      twoEntryLoop.ImmediatelyDominates ⟨0, 0⟩ ⟨0, 1⟩ ∧
      twoEntryLoop.ImmediatelyDominates ⟨0, 0⟩ ⟨0, 2⟩ := by
  obtain ⟨hdom, hidom, -⟩ := build_represents_dominance (by decide : twoEntryLoop.Closed)
  refine ⟨(hdom _ _ rfl).mp (by decide +kernel), fun h => ?_, ?_, ?_⟩
  · exact absurd ((hdom _ _ rfl).mpr h) (by decide +kernel)
  · exact ((hidom ⟨0, 1⟩ rfl).2 _).mp (by decide +kernel)
  · exact ((hidom ⟨0, 2⟩ rfl).2 _).mp (by decide +kernel)

end DominatorTree

end BranchFusion
