import BranchFusion.Proofs.Dominance.Tree
import BranchFusion.Proofs.PostOrder

/-!
# Post-order is the finishing order of a depth-first search

The recursive search is deterministic (`BranchFusion.Finishes.unique`), so there is one order in
which it is done with vertices, and the walk yields blocks in this order. Everything else about the
order can be read off the recursion. The vertex that the search started from is done last, and where
an edge leads to a vertex that was seen before, there are two cases: either that vertex is done
already, or it is on the path and reaches the start of the edge (`BranchFusion.Finishes.order`). So
an edge that is on no cycle leads to a vertex that is done earlier, and without cycles the reverse
of post-order is a topological order.

The functions that make a walk bound its steps beforehand. Here is a walk without bounds
(`BranchFusion.Walk.Yields` and `BranchFusion.Walk.Exhausts`); it is a finite derivation, so to have
one is to come to an end.
-/

namespace BranchFusion

open Relation

/-! ### The order of the recursive search -/

section Search

variable {α : Type} {next : α → List α} {seen after after' bs done done' : List α} {u v : α}

/-- **The recursive search is deterministic.** -/
theorem Finishes.unique (h : Finishes next seen bs after done)
    (h' : Finishes next seen bs after' done') : after = after' ∧ done = done' := by
  induction h generalizing after' done' with
  | nil => cases h'; exact ⟨rfl, rfl⟩
  | skip hb _ ih =>
    cases h' with
    | skip _ h' => exact ih h'
    | visit hnew _ _ => exact absurd hb hnew
  | visit hnew _ _ ih ih' =>
    cases h' with
    | skip hb _ => exact absurd hb hnew
    | visit _ h h' =>
      obtain ⟨rfl, rfl⟩ := ih h
      obtain ⟨rfl, rfl⟩ := ih' h'
      exact ⟨rfl, rfl⟩

/-- **Where an edge leads.** What a vertex that is done leads to was seen before the search, or is
done earlier, or reaches the vertex. -/
theorem Finishes.order (h : Finishes next seen bs after done) (hu : u ∈ done) (hv : v ∈ next u) :
    v ∈ seen ∨ [v, u].Sublist done ∨ ReflTransGen (fun x y => y ∈ next x) v u := by
  induction h with
  | nil => exact absurd hu List.not_mem_nil
  | skip _ _ ih => exact ih hu
  | @visit seen between after bs below beside b _ hbelow _ ih ih' =>
    have hbetween : v ∈ between → v ∈ seen ∨ v ∈ below ++ [b] := fun hv => by
      have := hbelow.mem_after.mp hv
      simp only [List.mem_append, List.mem_singleton] at this ⊢
      exact or_assoc.mp (or_right_comm.mp this)
    rcases List.mem_append.mp hu with hu | hu
    · -- the vertex `b` is still on the path, and reaches everything below it
      rcases ih hu with hv | hv | hreach
      · rcases List.mem_append.mp hv with hv | hv
        · exact Or.inl hv
        · obtain ⟨s, hs, hreach⟩ := hbelow.reached u hu
          rw [List.mem_singleton.mp hv]
          exact Or.inr (Or.inr (.head hs hreach))
      · exact Or.inr (Or.inl (hv.trans (List.sublist_append_left _ _)))
      · exact Or.inr (Or.inr hreach)
    rcases List.mem_cons.mp hu with rfl | hu
    · rcases hbetween (hbelow.seen_of_mem v hv) with hv | hv
      · exact Or.inl hv
      · rcases List.mem_append.mp hv with hv | hv
        · exact Or.inr (Or.inl ((List.singleton_sublist.mpr hv).append
            (List.singleton_sublist.mpr List.mem_cons_self)))
        · exact Or.inr (Or.inr (List.mem_singleton.mp hv ▸ .refl))
    · rcases ih' hu with hv | hv | hreach
      · refine (hbetween hv).imp_right fun hv => Or.inl ?_
        rw [List.append_cons]
        exact (List.singleton_sublist.mpr hv).append (List.singleton_sublist.mpr hu)
      · exact Or.inr (Or.inl ((hv.cons b).trans (List.sublist_append_right _ _)))
      · exact Or.inr (Or.inr hreach)

/-- The vertex that the search starts from is done last. -/
theorem Finishes.getLast? (h : Finishes next [] [u] after done) : done.getLast? = some u := by
  cases h with
  | skip hu _ => exact absurd hu List.not_mem_nil
  | visit _ _ hbeside =>
    cases hbeside
    simp

end Search

/-! ### Walks without bounds -/

namespace Walk

variable {fn : Func} {w : Walk} {r : Option (BlockId × Walk)} {bs bs' : List BlockId}

/-- The first successor of a block that was not seen. -/
def unseen? (fn : Func) (w : Walk) (b : BlockId) : Option BlockId :=
  (fn.successors b).find? fun s => !w.seen.contains s.index

/-- **One step without a bound**: the path grows until its last block leads to nothing new, and
loses this block. -/
inductive Yields (fn : Func) : Walk → Option (BlockId × Walk) → Prop
  | ended {w : Walk} (hpath : w.path = []) : Yields fn w none
  | grow {w : Walk} {b s : BlockId} {path : List BlockId} {r : Option (BlockId × Walk)}
    (hpath : w.path = b :: path) (hnew : w.unseen? fn b = some s)
    (h : Yields fn ⟨s :: b :: path, s.index :: w.seen⟩ r) : Yields fn w r
  | finish {w : Walk} {b : BlockId} {path : List BlockId} (hpath : w.path = b :: path)
    (hnone : w.unseen? fn b = none) : Yields fn w (some (b, { w with path }))

/-- **All steps**: the blocks that are yielded before the walk ends. -/
inductive Exhausts (fn : Func) : Walk → List BlockId → Prop
  | ended {w : Walk} (h : Yields fn w none) : Exhausts fn w []
  | next {w w' : Walk} {b : BlockId} {bs : List BlockId} (h : Yields fn w (some (b, w')))
    (h' : Exhausts fn w' bs) : Exhausts fn w (b :: bs)

/-- A bounded step that yields a block is a step. -/
theorem yields_of_next? : ∀ (fuel : Nat) {w w' : Walk} {b : BlockId},
    w.next? fn fuel = some (b, w') → Yields fn w (some (b, w'))
  | 0, _, _, _, h => absurd h (by simp [next?])
  | fuel + 1, w, w', b, h => by
    rw [next?] at h
    split at h
    · exact absurd h (by simp)
    · next c path hpath =>
      split at h
      · next s hnew => exact .grow hpath hnew (yields_of_next? fuel h)
      · next hnone =>
        obtain ⟨rfl, rfl⟩ := Prod.mk.inj (Option.some.inj h)
        exact .finish hpath hnone

theorem Yields.unique {r' : Option (BlockId × Walk)} (h : Yields fn w r) (h' : Yields fn w r') :
    r = r' := by
  induction h generalizing r' with
  | ended hpath =>
    cases h' with
    | ended => rfl
    | grow hpath' => simp [hpath] at hpath'
    | finish hpath' => simp [hpath] at hpath'
  | grow hpath hnew _ ih =>
    cases h' with
    | ended hpath' => simp [hpath] at hpath'
    | grow hpath' hnew' h' =>
      obtain ⟨rfl, rfl⟩ := List.cons.inj (hpath.symm.trans hpath')
      obtain rfl := Option.some.inj (hnew.symm.trans hnew')
      exact ih h'
    | finish hpath' hnone =>
      obtain ⟨rfl, -⟩ := List.cons.inj (hpath.symm.trans hpath')
      simp [hnew] at hnone
  | finish hpath hnone =>
    cases h' with
    | ended hpath' => simp [hpath] at hpath'
    | grow hpath' hnew =>
      obtain ⟨rfl, -⟩ := List.cons.inj (hpath.symm.trans hpath')
      simp [hnone] at hnew
    | finish hpath' =>
      obtain ⟨rfl, rfl⟩ := List.cons.inj (hpath.symm.trans hpath')
      rfl

/-- A walk yields one list of blocks at most. -/
theorem Exhausts.unique (h : Exhausts fn w bs) (h' : Exhausts fn w bs') : bs = bs' := by
  induction h generalizing bs' with
  | ended h =>
    cases h' with
    | ended => rfl
    | next h' => exact absurd (h.unique h') (by simp)
  | next h _ ih =>
    cases h' with
    | ended h' => exact absurd (h.unique h') (by simp)
    | next h₁ h₁' =>
      obtain ⟨rfl, rfl⟩ := Prod.mk.inj (Option.some.inj (h.unique h₁))
      rw [ih h₁']

/-- **The bounds are never met**: a walk through a closed function comes to an end, and the bounded
walk yields the same blocks. -/
theorem Met.exhausts (hclosed : fn.Closed) : ∀ (fuel : Nat) {met : List BlockId} {w : Walk},
    Met fn met w → w.path.length + fn.blocks.size ≤ fuel + met.length →
      Exhausts fn w (w.take fn fuel)
  | 0, met, w, h, hfuel => by
    have hle := h.length_le
    exact .ended (.ended (List.eq_nil_of_length_eq_zero (by omega)))
  | fuel + 1, met, w, h, hfuel => by
    rw [Walk.take]
    by_cases hpath : w.path = []
    · have hstep : w.step? fn = none := by rw [step?, Walk.next?, hpath]
      rw [hstep]
      exact .ended (.ended hpath)
    · obtain ⟨b, w', met', heq, hmet, hless, -⟩ := h.next? hclosed (fn.known + 1) hpath
        (by rw [Func.known]; omega)
      have hstep : w.step? fn = some (b, w') := heq
      rw [hstep]
      exact .next (yields_of_next? _ heq) (hmet.exhausts hclosed fuel (by omega))

end Walk

/-! ### Post-order -/

namespace Func

variable {fn : Func} {r : BlockId}

/-- **Post-order is the finishing order of a depth-first search.** In a closed function with an
entry, the walk comes to an end, and yields each block that the entry reaches once, the entry last.
An edge between such blocks whose end does not reach its start leads to a block that comes earlier.
The order is the one in which the recursive search, which visits successors in their order, is done
with blocks. So reverse post-order starts with the entry, and where no block that the entry reaches
is on a cycle, it is a topological order. -/
theorem postOrder_is_finishing_order (hclosed : fn.Closed) (hr : fn.root = some r) :
    (∀ bs, Walk.Exhausts fn (Walk.start fn) bs ↔ bs = fn.postOrder) ∧
      (∀ b, b ∈ fn.postOrder ↔ fn.Reaches b) ∧ fn.postOrder.Nodup ∧
      fn.postOrder.getLast? = some r ∧
      (∀ u v, fn.Reaches u → fn.Edge u v → ¬ReflTransGen fn.Edge v u →
        [v, u].Sublist fn.postOrder) ∧
      (∀ done, (∃ after, Finishes fn.successors [] [r] after done) ↔ done = fn.postOrder) ∧
      fn.reversePostOrder.head? = some r ∧
      ((∀ b, fn.Reaches b → ¬TransGen fn.Edge b b) →
        ∀ u v, fn.Reaches u → fn.Edge u v → [u, v].Sublist fn.reversePostOrder) := by
  obtain ⟨after, hfinishes⟩ := finishes_postOrder hclosed hr
  have hwalk : Walk.Exhausts fn (Walk.start fn) fn.postOrder := by
    have hstart : Walk.start fn = ⟨[r], [r.index]⟩ := by rw [Walk.start, hr]
    rw [postOrder, Walk.rest, hstart]
    exact (Walk.met_start (hclosed.entry r hr)).exhausts hclosed _ (by simp [known]; omega)
  have hmem : ∀ {b}, b ∈ fn.postOrder ↔ fn.Reaches b := mem_postOrder_iff hclosed
  have hlast := hfinishes.getLast?
  have hedge : ∀ u v, fn.Reaches u → fn.Edge u v → ¬ReflTransGen fn.Edge v u →
      [v, u].Sublist fn.postOrder := fun u v hu he hback =>
    ((hfinishes.order (hmem.mpr hu) he).resolve_left List.not_mem_nil).resolve_right hback
  refine ⟨fun bs => ⟨fun h => h.unique hwalk, fun h => h ▸ hwalk⟩, fun b => hmem,
    nodup_postOrder hclosed, hlast, hedge, fun done => ?_, ?_, fun hacyclic u v hu he => ?_⟩
  · constructor
    · rintro ⟨_, h⟩
      exact (h.unique hfinishes).2
    · rintro rfl
      exact ⟨after, hfinishes⟩
  · rw [reversePostOrder, List.head?_reverse, hlast]
  · -- a way back would close a cycle with the edge
    refine (hedge u v hu he fun hback => hacyclic u hu ?_).reverse
    exact .head' he hback

/-- Where every edge leads to a higher rank, no block is on a cycle. -/
theorem Closed.acyclic_of_rank (hclosed : fn.Closed) (rank : BlockId → Nat)
    (hrank : ∀ a ∈ fn.ids, ∀ b ∈ fn.successors a, rank a < rank b) :
    ∀ b, fn.Reaches b → ¬TransGen fn.Edge b b := by
  have hedge : ∀ a b, fn.owns a → fn.Edge a b → rank a < rank b := fun a b ha he =>
    hrank a (mem_ids.mpr ha) b he
  have hless : ∀ a b, fn.owns a → TransGen fn.Edge a b → rank a < rank b ∧ fn.owns b := by
    intro a b ha h
    induction h with
    | single he => exact ⟨hedge _ _ ha he, hclosed.edge _ _ ha he⟩
    | tail _ he ih => exact ⟨ih.1.trans (hedge _ _ ih.2 he), hclosed.edge _ _ ih.2 he⟩
  exact fun b hb h => absurd (hless b b (hclosed.owns_of_reaches hb) h).1 (Nat.lt_irrefl _)

/-- A switch with two cases for one block, and blocks that do not stand in the order in which they
are reached. -/
def crossroads : Func where
  serial := 0
  name := "crossroads"
  root := some ⟨0, 0⟩
  params := [⟨0, 0, "x"⟩]
  values := #[⟨0, 0, "x"⟩]
  blocks := #[
    { label := "entry"
      term := some (.switch ⟨0, 0, "x"⟩ ⟨0, 3⟩ [(0, ⟨0, 2⟩), (1, ⟨0, 1⟩), (2, ⟨0, 2⟩)]) },
    { label := "late", preds := [⟨0, 0⟩, ⟨0, 2⟩], term := some (.jump ⟨0, 3⟩) },
    { label := "early", preds := [⟨0, 0⟩, ⟨0, 0⟩], term := some (.jump ⟨0, 1⟩) },
    { label := "exit", preds := [⟨0, 0⟩, ⟨0, 1⟩], term := some (.ret []) }]

/-- In a loop with two entries the exit comes before the block that leads there, but the loop has no
order of its own. Without loops all edges go forward in reverse post-order. -/
theorem crossroads_finishing_order :
    DominatorTree.twoEntryLoop.postOrder = [⟨0, 3⟩, ⟨0, 2⟩, ⟨0, 1⟩, ⟨0, 0⟩] ∧
      [⟨0, 3⟩, ⟨0, 2⟩].Sublist DominatorTree.twoEntryLoop.postOrder ∧
      crossroads.reversePostOrder = [⟨0, 0⟩, ⟨0, 2⟩, ⟨0, 1⟩, ⟨0, 3⟩] ∧
      ∀ u v, crossroads.Reaches u → crossroads.Edge u v →
        [u, v].Sublist crossroads.reversePostOrder := by
  have hloop : DominatorTree.twoEntryLoop.Closed := by decide
  have hcross : crossroads.Closed := by decide
  obtain ⟨-, hmem, -, -, hedge, -⟩ := postOrder_is_finishing_order hloop rfl
  obtain ⟨-, -, -, -, -, -, -, hforward⟩ := postOrder_is_finishing_order hcross rfl
  refine ⟨by decide +kernel, hedge _ _ ((hmem _).mp (by decide +kernel)) ?_ fun hback => ?_,
    by decide +kernel, hforward ?_⟩
  · exact (by decide : (⟨0, 3⟩ : BlockId) ∈ DominatorTree.twoEntryLoop.successors ⟨0, 2⟩)
  · -- nothing leads on from the exit
    have hexit : DominatorTree.twoEntryLoop.successors ⟨0, 3⟩ = [] := by decide
    rcases hback.cases_head with heq | ⟨c, hc, -⟩
    · exact absurd heq (by decide)
    · rw [Edge, hexit] at hc
      exact absurd hc List.not_mem_nil
  · exact hcross.acyclic_of_rank (fun b => [0, 2, 1, 3].getD b.index 0) (by decide)

end Func

end BranchFusion
