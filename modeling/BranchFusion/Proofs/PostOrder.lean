import BranchFusion.Flow.PostOrder
import BranchFusion.Proofs.ControlFlow

/-!
# What a walk in post-order yields

The recursive depth-first search is a relation that tells, besides the vertices seen, in which order
vertices are done (`BranchFusion.Finishes`). A walk has no recursion. It keeps a path, and whenever
it comes back to a block it looks through all its successors again. What is left to do for a path is
to finish the successors of its last block, then that block, then the same for the rest of the path
(`BranchFusion.Completes`). Looking through successors again makes no difference to that, since
those in front of the first unseen one stay seen (`BranchFusion.Completes.push`).

So the blocks that a walk through a closed function yields are those that the recursive search is
done with, in the same order (`BranchFusion.Func.finishes_postOrder`); they are the blocks that the
entry reaches (`BranchFusion.Func.mem_postOrder_iff`), each once
(`BranchFusion.Func.nodup_postOrder`). The bounds on the walk are never met: the path grows once for
each block that is met, and no more blocks are met than there are.
-/

namespace BranchFusion

open Relation

/-! ### The recursive search -/

section Search

variable {α : Type}

/-- **Depth-first search**, as a relation between the vertices seen before, the vertices to visit,
the vertices seen after, and the vertices that were done in between, in this order. A vertex is done
once everything that it leads to was visited. -/
inductive Finishes (next : α → List α) : List α → List α → List α → List α → Prop
  | nil {seen : List α} : Finishes next seen [] seen []
  | skip {seen after bs done : List α} {b : α} :
      b ∈ seen → Finishes next seen bs after done → Finishes next seen (b :: bs) after done
  | visit {seen between after bs below beside : List α} {b : α} :
      b ∉ seen → Finishes next (seen ++ [b]) (next b) between below →
        Finishes next between bs after beside →
        Finishes next seen (b :: bs) after (below ++ b :: beside)

variable {next : α → List α} {seen after bs path done rest front back : List α} {a b s : α}

/-- What is seen in the end was seen before, or is done. -/
theorem Finishes.mem_after (h : Finishes next seen bs after done) :
    a ∈ after ↔ a ∈ seen ∨ a ∈ done := by
  induction h with
  | nil => simp
  | skip _ _ ih => exact ih
  | visit _ _ _ ih ih' =>
    rw [ih', ih]
    simp only [List.mem_append, List.mem_cons, List.not_mem_nil, or_false]
    tauto

theorem Finishes.seen_of_mem (h : Finishes next seen bs after done) : ∀ a ∈ bs, a ∈ after := by
  induction h with
  | nil => simp
  | skip hb h ih =>
    intro a ha
    rcases List.mem_cons.mp ha with rfl | ha
    · exact h.mem_after.mpr (Or.inl hb)
    · exact ih a ha
  | visit _ h h' _ ih' =>
    intro a ha
    rcases List.mem_cons.mp ha with rfl | ha
    · exact h'.mem_after.mpr (Or.inl (h.mem_after.mpr (by simp)))
    · exact ih' a ha

/-- What is done was not seen before, and nothing is done twice. -/
theorem Finishes.nodup (h : Finishes next seen bs after done) :
    done.Nodup ∧ ∀ a ∈ done, a ∉ seen := by
  induction h with
  | nil => simp
  | skip _ _ ih => exact ih
  | @visit seen between after bs below beside b hb h h' ih ih' =>
    have hbelow : ∀ a ∈ below, a ∉ seen ∧ a ≠ b := fun a ha => by
      simpa using ih.2 a ha
    have hbeside : ∀ a ∈ beside, a ∉ seen ∧ a ≠ b ∧ a ∉ below := fun a ha => by
      have hno := ih'.2 a ha
      rw [h.mem_after] at hno
      simpa [not_or, and_assoc] using hno
    constructor
    · refine List.nodup_append.mpr ⟨ih.1, List.nodup_cons.mpr ⟨fun hmem => ?_, ih'.1⟩, ?_⟩
      · exact (hbeside b hmem).2.1 rfl
      · rintro a ha c hc rfl
        rcases List.mem_cons.mp hc with rfl | hc
        · exact (hbelow a ha).2 rfl
        · exact (hbeside a hc).2.2 ha
    · intro a ha
      rcases List.mem_append.mp ha with ha | ha
      · exact (hbelow a ha).1
      rcases List.mem_cons.mp ha with rfl | ha
      · exact hb
      · exact (hbeside a ha).1

/-- What is done can be reached from what was to be visited. -/
theorem Finishes.reached (h : Finishes next seen bs after done) :
    ∀ a ∈ done, ∃ b ∈ bs, ReflTransGen (fun x y => y ∈ next x) b a := by
  induction h with
  | nil => simp
  | skip _ _ ih =>
    intro a ha
    obtain ⟨b, hb, hreach⟩ := ih a ha
    exact ⟨b, List.mem_cons_of_mem _ hb, hreach⟩
  | @visit _ _ _ _ _ _ b _ _ _ ih ih' =>
    intro a ha
    rcases List.mem_append.mp ha with ha | ha
    · obtain ⟨s, hs, hreach⟩ := ih a ha
      exact ⟨b, by simp, .head hs hreach⟩
    rcases List.mem_cons.mp ha with rfl | ha
    · exact ⟨a, by simp, .refl⟩
    · obtain ⟨c, hc, hreach⟩ := ih' a ha
      exact ⟨c, List.mem_cons_of_mem _ hc, hreach⟩

/-- What is done leads only to what is seen in the end. -/
theorem Finishes.followed (h : Finishes next seen bs after done) :
    ∀ a ∈ done, ∀ s ∈ next a, s ∈ after := by
  induction h with
  | nil => simp
  | skip _ _ ih => exact ih
  | visit _ h h' ih ih' =>
    intro a ha s hs
    rcases List.mem_append.mp ha with ha | ha
    · exact h'.mem_after.mpr (Or.inl (ih a ha s hs))
    rcases List.mem_cons.mp ha with rfl | ha
    · exact h'.mem_after.mpr (Or.inl (h.seen_of_mem s hs))
    · exact ih' a ha s hs

/-- Vertices that were seen make no difference. -/
theorem finishes_append_iff (hfront : ∀ a ∈ front, a ∈ seen) :
    Finishes next seen (front ++ bs) after done ↔ Finishes next seen bs after done := by
  induction front with
  | nil => rfl
  | cons c front ih =>
    have hc : c ∈ seen := hfront c (by simp)
    rw [← ih fun a ha => hfront a (List.mem_cons_of_mem c ha)]
    constructor
    · intro h
      cases h with
      | skip _ h => exact h
      | visit hnew _ _ => exact absurd hc hnew
    · exact .skip hc

/-- **What is left to do for a path**, with its last vertex in front: what the last vertex leads to
is visited, then the vertex is done, then the rest of the path. -/
inductive Completes (next : α → List α) : List α → List α → List α → Prop
  | nil {seen : List α} : Completes next seen [] []
  | cons {seen between path below rest : List α} {b : α} :
      Finishes next seen (next b) between below → Completes next between path rest →
        Completes next seen (b :: path) (below ++ b :: rest)

/-- A vertex is done when it leads to nothing new. -/
theorem Completes.pop (hnext : ∀ s ∈ next b, s ∈ seen) (h : Completes next seen path rest) :
    Completes next seen (b :: path) (b :: rest) := by
  have hdone : Finishes next seen (next b ++ []) seen [] := (finishes_append_iff hnext).mpr .nil
  rw [List.append_nil] at hdone
  exact .cons hdone h

/-- **The path may go on to the first new vertex.** What the last vertex leads to is visited from
the start again afterwards, and all of it up to the new vertex is skipped then. -/
theorem Completes.push (hnext : next b = front ++ s :: back) (hfront : ∀ a ∈ front, a ∈ seen)
    (hs : s ∉ seen) (h : Completes next (seen ++ [s]) (s :: b :: path) rest) :
    Completes next seen (b :: path) rest := by
  cases h with
  | @cons _ between _ below _ _ hbelow h =>
    cases h with
    | @cons _ after _ beside rest _ hbeside hrest =>
      have hseen : ∀ a ∈ front ++ [s], a ∈ between := by
        intro a ha
        refine hbelow.mem_after.mpr (Or.inl ?_)
        rcases List.mem_append.mp ha with ha | ha
        · exact List.mem_append_left _ (hfront a ha)
        · exact List.mem_append_right _ ha
      have hback : Finishes next between back after beside := by
        rw [hnext, List.append_cons] at hbeside
        exact (finishes_append_iff hseen).mp hbeside
      have hall : Finishes next seen (next b) after (below ++ s :: beside) := by
        rw [hnext]
        exact (finishes_append_iff hfront).mpr (.visit hs hbelow hback)
      have hout : below ++ s :: (beside ++ b :: rest) = (below ++ s :: beside) ++ b :: rest := by
        simp
      rw [hout]
      exact .cons hall hrest

end Search

/-! ### The walk -/

namespace Walk

variable {fn : Func} {met : List BlockId} {w : Walk} {b s : BlockId} {path : List BlockId}

/-- **The invariant of a walk**: the indices seen are those of the blocks that have entered the path
so far, and these blocks are live and different. -/
structure Met (fn : Func) (met : List BlockId) (w : Walk) : Prop where
  nodup : met.Nodup
  owned : ∀ b ∈ met, fn.owns b
  seen : ∀ i, i ∈ w.seen ↔ ∃ b ∈ met, b.index = i
  path : ∀ b ∈ w.path, b ∈ met

/-- Live blocks are told apart by their index. -/
theorem Met.mem_seen_iff (h : Met fn met w) (hs : fn.owns s) : s.index ∈ w.seen ↔ s ∈ met := by
  rw [h.seen]
  constructor
  · rintro ⟨b, hb, heq⟩
    rwa [← Func.eq_of_index_eq (Func.func_of_owns (h.owned b hb)) (Func.func_of_owns hs) heq]
  · exact fun hmem => ⟨s, hmem, rfl⟩

theorem Met.length_le (h : Met fn met w) : met.length ≤ fn.blocks.size := by
  simpa using (Func.subperm_index h.nodup h.owned).length_le

/-- A walk starts with the entry on its path. -/
theorem met_start (hb : fn.owns b) : Met fn [b] ⟨[b], [b.index]⟩ := by
  refine ⟨List.nodup_singleton b, fun c hc => ?_, fun i => ?_, fun c hc => hc⟩
  · rwa [List.mem_singleton.mp hc]
  · simp [eq_comm]

/-- The path goes on to a new block. -/
theorem Met.push (h : Met fn met w) (hs : fn.owns s) (hnew : s ∉ met) :
    Met fn (met ++ [s]) ⟨s :: w.path, s.index :: w.seen⟩ := by
  constructor
  case nodup =>
    refine List.nodup_append.mpr ⟨h.nodup, List.nodup_singleton s, ?_⟩
    rintro a ha c hc rfl
    exact hnew (List.mem_singleton.mp hc ▸ ha)
  case owned =>
    intro b hb
    rcases List.mem_append.mp hb with hb | hb
    · exact h.owned b hb
    · exact List.mem_singleton.mp hb ▸ hs
  case seen =>
    intro i
    rw [List.mem_cons, h.seen]
    simp only [List.mem_append, List.mem_singleton, or_and_right, exists_or, exists_eq_left]
    rw [or_comm, eq_comm]
  case path =>
    intro b hb
    rcases List.mem_cons.mp hb with rfl | hb
    · simp
    · exact List.mem_append_left _ (h.path b hb)

/-- The path loses its last block. -/
theorem Met.pop (h : Met fn met w) (hpath : w.path = b :: path) : Met fn met { w with path } :=
  ⟨h.nodup, h.owned, h.seen, fun c hc => h.path c (hpath ▸ List.mem_cons_of_mem b hc)⟩

/-- **One step** of a walk that has not ended: it yields the block that the search is done with
next. -/
theorem Met.next? (hclosed : fn.Closed) : ∀ (fuel : Nat) {met : List BlockId} {w : Walk},
    Met fn met w → w.path ≠ [] → fn.blocks.size < fuel + met.length →
      ∃ b w' met', w.next? fn fuel = some (b, w') ∧ Met fn met' w' ∧
        w'.path.length + met.length < w.path.length + met'.length ∧
        ∀ rest, Completes fn.successors met' w'.path rest →
          Completes fn.successors met w.path (b :: rest)
  | 0, met, w, h, _, hfuel => absurd h.length_le (by omega)
  | fuel + 1, met, w, h, hpath, hfuel => by
    obtain ⟨b, path, hbp⟩ := List.exists_cons_of_ne_nil hpath
    have hb : fn.owns b := h.owned b (h.path b (by simp [hbp]))
    have hfound : ∀ s ∈ fn.successors b, (!w.seen.contains s.index) = true ↔ s ∉ met := by
      intro s hs
      simp [h.mem_seen_iff (hclosed.edge b s hb hs)]
    rw [Walk.next?, hbp]
    simp only
    split
    · -- the search goes on with the path that has the new block
      next s hfind =>
      obtain ⟨hnew, front, back, hsplit, hfront⟩ := List.find?_eq_some_iff_append.mp hfind
      have hmem : ∀ a ∈ front ++ s :: back, a ∈ fn.successors b := fun a ha => hsplit ▸ ha
      have hs := (hfound s (hmem s (by simp))).mp hnew
      obtain ⟨c, w', met', heq, hmet, hless, hrest⟩ := Met.next? hclosed fuel
        (h.push (hclosed.edge b s hb (hmem s (by simp))) hs) (by simp)
        (by rw [List.length_append, List.length_singleton]; omega)
      rw [hbp] at heq hless hrest
      refine ⟨c, w', met', heq, hmet, ?_, fun rest hc => ?_⟩
      · simp only [List.length_append, List.length_cons, List.length_nil] at hless ⊢
        omega
      · refine Completes.push hsplit (fun a ha => ?_) hs (hrest rest hc)
        by_contra hout
        have := hfront a ha
        rw [(hfound a (hmem a (by simp [ha]))).mpr hout] at this
        exact absurd this (by simp)
    · next hfind =>
      refine ⟨b, { w with path }, met, rfl, h.pop hbp, ?_, fun rest hc => hc.pop fun s hs => ?_⟩
      · simp
      · by_contra hout
        exact List.find?_eq_none.mp hfind s hs ((hfound s hs).mpr hout)

/-- **A whole walk** yields what is left to do for its path. -/
theorem Met.take (hclosed : fn.Closed) : ∀ (fuel : Nat) {met : List BlockId} {w : Walk},
    Met fn met w → w.path.length + fn.blocks.size ≤ fuel + met.length →
      Completes fn.successors met w.path (w.take fn fuel)
  | 0, met, w, h, hfuel => by
    have hle := h.length_le
    have hpath : w.path = [] := List.eq_nil_of_length_eq_zero (by omega)
    rw [hpath]
    exact .nil
  | fuel + 1, met, w, h, hfuel => by
    rw [Walk.take]
    by_cases hpath : w.path = []
    · have hstep : w.step? fn = none := by rw [step?, Walk.next?, hpath]
      rw [hstep, hpath]
      exact .nil
    · obtain ⟨b, w', met', heq, hmet, hless, hrest⟩ := h.next? hclosed (fn.known + 1) hpath
        (by rw [Func.known]; omega)
      have hstep : w.step? fn = some (b, w') := heq
      rw [hstep]
      exact hrest _ (hmet.take hclosed fuel (by omega))

end Walk

/-! ### Post-order -/

namespace Func

variable {fn : Func} {b r : BlockId}

/-- **The walk is done with blocks in the order in which the recursive search is.** -/
theorem finishes_postOrder (hclosed : fn.Closed) (hr : fn.root = some r) :
    ∃ after, Finishes fn.successors [] [r] after fn.postOrder := by
  have hstart : Walk.start fn = ⟨[r], [r.index]⟩ := by rw [Walk.start, hr]
  have hmet := Walk.met_start (hclosed.entry r hr)
  have hwalk : Completes fn.successors [r] [r] fn.postOrder := by
    rw [postOrder, hstart, Walk.rest]
    exact hmet.take hclosed (fn.known + 1) (by simp [known]; omega)
  generalize fn.postOrder = order at hwalk ⊢
  cases hwalk with
  | @cons _ after _ below _ _ hbelow hrest =>
    cases hrest
    exact ⟨after, .visit (by simp) hbelow .nil⟩

/-- **Post-order lists the blocks that the entry reaches.** -/
theorem mem_postOrder_iff (hclosed : fn.Closed) : b ∈ fn.postOrder ↔ fn.Reaches b := by
  cases hr : fn.root with
  | none =>
    have hnil : fn.postOrder = [] := by simp [postOrder, Walk.start, hr, Walk.rest, Walk.take,
      Walk.step?, Walk.next?]
    simp [hnil, Reaches, hr]
  | some r =>
    obtain ⟨after, h⟩ := finishes_postOrder hclosed hr
    constructor
    · intro hb
      obtain ⟨a, ha, hreach⟩ := h.reached b hb
      rw [List.mem_singleton.mp ha] at hreach
      exact ⟨r, hr, hreach⟩
    · have hdone : ∀ a, a ∈ after ↔ a ∈ fn.postOrder := fun a => by simpa using h.mem_after
      refine fun hb => hb.induction (fun r' hr' => ?_) fun a c ha he => ?_
      · obtain rfl : r = r' := by simpa [hr] using hr'
        exact (hdone r).mp (h.seen_of_mem r (by simp))
      · exact (hdone c).mp (h.followed a ha c he)

/-- Post-order lists no block twice. -/
theorem nodup_postOrder (hclosed : fn.Closed) : fn.postOrder.Nodup := by
  cases hr : fn.root with
  | none => simp [postOrder, Walk.start, hr, Walk.rest, Walk.take, Walk.step?, Walk.next?]
  | some r =>
    obtain ⟨after, h⟩ := finishes_postOrder hclosed hr
    exact h.nodup.1

end Func

end BranchFusion
