import BranchFusion.Flow.Reach
import BranchFusion.Proofs.ControlFlow
import Mathlib.Data.List.Perm.Subperm

/-!
# Spreading reaches what can be reached

The search for reachable blocks works on indices. It is right whenever the indices are bounded and
it may take one more step than there are (`BranchFusion.mem_spread_iff`): each index enters the
work at most once, so the indices in the work and those not seen yet never become more. In a closed
function the indices it finds are those of the blocks that the entry reaches
(`BranchFusion.Func.mem_reached_iff`).
-/

namespace BranchFusion

open Relation

/-- A list without its duplicates has none. -/
theorem nodup_eraseDups {α : Type} [DecidableEq α] : ∀ l : List α, l.eraseDups.Nodup
  | [] => by simp
  | a :: l => by
    rw [List.eraseDups_cons]
    refine List.nodup_cons.mpr ⟨fun ha => ?_, nodup_eraseDups (l.filter fun b => !b == a)⟩
    have hmem := List.mem_eraseDups.mp ha
    simp at hmem
termination_by l => l.length
decreasing_by
  have hlen := List.length_filter_le (fun b => !b == a) l
  simp only [List.length_cons]
  omega

section Spread

variable {next : Nat → List Nat} {n r : Nat}

/-- **The invariant of the search**: what was seen can be reached, what waits was seen, and what was
seen and does not wait leads only to what was seen. -/
structure Spreading (next : Nat → List Nat) (n r : Nat) (work seen : List Nat) : Prop where
  nodup : seen.Nodup
  start : r ∈ seen
  bounded : ∀ i ∈ seen, i < n
  reached : ∀ i ∈ seen, ReflTransGen (fun i j => j ∈ next i) r i
  waits : ∀ i ∈ work, i ∈ seen
  closed : ∀ i ∈ seen, i ∉ work → ∀ j ∈ next i, j ∈ seen

theorem Spreading.length_le {work seen : List Nat} (h : Spreading next n r work seen) :
    seen.length ≤ n := by
  have hsub : seen ⊆ List.range n := fun i hi => List.mem_range.mpr (h.bounded i hi)
  simpa using (h.nodup.subperm hsub).length_le

/-- Following the edges of one index. -/
theorem Spreading.step (hn : ∀ i, ∀ j ∈ next i, j < n) {i : Nat} {work seen : List Nat}
    (h : Spreading next n r (i :: work) seen) {new : List Nat} (hnodup : new.Nodup)
    (hnew : ∀ j, j ∈ new ↔ j ∈ next i ∧ j ∉ seen) :
    Spreading next n r (work ++ new) (seen ++ new) := by
  have hi : i ∈ seen := h.waits i (by simp)
  constructor
  case nodup =>
    refine List.nodup_append.mpr ⟨h.nodup, hnodup, ?_⟩
    rintro a ha b hb rfl
    exact ((hnew a).mp hb).2 ha
  case start => exact List.mem_append_left _ h.start
  case bounded =>
    intro j hj
    rcases List.mem_append.mp hj with hj | hj
    · exact h.bounded j hj
    · exact hn i j ((hnew j).mp hj).1
  case reached =>
    intro j hj
    rcases List.mem_append.mp hj with hj | hj
    · exact h.reached j hj
    · exact (h.reached i hi).tail ((hnew j).mp hj).1
  case waits =>
    intro j hj
    rcases List.mem_append.mp hj with hj | hj
    · exact List.mem_append_left _ (h.waits j (by simp [hj]))
    · exact List.mem_append_right _ hj
  case closed =>
    intro j hj hwait k hk
    rw [List.mem_append, not_or] at hwait
    have hj' : j ∈ seen := (List.mem_append.mp hj).resolve_right hwait.2
    by_cases hji : j = i
    · -- the edges of `i` were followed just now
      subst hji
      by_cases hks : k ∈ seen
      · exact List.mem_append_left _ hks
      · exact List.mem_append_right _ ((hnew k).mpr ⟨hk, hks⟩)
    · exact List.mem_append_left _ (h.closed j hj' (by simp [hji, hwait.1]) k hk)

theorem Spreading.spread (hn : ∀ i, ∀ j ∈ next i, j < n) :
    ∀ (fuel : Nat) {work seen : List Nat}, Spreading next n r work seen →
      work.length + n ≤ fuel + seen.length → Spreading next n r [] (spread next fuel work seen)
  | 0, work, seen, h, hfuel => by
    have hle := h.length_le
    obtain rfl : work = [] := List.eq_nil_of_length_eq_zero (by omega)
    exact h
  | fuel + 1, [], seen, h, _ => h
  | fuel + 1, i :: work, seen, h, hfuel => by
    rw [BranchFusion.spread]
    refine Spreading.spread hn fuel (h.step hn (nodup_eraseDups _) fun j => ?_) ?_
    · rw [List.mem_eraseDups]
      simp
    · simp only [List.length_append, List.length_cons] at hfuel ⊢
      omega

/-- **The search finds exactly what can be reached.** -/
theorem mem_spread_iff (hn : ∀ i, ∀ j ∈ next i, j < n) (hr : r < n) {fuel i : Nat}
    (hfuel : n ≤ fuel) :
    i ∈ spread next fuel [r] [r] ↔ ReflTransGen (fun i j => j ∈ next i) r i := by
  have hstart : Spreading next n r [r] [r] := by
    refine ⟨by simp, by simp, by simpa using hr, ?_, by simp, ?_⟩
    · intro j hj
      obtain rfl : j = r := by simpa using hj
      exact .refl
    · intro j hj hwait
      exact absurd hj hwait
  have hend := hstart.spread hn fuel (by simp; omega)
  refine ⟨hend.reached i, fun h => ?_⟩
  induction h with
  | refl => exact hend.start
  | tail _ he ih => exact hend.closed _ ih (by simp) _ he

end Spread

namespace Func

variable {α : Type} {fn : Func α} {b : BlockId}

theorem mem_liveSuccessors_iff {i j : Nat} (hclosed : fn.Closed) :
    j ∈ fn.liveSuccessors i ↔
      fn.owns ⟨fn.serial, i⟩ ∧ fn.Edge ⟨fn.serial, i⟩ ⟨fn.serial, j⟩ := by
  simp only [liveSuccessors]
  split
  · next b hb =>
    obtain ⟨hown, rfl⟩ := liveAt?_eq_some_iff.mp hb
    rw [mk_index (func_of_owns hown)]
    simp only [List.mem_map, List.mem_filter, hown, true_and]
    constructor
    · rintro ⟨s, ⟨hs, hso⟩, rfl⟩
      rwa [mk_index (func_of_owns hso)]
    · intro he
      exact ⟨_, ⟨he, hclosed.edge _ _ hown he⟩, rfl⟩
  · next hnone =>
    have hno : ¬fn.owns ⟨fn.serial, i⟩ := fun h => by
      rw [liveAt?_eq_some_iff.mpr ⟨h, rfl⟩] at hnone
      exact absurd hnone (by simp)
    simp [hno]

/-- **In a closed function, the indices found are those of the blocks that the entry reaches.** -/
theorem mem_reached_iff (hclosed : fn.Closed) (hb : b.func = fn.serial) :
    b.index ∈ fn.reached ↔ fn.Reaches b := by
  simp only [reached, Reaches]
  cases hr : fn.root with
  | none => simp
  | some r =>
    have hown := hclosed.entry r hr
    have hn : ∀ i, ∀ j ∈ fn.liveSuccessors i, j < fn.blocks.size := fun i j hj => by
      obtain ⟨ho, he⟩ := (mem_liveSuccessors_iff hclosed).mp hj
      exact index_lt_of_owns (hclosed.edge _ _ ho he)
    simp only [Option.some.injEq, exists_eq_left']
    rw [mem_spread_iff hn (index_lt_of_owns hown) (Nat.le_succ _)]
    constructor
    · intro h
      rw [← mk_index (func_of_owns hown), ← mk_index hb]
      exact h.lift (fun i => (⟨fn.serial, i⟩ : BlockId)) fun i j hij =>
        ((mem_liveSuccessors_iff hclosed).mp hij).2
    · intro h
      induction h with
      | refl => exact .refl
      | @tail x y hx he ih =>
        have hox := hclosed.owns_of_reaches ⟨r, hr, hx⟩
        have hoy := hclosed.edge _ _ hox he
        refine (ih (func_of_owns hox)).tail ((mem_liveSuccessors_iff hclosed).mpr ?_)
        rw [mk_index (func_of_owns hox), mk_index (func_of_owns hoy)]
        exact ⟨hox, he⟩

end Func

end BranchFusion
