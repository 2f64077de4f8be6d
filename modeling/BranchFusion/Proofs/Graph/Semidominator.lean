import BranchFusion.Proofs.Graph.Dominance
import Mathlib.Order.Nat
import Mathlib.Order.Lattice.Nat

/-!
# Semidominators

Dominators by way of a depth-first numbering. The vertices of a graph are the numbers below `n`, in
the order in which a depth-first search from `0` meets them, and `parent` is the tree of that
search. All that is used of the search is `BranchFusion.Graph.Numbering`: children come after their
parents, the descendants of a vertex are numbered in one run, and an edge to a greater number leads
to a descendant.

The *semidominator* of `w` (`BranchFusion.Graph.semi`) is the least vertex with a path to `w` whose
inner vertices are all greater than `w`. It is an ancestor of `w` that every strict dominator of `w`
is an ancestor of, and three theorems make it computable and useful:

* `BranchFusion.Graph.Numbering.semi_eq` gives the semidominator of `w` from those of greater
  vertices;
* `BranchFusion.Graph.Numbering.immediatelyDominates_semi` says when it is the immediate dominator:
  if no vertex between has a lesser semidominator;
* `BranchFusion.Graph.Numbering.immediatelyDominates_of_least` gives a vertex with the same
  immediate dominator otherwise.

The last two rest on one lemma, `BranchFusion.Graph.Numbering.exists_entry`: a path that stays above
`k` enters the tree path below `k` at a vertex that is less than all inner vertices before it.
-/

namespace BranchFusion

namespace Graph

open Relation

/-! ### Trees of parents -/

/-- `u` is an ancestor of `v`, or `v` itself, when `0` is the root. -/
inductive Ancestor (parent : Nat → Nat) (u : Nat) : Nat → Prop
  | refl : Ancestor parent u u
  | up {v : Nat} : 0 < v → Ancestor parent u (parent v) → Ancestor parent u v

variable {parent : Nat → Nat} {u v w x y z d k s n : Nat} {E : Nat → Nat → Prop}

theorem Ancestor.trans (h : Ancestor parent u v) (h' : Ancestor parent v w) :
    Ancestor parent u w := by
  induction h' with
  | refl => exact h
  | up hw _ ih => exact .up hw ih

/-- A proper ancestor of a vertex is an ancestor of its parent. -/
theorem Ancestor.parent_of_ne (h : Ancestor parent u v) (hne : u ≠ v) :
    0 < v ∧ Ancestor parent u (parent v) := by
  cases h with
  | refl => exact absurd rfl hne
  | up hv h => exact ⟨hv, h⟩

/-- Ancestors depend on the parents up to a vertex only. -/
theorem Ancestor.congr {parent' : Nat → Nat} (hlt : ∀ x, 0 < x → x ≤ v → parent x < x)
    (heq : ∀ x, x ≤ v → parent' x = parent x) (h : Ancestor parent u v) :
    Ancestor parent' u v := by
  induction h with
  | refl => exact .refl
  | @up x hx _ ih =>
    have hlt' := hlt x hx le_rfl
    refine .up hx ?_
    rw [heq x le_rfl]
    exact ih (fun y hy hyx => hlt y hy (by omega)) (fun y hyx => heq y (by omega))

/-- **Parents come first**: below `n`, every vertex but the root has a lesser parent. -/
def ParentsFirst (n : Nat) (parent : Nat → Nat) : Prop :=
  ∀ w, 0 < w → w < n → parent w < w

namespace ParentsFirst

theorem le_of_ancestor (hp : ParentsFirst n parent) (h : Ancestor parent u v) (hv : v < n) :
    u ≤ v := by
  induction h with
  | refl => exact le_rfl
  | @up v hv0 _ ih =>
    have := hp v hv0 hv
    exact (ih (by omega)).trans (by omega)

/-- The ancestors of a vertex form a chain. -/
theorem lt_or_ancestor (hp : ParentsFirst n parent) (hu : Ancestor parent u w)
    (hv : Ancestor parent v w) (hw : w < n) : u < v ∨ Ancestor parent v u := by
  induction hu with
  | refl => exact Or.inr hv
  | @up w hw0 hu ih =>
    rcases eq_or_ne v w with rfl | hne
    · have hlt := hp v hw0 hw
      have := hp.le_of_ancestor hu (by omega)
      exact Or.inl (by omega)
    · have hlt := hp w hw0 hw
      exact ih (hv.parent_of_ne hne).2 (by omega)

end ParentsFirst

/-- **A depth-first numbering** of a graph on the numbers below `n`, with the tree of the search. -/
structure Numbering (n : Nat) (E : Nat → Nat → Prop) (parent : Nat → Nat) : Prop where
  bounded : ∀ v w, E v w → v < n ∧ w < n
  parent_lt : ParentsFirst n parent
  parent_edge : ∀ w, 0 < w → w < n → E (parent w) w
  /-- The vertex numbered before `w` is its parent or another descendant of its parent. -/
  preorder : ∀ w, 0 < w → w < n → Ancestor parent (parent w) (w - 1)
  /-- An edge to a greater number leads to a descendant. -/
  forward : ∀ v w, E v w → v < w → Ancestor parent v w

namespace Numbering

theorem le_of_ancestor (N : Numbering n E parent) (h : Ancestor parent u v) (hv : v < n) :
    u ≤ v :=
  N.parent_lt.le_of_ancestor h hv

theorem ancestor_zero (N : Numbering n E parent) : ∀ v, v < n → Ancestor parent 0 v := by
  intro v
  induction v using Nat.strong_induction_on with
  | _ v ih =>
    intro hv
    rcases Nat.eq_zero_or_pos v with rfl | hv0
    · exact .refl
    · have hlt := N.parent_lt v hv0 hv
      exact .up hv0 (ih _ hlt (by omega))

/-- **The descendants of a vertex are numbered in one run.** -/
theorem interval (N : Numbering n E parent) (h : Ancestor parent u x) (hx : x < n) (huy : u ≤ y)
    (hyx : y ≤ x) : Ancestor parent u y := by
  obtain ⟨k, rfl⟩ := Nat.exists_eq_add_of_le hyx
  induction k with
  | zero => exact h
  | succ k ih =>
    refine ih ?_ (by omega) (by omega)
    rcases Nat.lt_or_ge u (y + k + 1) with hlt | hge
    · -- `u` is an ancestor of the parent, and the number before is a descendant of that
      obtain ⟨hpos, hp⟩ := h.parent_of_ne (by omega)
      exact hp.trans (N.preorder _ hpos hx)
    · omega

theorem ancestor_of_le (N : Numbering n E parent) (hu : Ancestor parent u w)
    (hv : Ancestor parent v w) (hw : w < n) (huv : u ≤ v) : Ancestor parent u v :=
  N.interval hu hw huv (N.le_of_ancestor hv hw)

/-- A tree path from `u` to `v` goes around what is less than `u` and around what is no ancestor of
`v`. -/
theorem around_of_ancestor (N : Numbering n E parent) (h : Ancestor parent u v) (hv : v < n)
    (hd : d < u ∨ ¬Ancestor parent d v) : Around E d u v := by
  induction h with
  | refl =>
    refine .refl ?_
    rcases hd with hd | hd
    · omega
    · rintro rfl
      exact hd .refl
  | @up v hv0 hp ih =>
    have hlt := N.parent_lt v hv0 hv
    have hup := N.le_of_ancestor hp (by omega)
    refine (ih (by omega) (hd.imp_right fun h h' => h (.up hv0 h'))).snoc
      (N.parent_edge v hv0 hv) ?_
    rcases hd with hd | hd
    · omega
    · rintro rfl
      exact hd .refl

theorem reaches (N : Numbering n E parent) (hv : v < n) : ReflTransGen E 0 v := by
  rcases Nat.eq_zero_or_pos v with rfl | hv0
  · exact .refl
  · refine (N.around_of_ancestor (d := n) (N.ancestor_zero v hv) hv (Or.inr fun h => ?_)).reaches
    exact absurd (N.le_of_ancestor h hv) (by omega)

/-- Dominators are ancestors. -/
theorem ancestor_of_dominates (N : Numbering n E parent) (hw : w < n)
    (h : Dominates E 0 d w) : Ancestor parent d w := by
  by_contra hd
  exact h.not_around (N.around_of_ancestor (N.ancestor_zero w hw) hw (Or.inr hd))

end Numbering

/-! ### Paths above a bound -/

/-- There is a path from `x` to `z`, of one edge at least, whose inner vertices are greater than
`k`. -/
inductive Above (E : Nat → Nat → Prop) (k : Nat) (z : Nat) : Nat → Prop
  | edge {x : Nat} : E x z → Above E k z x
  | step {x y : Nat} : E x y → k < y → Above E k z y → Above E k z x

theorem Above.mono (hk : k ≤ w) (h : Above E w z x) : Above E k z x := by
  induction h with
  | edge he => exact .edge he
  | step he hy _ ih => exact .step he (by omega) ih

theorem Above.trans (h : Above E k y x) (hy : k < y) (h' : Above E k z y) : Above E k z x := by
  induction h with
  | edge he => exact .step he hy h'
  | step he hx _ ih => exact .step he hx ih

theorem Above.around (h : Above E k z x) (hx : x ≠ d) (hz : z ≠ d) (hd : d ≤ k) :
    Around E d x z := by
  induction h with
  | edge he => exact (Around.refl hx).snoc he hz
  | @step x y he hy _ ih =>
    have hyd : y ≠ d := by omega
    exact ((Around.refl hx).snoc he hyd).trans (ih hyd)

/-- A path around `k` that starts below `k` and ends above it leaves the numbers below `k` for the
last time somewhere, and stays above from there on. -/
theorem Around.exists_above (h : Around E k x z) (hx : x < k) (hz : k < z) :
    ∃ y, y < k ∧ Above E k z y := by
  have key : z < k ∨ ∃ y, y < k ∧ Above E k z y := by
    refine h.induction (P := fun z => z < k ∨ ∃ y, y < k ∧ Above E k z y) (Or.inl hx) ?_
    rintro y z hy (hlt | ⟨x', hx', hp⟩) he hne
    · exact Or.inr ⟨y, hlt, .edge he⟩
    · rcases Nat.lt_or_gt_of_ne hne with hz' | hz'
      · exact Or.inl hz'
      · rcases Nat.lt_or_gt_of_ne hy.ne_target with hy' | hy'
        · exact Or.inr ⟨y, hy', .edge he⟩
        · exact Or.inr ⟨x', hx', hp.trans hy' (.edge he)⟩
  rcases key with hlt | hex
  · omega
  · exact hex

/-- **The semidominator** of `w`: the least vertex with a path to `w` whose inner vertices are
greater than `w`. -/
noncomputable def semi (E : Nat → Nat → Prop) (w : Nat) : Nat :=
  sInf {v | Above E w w v}

theorem semi_le (h : Above E w w v) : semi E w ≤ v := Nat.sInf_le h

namespace Numbering

theorem above_semi (N : Numbering n E parent) (hw0 : 0 < w) (hw : w < n) :
    Above E w w (semi E w) :=
  Nat.sInf_mem ⟨parent w, .edge (N.parent_edge w hw0 hw)⟩

theorem semi_lt (N : Numbering n E parent) (hw0 : 0 < w) (hw : w < n) : semi E w < w :=
  (semi_le (.edge (N.parent_edge w hw0 hw))).trans_lt (N.parent_lt w hw0 hw)

/-- A lesser vertex with a path to `w` above `w` is an ancestor of `w`. -/
theorem ancestor_of_above (N : Numbering n E parent) (h : Above E w w v) (hvw : v < w) :
    Ancestor parent v w := by
  cases h with
  | edge he => exact N.forward v w he hvw
  | @step _ y he hy _ =>
    have hvy : Ancestor parent v y := N.forward v y he (by omega)
    exact N.interval hvy (N.bounded v y he).2 (by omega) (by omega)

theorem ancestor_semi (N : Numbering n E parent) (hw0 : 0 < w) (hw : w < n) :
    Ancestor parent (semi E w) w :=
  N.ancestor_of_above (N.above_semi hw0 hw) (N.semi_lt hw0 hw)

/-! ### Computing semidominators -/

/-- From a vertex above `w` down the tree and on to `w`, all inner vertices are greater than `w`. -/
theorem above_of_ancestor (N : Numbering n E parent) (h : Ancestor parent u v) (hwu : w < u)
    (he : Above E w z v) (hv : v < n) : Above E w z u := by
  induction h with
  | refl => exact he
  | @up v hv0 hp ih =>
    have hlt := N.parent_lt v hv0 hv
    have hup := N.le_of_ancestor hp (by omega)
    exact ih (.step (N.parent_edge v hv0 hv) (by omega) he) (by omega)

/-- A path above `w` to `w` is a single edge, or passes a vertex `u` above `w` before which all
inner vertices are greater than `u`, and from which the tree leads to a predecessor of `w`. -/
theorem above_cases (N : Numbering n E parent) (h : Above E w w x) :
    E x w ∨ ∃ u v, w < u ∧ Above E u u x ∧ Ancestor parent u v ∧ E v w := by
  induction h with
  | edge he => exact Or.inl he
  | @step x y he hy _ ih =>
    right
    rcases ih with he' | ⟨u, v, hwu, hp, huv, he'⟩
    · exact ⟨y, y, hy, .edge he, .refl, he'⟩
    · -- the lesser of `y` and the vertex found on the rest of the path is the one
      rcases Nat.lt_trichotomy y u with hyu | rfl | hyu
      · exact ⟨y, v, hy, .edge he, (N.ancestor_of_above hp hyu).trans huv, he'⟩
      · exact ⟨y, v, hy, .edge he, huv, he'⟩
      · exact ⟨u, v, hwu, .step he hyu hp, huv, he'⟩

/-- What a predecessor `v` of `w` has to offer as a semidominator: itself, if it is less than `w`,
and otherwise the semidominators of its ancestors above `w`. -/
def Offers (E : Nat → Nat → Prop) (parent : Nat → Nat) (w v k : Nat) : Prop :=
  (v < w ∧ k = v) ∨ ∃ u, w < u ∧ Ancestor parent u v ∧ k = semi E u

theorem semi_le_of_offers (N : Numbering n E parent) (he : E v w) (h : Offers E parent w v k) :
    semi E w ≤ k := by
  have hv := (N.bounded v w he).1
  rcases h with ⟨-, rfl⟩ | ⟨u, hwu, huv, rfl⟩
  · exact semi_le (.edge he)
  · have hu : u < n := (N.le_of_ancestor huv hv).trans_lt hv
    have hsu := N.above_semi (by omega) hu
    exact semi_le ((hsu.mono hwu.le).trans hwu (N.above_of_ancestor huv hwu (.edge he) hv))

/-- The least offer of all predecessors is made by one of them. -/
theorem exists_offers_le (N : Numbering n E parent) (hw0 : 0 < w) (hw : w < n) :
    ∃ v k, E v w ∧ Offers E parent w v k ∧ k ≤ semi E w := by
  rcases N.above_cases (N.above_semi hw0 hw) with he | ⟨u, v, hwu, hp, huv, he⟩
  · exact ⟨semi E w, semi E w, he, Or.inl ⟨N.semi_lt hw0 hw, rfl⟩, le_rfl⟩
  · exact ⟨v, semi E u, he, Or.inr ⟨u, hwu, huv, rfl⟩, semi_le hp⟩

/-- **How semidominators are computed**: `k` is the semidominator of `w` if no predecessor offers
less, and one of them offers it. -/
theorem semi_eq (N : Numbering n E parent) (hw0 : 0 < w) (hw : w < n)
    (hle : ∀ v k', E v w → Offers E parent w v k' → k ≤ k')
    (hex : ∃ v, E v w ∧ Offers E parent w v k) : semi E w = k := by
  obtain ⟨v, he, hv⟩ := hex
  obtain ⟨v', k', he', hv', hk'⟩ := N.exists_offers_le hw0 hw
  exact le_antisymm (N.semi_le_of_offers he hv) ((hle v' k' he' hv').trans hk')

/-! ### From semidominators to dominators -/

/-- A strict dominator of `w` is an ancestor of its semidominator. -/
theorem ancestor_semi_of_dominates (N : Numbering n E parent) (hw0 : 0 < w) (hw : w < n)
    (h : Dominates E 0 d w) (hne : d ≠ w) : Ancestor parent d (semi E w) := by
  have hdw := N.ancestor_of_dominates hw h
  have hlt : d < w := lt_of_le_of_ne (N.le_of_ancestor hdw hw) hne
  have hs := N.semi_lt hw0 hw
  by_contra hd
  -- otherwise the tree leads to the semidominator around `d`, and a path above `w` from there on
  have hsd : semi E w ≠ d := by
    rintro rfl
    exact hd .refl
  have h1 : Around E d 0 (semi E w) :=
    N.around_of_ancestor (N.ancestor_zero _ (by omega)) (by omega) (Or.inr hd)
  exact h.not_around (h1.trans ((N.above_semi hw0 hw).around hsd (Ne.symm hne) hlt.le))

/-- **A path above `k` enters the tree path from `k` to `w` from above**: at a vertex `y` that is
less than all inner vertices before it. -/
theorem exists_entry (N : Numbering n E parent) (hw : w < n) (h : Above E k z x) (hz : k < z)
    (hkz : Ancestor parent k z) (hzw : Ancestor parent z w) :
    ∃ y, k < y ∧ Ancestor parent k y ∧ Ancestor parent y w ∧ Above E y y x := by
  induction h with
  | edge he => exact ⟨z, hz, hkz, hzw, .edge he⟩
  | @step x x' he hx' _ ih =>
    obtain ⟨y, hky, hanc, hyw, hp⟩ := ih
    have hyn : y < n := (N.le_of_ancestor hyw hw).trans_lt hw
    rcases Nat.lt_trichotomy x' y with hlt | rfl | hgt
    · -- `x'` lies on the tree path itself, further up
      have hx'y := N.ancestor_of_above hp hlt
      exact ⟨x', hx', N.ancestor_of_le hanc hx'y hyn hx'.le, hx'y.trans hyw, .edge he⟩
    · exact ⟨x', hx', hanc, hyw, .edge he⟩
    · exact ⟨y, hky, hanc, hyw, .step he hgt hp⟩

/-- If an ancestor `k` of `w` does not dominate `w`, then a vertex on the tree path between them has
a semidominator less than `k`. -/
theorem exists_semi_lt (N : Numbering n E parent) (hw : w < n) (hkw : Ancestor parent k w)
    (hne : k ≠ w) (h : ¬Dominates E 0 k w) :
    ∃ y, k < y ∧ Ancestor parent k y ∧ Ancestor parent y w ∧ semi E y < k := by
  have har := around_of_not_dominates (N.reaches hw) h
  have hkw' : k < w := lt_of_le_of_ne (N.le_of_ancestor hkw hw) hne
  -- a path around `k` leaves the numbers below `k` at `x` and enters the tree path at `y`
  obtain ⟨x, hx, hp⟩ := har.exists_above (by have := har.1; omega) hkw'
  obtain ⟨y, hky, hanc, hyw, hpy⟩ := N.exists_entry hw hp hkw' hkw .refl
  exact ⟨y, hky, hanc, hyw, (semi_le hpy).trans_lt hx⟩

/-- A dominator of `w` that is less than an ancestor `u` of `w` dominates `u`. -/
theorem dominates_ancestor (N : Numbering n E parent) (hw : w < n) (huw : Ancestor parent u w)
    (hdu : d < u) (h : Dominates E 0 d w) : Dominates E 0 d u := by
  have hu : u < n := (N.le_of_ancestor huw hw).trans_lt hw
  refine dominates_iff_not_around.mpr ⟨N.reaches hu, fun hc => h.not_around ?_⟩
  exact hc.trans (N.around_of_ancestor huw hw (Or.inl hdu))

/-- **When the semidominator dominates**: if no vertex between `w` and its semidominator has a
lesser semidominator, then the semidominator is the immediate dominator. -/
theorem immediatelyDominates_semi (N : Numbering n E parent) (hw0 : 0 < w) (hw : w < n)
    (hle : ∀ y, semi E w < y → Ancestor parent y w → semi E w ≤ semi E y) :
    ImmediatelyDominates E 0 (semi E w) w := by
  have hlt := N.semi_lt hw0 hw
  have hdom : Dominates E 0 (semi E w) w := by
    by_contra hc
    obtain ⟨y, hy, -, hyw, hsy⟩ := N.exists_semi_lt hw (N.ancestor_semi hw0 hw) (by omega) hc
    have := hle y hy hyw
    omega
  refine ⟨hdom, by omega, fun a ha hne => ?_⟩
  rcases eq_or_ne a (semi E w) with rfl | hne'
  · exact .refl (N.reaches (by omega))
  · have hanc := N.ancestor_semi_of_dominates hw0 hw ha hne
    have hle' := N.le_of_ancestor hanc (by omega)
    exact N.dominates_ancestor hw (N.ancestor_semi hw0 hw) (by omega) ha

/-- **When it does not**: a vertex of least semidominator between `w` and its semidominator has the
same immediate dominator as `w`. -/
theorem immediatelyDominates_of_least (N : Numbering n E parent) (hw0 : 0 < w) (hw : w < n)
    (hsu : semi E w < u) (huw : Ancestor parent u w)
    (hle : ∀ y, semi E w < y → Ancestor parent y w → semi E u ≤ semi E y)
    (hz : ImmediatelyDominates E 0 z u) : ImmediatelyDominates E 0 z w := by
  have hun : u ≤ w := N.le_of_ancestor huw hw
  have hzu := N.ancestor_of_dominates (by omega) hz.dominates
  have hzlt : z < u := lt_of_le_of_ne (N.le_of_ancestor hzu (by omega)) hz.ne
  have hzs : z ≤ semi E u :=
    N.le_of_ancestor (N.ancestor_semi_of_dominates (by omega) (by omega) hz.dominates hz.ne)
      ((N.semi_lt (by omega) (by omega)).trans (by omega))
  have hdom : Dominates E 0 z w := by
    by_contra hc
    obtain ⟨y, hzy, -, hyw, hsy⟩ := N.exists_semi_lt hw (hzu.trans huw) (by omega) hc
    -- by the choice of `u`, the vertex `y` is not below the semidominator of `w`
    have hys : y ≤ semi E w := by
      by_contra hlt
      have := hle y (by omega) hyw
      omega
    have hyu : Ancestor parent y u := N.ancestor_of_le hyw huw hw (by omega)
    have hy0 : 0 < y := by omega
    have hyn : y < n := by omega
    -- so `u` is reached around `z`: down to the semidominator of `y`, on to `y`, and down to `u`
    have h1 : Around E z 0 (semi E y) :=
      N.around_of_ancestor (N.ancestor_zero _ (by omega)) (by omega)
        (Or.inr fun h => absurd (N.le_of_ancestor h (by omega)) (by omega))
    have h2 : Around E z (semi E y) y :=
      (N.above_semi hy0 hyn).around (by omega) (by omega) (by omega)
    have h3 : Around E z y u := N.around_of_ancestor hyu (by omega) (Or.inl hzy)
    exact hz.dominates.not_around (h1.trans (h2.trans h3))
  refine ⟨hdom, by omega, fun a ha hne => ?_⟩
  have hanc := N.ancestor_semi_of_dominates hw0 hw ha hne
  have hale := N.le_of_ancestor hanc ((N.semi_lt hw0 hw).trans hw)
  exact hz.last a (N.dominates_ancestor hw huw (by omega) ha) (by omega)

end Numbering

end Graph

end BranchFusion
