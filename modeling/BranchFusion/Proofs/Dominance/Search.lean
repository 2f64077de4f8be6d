import BranchFusion.Dominance.Tree
import BranchFusion.Proofs.Dominance.PathMinima

/-!
# The search for dominators

What is known when the vertices greater than `m` have been taken
(`BranchFusion.DominatorSearch.Taken`): their keys are their semidominators, and each of them either
waits at its semidominator or has a *relative* dominator (`BranchFusion.Graph.Relative`), which is
its immediate dominator or a lesser vertex that shares it.

A vertex waits no longer than until the child of its semidominator on the way to it is taken: that
is the moment when everything between the two is linked and the semidominator itself is not
(`BranchFusion.DominatorSearch.Taken.visit`). So nothing waits in the end, and the last pass turns
relative dominators into immediate ones, from the least vertex up, because the vertex that shares
the dominator of another one is less than it (`BranchFusion.DominatorSearch.resolve_spec`).
-/

namespace BranchFusion

open BranchFusion.Graph

namespace Graph

/-- `d` is the semidominator of `v` and dominates it, or has the same immediate dominator as `v`, by
way of the least semidominator on the tree path. -/
def Relative (E : Nat → Nat → Prop) (parent : Nat → Nat) (v d : Nat) : Prop :=
  (d = semi E v ∧ ∀ y, semi E v < y → Ancestor parent y v → semi E v ≤ semi E y) ∨
    (semi E v < d ∧ Ancestor parent d v ∧ semi E d < semi E v ∧
      ∀ y, semi E v < y → Ancestor parent y v → semi E d ≤ semi E y)

end Graph

namespace DominatorSearch

variable {fn : Func} {t : Spanning} {E : Nat → Nat → Prop} {parent : Nat → Nat}
  {n m w v p k : Nat} {f : Forest} {s : DominatorSearch}

/-- The keys when the vertices greater than `m` have been taken: semidominators for these, and the
vertices themselves for the others. -/
def Keyed (E : Nat → Nat → Prop) (n m : Nat) (f : Forest) : Prop :=
  ∀ x, x < n → f.keyOf x = if m < x then semi E x else x

/-! ### Lowering a key -/

/-- What the forest answers for a predecessor of `w` is the least that the predecessor offers. -/
theorem keyOf_eval (N : Numbering n E parent) (h : f.Tracks parent n w)
    (hkeys : ∀ x, x < n → x ≠ w → f.keyOf x = if w < x then semi E x else x) (hv : v < n)
    (hne : v ≠ w) :
    Numbering.Offers E parent w v (f.keyOf (f.eval v).1) ∧
      ∀ k, Numbering.Offers E parent w v k → f.keyOf (f.eval v).1 ≤ k := by
  obtain ⟨-, -, hroot, hleast⟩ := h.eval N.parent_lt hv
  rcases Nat.lt_or_gt_of_ne hne with hlt | hgt
  · rw [hroot hlt.le, hkeys v hv hne, if_neg (by omega)]
    refine ⟨Or.inl ⟨hlt, rfl⟩, ?_⟩
    rintro k (⟨-, rfl⟩ | ⟨u, hwu, huv, -⟩)
    · exact le_rfl
    · have := N.le_of_ancestor huv hv
      omega
  · have hl := hleast hgt
    have hq : (f.eval v).1 < n := (N.le_of_ancestor hl.ancestor hv).trans_lt hv
    have habove := hl.above
    have hkq : f.keyOf (f.eval v).1 = semi E (f.eval v).1 := by
      rw [hkeys _ hq (by omega), if_pos habove]
    refine ⟨Or.inr ⟨_, habove, hl.ancestor, hkq⟩, ?_⟩
    rintro k (⟨hvw, -⟩ | ⟨u, hwu, huv, rfl⟩)
    · omega
    · have hun := (N.le_of_ancestor huv hv).trans_lt hv
      have hku : f.keyOf u = semi E u := by rw [hkeys u hun (by omega), if_pos hwu]
      exact (hl.least u hwu huv).trans hku.le

/-- One predecessor lowers the key of `w` to the key that evaluating the predecessor finds, if that
is less, and leaves the other keys. -/
theorem lower_cons (N : Numbering n E parent) (hw : w < n) (h : f.Tracks parent n w) (hv : v < n)
    (vs : List Nat) :
    ∃ f' : Forest, lower w f (v :: vs) = lower w f' vs ∧ f'.Tracks parent n w ∧
      (∀ x, x ≠ w → f'.keyOf x = f.keyOf x) ∧
      f'.keyOf w = min (f.keyOf w) (f.keyOf (f.eval v).1) := by
  obtain ⟨h1, hkey, -, -⟩ := h.eval N.parent_lt hv
  have hk1 : ∀ x, (f.eval v).2.keyOf x = f.keyOf x := fun x => by
    rw [Forest.keyOf, Forest.keyOf, hkey]
  have hw1 : w < (f.eval v).2.key.size := by rw [h1.key_size]; exact hw
  by_cases hlt : (f.eval v).2.keyOf (f.eval v).1 < (f.eval v).2.keyOf w
  · refine ⟨(f.eval v).2.setKey w ((f.eval v).2.keyOf (f.eval v).1), ?_, h1.setKey le_rfl, ?_, ?_⟩
    · exact congrArg (lower w · vs) (if_pos hlt)
    · intro x hx
      rw [Forest.keyOf_setKey hw1, if_neg hx, hk1]
    · rw [Forest.keyOf_setKey hw1, if_pos rfl, hk1]
      rw [hk1, hk1] at hlt
      exact (min_eq_right hlt.le).symm
  · refine ⟨(f.eval v).2, ?_, h1, fun x _ => hk1 x, ?_⟩
    · exact congrArg (lower w · vs) (if_neg hlt)
    · rw [hk1, hk1] at hlt
      rw [hk1, min_eq_left (not_lt.mp hlt)]

/-- **Lowering**: the key of `w` becomes the least of itself and what the given vertices offer, and
the other keys stay. -/
theorem lower_spec (N : Numbering n E parent) (hw : w < n) :
    ∀ (vs : List Nat) {f : Forest}, f.Tracks parent n w →
      (∀ x, x < n → x ≠ w → f.keyOf x = if w < x then semi E x else x) → (∀ v ∈ vs, v < n) →
      (lower w f vs).Tracks parent n w ∧
        (∀ x, x ≠ w → (lower w f vs).keyOf x = f.keyOf x) ∧
        (lower w f vs).keyOf w ≤ f.keyOf w ∧
        (∀ v ∈ vs, ∀ k, Numbering.Offers E parent w v k → (lower w f vs).keyOf w ≤ k) ∧
        ((lower w f vs).keyOf w = f.keyOf w ∨
          ∃ v ∈ vs, Numbering.Offers E parent w v ((lower w f vs).keyOf w))
  | [], f, h, _, _ => ⟨h, fun _ _ => rfl, le_rfl, by simp, Or.inl rfl⟩
  | v :: vs, f, h, hkeys, hvs => by
    have hv : v < n := hvs v (by simp)
    obtain ⟨-, -, hroot, -⟩ := h.eval N.parent_lt hv
    obtain ⟨f', hlower, h', hother, hkw⟩ := lower_cons N hw h hv vs
    obtain ⟨h3, hsame, hle, hoff, hattain⟩ := lower_spec N hw vs h'
      (fun x hx hne => by rw [hother x hne, hkeys x hx hne]) (fun u hu => hvs u (by simp [hu]))
    rw [hlower]
    rw [hkw] at hle hattain
    refine ⟨h3, fun x hx => by rw [hsame x hx, hother x hx], hle.trans (min_le_left _ _), ?_, ?_⟩
    · intro u hu k hk
      rcases List.mem_cons.mp hu with rfl | hu
      · rcases eq_or_ne u w with rfl | hne
        · -- a vertex offers nothing to itself
          rcases hk with ⟨hlt, -⟩ | ⟨x, hx, hxu, -⟩
          · omega
          · have := N.le_of_ancestor hxu hv
            omega
        · exact (hle.trans (min_le_right _ _)).trans ((keyOf_eval N h hkeys hv hne).2 k hk)
      · exact hoff u hu k hk
    · rcases hattain with heq | ⟨u, hu, hk⟩
      · rcases Nat.le_total (f.keyOf w) (f.keyOf (f.eval v).1) with hmin | hmin
        · exact Or.inl (by rw [heq, min_eq_left hmin])
        · rcases eq_or_ne v w with rfl | hne
          · exact Or.inl (by rw [heq, hroot le_rfl, min_self])
          · refine Or.inr ⟨v, by simp, ?_⟩
            rw [heq, min_eq_right hmin]
            exact (keyOf_eval N h hkeys hv hne).1
      · exact Or.inr ⟨u, by simp [hu], hk⟩

/-- The key that a vertex is lowered to, from itself and by all its predecessors, is its
semidominator. -/
theorem keyOf_lower (N : Numbering n E parent) (hw0 : 0 < w) (hw : w < n)
    (h : f.Tracks parent n w) (hkeys : Keyed E n w f) {vs : List Nat}
    (hvs : ∀ v, v ∈ vs ↔ E v w) :
    (lower w f vs).Tracks parent n w ∧
      ∀ x, x < n → (lower w f vs).keyOf x = if w ≤ x then semi E x else x := by
  obtain ⟨h1, hsame, -, hoff, hattain⟩ := lower_spec N hw vs h (fun x hx _ => hkeys x hx)
    (fun v hv => (N.bounded v w ((hvs v).mp hv)).1)
  -- the parent offers itself, so the key is not what it was
  have hparent : (lower w f vs).keyOf w ≤ parent w :=
    hoff (parent w) ((hvs _).mpr (N.parent_edge w hw0 hw)) _
      (Or.inl ⟨N.parent_lt w hw0 hw, rfl⟩)
  have hsemi : semi E w = (lower w f vs).keyOf w := by
    refine N.semi_eq hw0 hw (fun v k he hk => hoff v ((hvs v).mpr he) k hk) ?_
    rcases hattain with heq | ⟨v, hv, hk⟩
    · have hlt := N.parent_lt w hw0 hw
      rw [heq, hkeys w hw, if_neg (by omega)] at hparent
      omega
    · exact ⟨v, (hvs v).mp hv, hk⟩
  refine ⟨h1, fun x hx => ?_⟩
  rcases eq_or_ne x w with rfl | hne
  · rw [if_pos le_rfl, hsemi]
  · rw [hsame x hne, hkeys x hx]
    by_cases hlt : w < x
    · rw [if_pos hlt, if_pos hlt.le]
    · rw [if_neg hlt, if_neg (by omega)]

/-! ### Settling the vertices that wait -/

/-- The dominator of a vertex, as far as known. -/
def domOf (dom : Array Nat) (v : Nat) : Nat := dom[v]?.getD 0

/-- The vertices that wait at a vertex. -/
def waitingAt (waiting : Array (List Nat)) (p : Nat) : List Nat := waiting[p]?.getD []

/-- What is less than a vertex `w` and an ancestor of a vertex after it lies above `w` only up to
the parent of `w`. -/
theorem lt_iff_of_parent (N : Numbering n E parent) {y : Nat} (hm : m + 1 < n) (hmv : m < v)
    (hv : v < n) (hy : Ancestor parent y v) : parent (m + 1) < y ↔ m < y := by
  have hlt := N.parent_lt (m + 1) (by omega) hm
  refine ⟨fun hpy => ?_, fun hmy => by omega⟩
  by_contra hle
  have hyw : Ancestor parent y (m + 1) := N.interval hy hv (by omega) (by omega)
  have hyp := N.le_of_ancestor (hyw.parent_of_ne (by omega)).2 (by omega)
  omega

/-- The answer of the forest for a vertex whose semidominator is the parent of the vertex taken last
gives its relative dominator. -/
theorem relative_of_eval (N : Numbering n E parent) (hm : m + 1 < n) (h : f.Tracks parent n m)
    (hkeys : Keyed E n m f) (hmv : m < v) (hv : v < n) (hsemi : semi E v = parent (m + 1)) :
    Relative E parent v
      (if f.keyOf (f.eval v).1 < f.keyOf v then (f.eval v).1 else parent (m + 1)) := by
  obtain ⟨-, -, -, hleast⟩ := h.eval N.parent_lt hv
  have hl := hleast hmv
  have hbetween : ∀ y, Ancestor parent y v → (semi E v < y ↔ m < y) := fun y hy => by
    rw [hsemi]
    exact lt_iff_of_parent N hm hmv hv hy
  have hkey : ∀ y, m < y → Ancestor parent y v → f.keyOf y = semi E y := fun y hy hyv => by
    rw [hkeys y ((N.le_of_ancestor hyv hv).trans_lt hv), if_pos hy]
  rw [hkey _ hl.above hl.ancestor, hkey v hmv .refl]
  have hmin : ∀ y, semi E v < y → Ancestor parent y v → semi E (f.eval v).1 ≤ semi E y := by
    intro y hy hyv
    have hmy := (hbetween y hyv).mp hy
    have := hl.least y hmy hyv
    rwa [hkey _ hl.above hl.ancestor, hkey y hmy hyv] at this
  split
  · next hlt => exact Or.inr ⟨(hbetween _ hl.ancestor).mpr hl.above, hl.ancestor, hlt, hmin⟩
  · next hge =>
    exact Or.inl ⟨hsemi.symm, fun y hy hyv => (Nat.le_of_not_lt hge).trans (hmin y hy hyv)⟩

/-- **Settling**: the vertices that waited get relative dominators, and the others keep theirs. -/
theorem settle_spec (N : Numbering n E parent) (hm : m + 1 < n) :
    ∀ (vs : List Nat) {s : DominatorSearch}, s.forest.Tracks parent n m →
      Keyed E n m s.forest → s.dom.size = n →
      (∀ v ∈ vs, m < v ∧ v < n ∧ semi E v = parent (m + 1)) →
      (settle (parent (m + 1)) s vs).forest.Tracks parent n m ∧
        Keyed E n m (settle (parent (m + 1)) s vs).forest ∧
        (settle (parent (m + 1)) s vs).dom.size = n ∧
        (settle (parent (m + 1)) s vs).waiting = s.waiting ∧
        ∀ v, (v ∈ vs ∨ Relative E parent v (domOf s.dom v)) →
          Relative E parent v (domOf (settle (parent (m + 1)) s vs).dom v)
  | [], s, h, hkeys, hsize, _ =>
    ⟨h, hkeys, hsize, rfl, fun _ hv => hv.resolve_left List.not_mem_nil⟩
  | v :: vs, s, h, hkeys, hsize, hvs => by
    obtain ⟨hmv, hv, hsemi⟩ := hvs v (by simp)
    obtain ⟨h1, hkey, -, -⟩ := h.eval N.parent_lt hv
    have hk1 : ∀ x, (s.forest.eval v).2.keyOf x = s.forest.keyOf x := fun x => by
      rw [Forest.keyOf, Forest.keyOf, hkey]
    have hrel := relative_of_eval N hm h hkeys hmv hv hsemi
    -- `v` gets its dominator now; settling the others does not touch it again
    let d := if (s.forest.eval v).2.keyOf (s.forest.eval v).1 < (s.forest.eval v).2.keyOf v then
      (s.forest.eval v).1 else parent (m + 1)
    let s1 : DominatorSearch :=
      { s with forest := (s.forest.eval v).2, dom := s.dom.setIfInBounds v d }
    have hd : Relative E parent v d := by
      simp only [d, hk1]
      exact hrel
    obtain ⟨h2, hkeys2, hsize2, hwait2, hall⟩ := settle_spec N hm vs (s := s1) h1
      (fun x hx => by rw [hk1, hkeys x hx]) (by simpa [s1] using hsize)
      (fun u hu => hvs u (by simp [hu]))
    have hsettle : settle (parent (m + 1)) s (v :: vs) = settle (parent (m + 1)) s1 vs := rfl
    rw [hsettle]
    refine ⟨h2, hkeys2, hsize2, hwait2, fun u hu => hall u ?_⟩
    by_cases hmem : u ∈ vs
    · exact Or.inl hmem
    · refine Or.inr ?_
      rcases eq_or_ne u v with rfl | hne
      · have hds : domOf s1.dom u = d := by
          simp [domOf, s1, hsize, hv]
        rw [hds]
        exact hd
      · have hds : domOf s1.dom u = domOf s.dom u := by
          simp [domOf, s1, Array.getElem?_setIfInBounds_ne (Ne.symm hne)]
        rw [hds]
        simpa [hne, hmem] using hu

/-! ### Taking the vertices in descending order -/

/-- **What is known when the vertices greater than `m` have been taken.** -/
structure Taken (E : Nat → Nat → Prop) (parent : Nat → Nat) (n m : Nat) (s : DominatorSearch) :
    Prop where
  tracks : s.forest.Tracks parent n m
  keyed : Keyed E n m s.forest
  waiting_size : s.waiting.size = n
  dom_size : s.dom.size = n
  /-- A vertex waits at its semidominator, whose child on the way to it has not been taken. -/
  waits : ∀ p v, v ∈ waitingAt s.waiting p → m < v ∧ v < n ∧ semi E v = p ∧
    ∀ c, m < c → Ancestor parent c v → parent c ≠ p
  known : ∀ v, m < v → v < n →
    v ∈ waitingAt s.waiting (semi E v) ∨ Relative E parent v (domOf s.dom v)

theorem taken_start : Taken E parent n (n - 1) (.start n) := by
  refine ⟨.discrete, ?_, by simp [start], by simp [start], ?_, ?_⟩
  · intro x hx
    rw [if_neg (by omega)]
    simp [start, Forest.discrete, Forest.keyOf, hx]
  · intro p v hv
    simp only [start, waitingAt, Array.getElem?_replicate] at hv
    split at hv <;> simp at hv
  · intro v hv hvn
    omega

theorem waitingAt_modify (waiting : Array (List Nat)) (k p w : Nat) (hk : k < waiting.size) :
    waitingAt (waiting.modify k (· ++ [w])) p =
      if p = k then waitingAt waiting p ++ [w] else waitingAt waiting p := by
  rcases eq_or_ne p k with rfl | hne
  · simp only [waitingAt, Array.getElem?_modify, if_true]
    simp [hk]
  · simp [waitingAt, hne, Array.getElem?_modify, Ne.symm hne]

theorem waitingAt_clear (waiting : Array (List Nat)) (k p : Nat) :
    waitingAt (waiting.setIfInBounds k []) p = if p = k then [] else waitingAt waiting p := by
  rcases eq_or_ne p k with rfl | hne
  · by_cases hp : p < waiting.size <;> simp [waitingAt, hp]
  · simp [waitingAt, hne, Array.getElem?_setIfInBounds_ne (Ne.symm hne)]

/-- **Taking one vertex.** -/
theorem Taken.visit (N : Numbering n E t.parentOf) (hm : m + 1 < n)
    (hpreds : ∀ v, v ∈ t.preds fn (m + 1) ↔ E v (m + 1)) (h : Taken E t.parentOf n (m + 1) s) :
    Taken E t.parentOf n m (visit fn t s (m + 1)) := by
  obtain ⟨htracks, hkeyed⟩ := keyOf_lower N (by omega) hm h.tracks h.keyed hpreds
  let f := (lower (m + 1) s.forest (t.preds fn (m + 1))).link (m + 1) (t.parentOf (m + 1))
  have hf : f.Tracks t.parentOf n m := htracks.link N.parent_lt hm
  have hfk : Keyed E n m f := hkeyed
  have hkw : f.keyOf (m + 1) = semi E (m + 1) := by rw [hfk _ hm, if_pos (by omega)]
  have hslt := N.semi_lt (w := m + 1) (by omega) hm
  let waiting := s.waiting.modify (f.keyOf (m + 1)) (· ++ [m + 1])
  -- after the vertex has joined those that wait, who waits is still at their semidominator
  have hmem : ∀ p v, v ∈ waitingAt waiting p ↔
      v ∈ waitingAt s.waiting p ∨ (v = m + 1 ∧ p = semi E (m + 1)) := by
    intro p v
    rw [waitingAt_modify _ _ _ _ (by rw [hkw, h.waiting_size]; omega), hkw]
    rcases eq_or_ne p (semi E (m + 1)) with rfl | hne <;> simp [*]
  have hready : ∀ v ∈ waitingAt waiting (t.parentOf (m + 1)),
      m < v ∧ v < n ∧ semi E v = t.parentOf (m + 1) := by
    intro v hv
    rcases (hmem _ v).mp hv with hv | ⟨rfl, hp⟩
    · obtain ⟨hmv, hvn, hsemi, -⟩ := h.waits _ v hv
      exact ⟨by omega, hvn, hsemi⟩
    · exact ⟨by omega, hm, hp.symm⟩
  obtain ⟨h1, hk1, hd1, hw1, hall⟩ := settle_spec N hm (waitingAt waiting (t.parentOf (m + 1)))
    (s := { s with forest := f, waiting }) hf hfk h.dom_size hready
  have hvisit : DominatorSearch.visit fn t s (m + 1) =
      { settle (t.parentOf (m + 1)) { s with forest := f, waiting }
          (waitingAt waiting (t.parentOf (m + 1))) with
        waiting :=
          (settle (t.parentOf (m + 1)) { s with forest := f, waiting }
            (waitingAt waiting (t.parentOf (m + 1)))).waiting.setIfInBounds
              (t.parentOf (m + 1)) [] } :=
    rfl
  rw [hvisit, hw1]
  refine ⟨h1, hk1, by simpa [waiting] using h.waiting_size, hd1, ?_, ?_⟩
  · intro p v hv
    simp only [waitingAt_clear] at hv
    split at hv
    · simp at hv
    · -- the list at the parent of `m + 1` was cleared, so nothing left waits for that child
      next hp =>
      rcases (hmem p v).mp hv with hv | ⟨rfl, rfl⟩
      · obtain ⟨hmv, hvn, hsemi, hchild⟩ := h.waits p v hv
        refine ⟨by omega, hvn, hsemi, fun c hc hcv hpc => ?_⟩
        rcases eq_or_ne c (m + 1) with rfl | hne
        · exact hp hpc.symm
        · exact hchild c (by omega) hcv hpc
      · refine ⟨by omega, hm, rfl, fun c hc hcv hpc => ?_⟩
        obtain rfl : c = m + 1 := by
          have := N.le_of_ancestor hcv hm
          omega
        exact hp hpc.symm
  · intro v hv hvn
    simp only [waitingAt_clear]
    have hv' : v ∈ waitingAt waiting (semi E v) ∨ Relative E t.parentOf v (domOf s.dom v) := by
      rcases eq_or_ne v (m + 1) with rfl | hne
      · exact Or.inl ((hmem _ _).mpr (Or.inr ⟨rfl, rfl⟩))
      · exact (h.known v (by omega) hvn).imp_left fun hmem' => (hmem _ _).mpr (Or.inl hmem')
    rcases hv' with hv' | hv'
    · by_cases hp : semi E v = t.parentOf (m + 1)
      · exact Or.inr (hall v (Or.inl (hp ▸ hv')))
      · exact Or.inl (by rwa [if_neg hp])
    · exact Or.inr (hall v (Or.inr hv'))

/-- **Taking all vertices.** -/
theorem Taken.descend (N : Numbering n E t.parentOf)
    (hpreds : ∀ w, w < n → ∀ v, v ∈ t.preds fn w ↔ E v w) :
    ∀ (m : Nat) {s : DominatorSearch}, m < n → Taken E t.parentOf n m s →
      Taken E t.parentOf n 0 (descend fn t m s)
  | 0, _, _, h => h
  | m + 1, _, hm, h => Taken.descend N hpreds m (by omega) (h.visit N hm (hpreds (m + 1) hm))

/-- A proper ancestor of a vertex has a child on the way to it. -/
theorem exists_child {u : Nat} (h : Ancestor parent u v) (hne : u ≠ v) :
    ∃ c, 0 < c ∧ parent c = u ∧ Ancestor parent c v := by
  induction h with
  | refl => exact absurd rfl hne
  | @up v hv _ ih =>
    by_cases hp : u = parent v
    · exact ⟨v, hv, hp.symm, .refl⟩
    · obtain ⟨c, hc, hcu, hcv⟩ := ih hp
      exact ⟨c, hc, hcu, .up hv hcv⟩

/-- In the end nothing waits. -/
theorem Taken.relative (N : Numbering n E parent) (h : Taken E parent n 0 s) (hv0 : 0 < v)
    (hv : v < n) : Relative E parent v (domOf s.dom v) := by
  refine (h.known v hv0 hv).resolve_left fun hw => ?_
  -- the child of the semidominator on the way to `v` has been taken like all others
  obtain ⟨-, -, -, hchild⟩ := h.waits _ v hw
  have hlt := N.semi_lt hv0 hv
  obtain ⟨c, hc, hcp, hcv⟩ := exists_child (N.ancestor_semi hv0 hv) (by omega)
  exact hchild c hc hcv hcp

/-! ### Resolving in ascending order -/

/-- **The last pass** turns relative dominators into immediate ones. -/
theorem resolve_spec (N : Numbering n E parent) (hkeyed : Keyed E n 0 f) :
    ∀ (len a : Nat) {dom : Array Nat}, a + len = n → 0 < a → dom.size = n →
      (∀ w, 0 < w → w < a → ImmediatelyDominates E 0 (domOf dom w) w) →
      (∀ w, a ≤ w → w < n → Relative E parent w (domOf dom w)) →
      ∀ w, 0 < w → w < n →
        ImmediatelyDominates E 0 (domOf (resolve f (List.range' a len) dom) w) w
  | 0, a, dom, hlen, _, _, hdone, _ => fun w hw0 hw => hdone w hw0 (by omega)
  | len + 1, a, dom, hlen, ha0, hsize, hdone, hrel => by
    have ha : a < n := by omega
    have hka : f.keyOf a = semi E a := by rw [hkeyed a ha, if_pos ha0]
    let dom1 := if domOf dom a = f.keyOf a then dom
      else dom.setIfInBounds a (domOf dom (domOf dom a))
    have hresolve : resolve f (List.range' a (len + 1)) dom =
        resolve f (List.range' (a + 1) len) dom1 := rfl
    have hother : ∀ w, w ≠ a → domOf dom1 w = domOf dom w := by
      intro w hw
      simp only [dom1]
      split
      · rfl
      · simp [domOf, Array.getElem?_setIfInBounds_ne (Ne.symm hw)]
    have hidom : ImmediatelyDominates E 0 (domOf dom1 a) a := by
      simp only [dom1, hka]
      rcases hrel a le_rfl ha with ⟨hd, hle⟩ | ⟨hlt, hanc, hsemi, hle⟩
      · rw [if_pos hd, hd]
        exact N.immediatelyDominates_semi ha0 ha hle
      · -- the vertex that shares the dominator is less, so its own is already known
        have hda : domOf dom a < a := by
          refine lt_of_le_of_ne (N.le_of_ancestor hanc ha) fun heq => ?_
          rw [heq] at hsemi
          omega
        rw [if_neg (by omega)]
        have hset : domOf (dom.setIfInBounds a (domOf dom (domOf dom a))) a =
            domOf dom (domOf dom a) := by
          simp only [domOf, Array.getElem?_setIfInBounds_self]
          simp [hsize, ha]
        rw [hset]
        exact N.immediatelyDominates_of_least ha0 ha hlt hanc hle
          (hdone _ (by omega) hda)
    rw [hresolve]
    refine resolve_spec N hkeyed len (a + 1) (by omega) (by omega) ?_ ?_ ?_
    · simp only [dom1]
      split
      · exact hsize
      · simpa using hsize
    · intro w hw0 hw
      rcases eq_or_ne w a with rfl | hne
      · exact hidom
      · rw [hother w hne]
        exact hdone w hw0 (by omega)
    · intro w hw hwn
      rw [hother w (by omega)]
      exact hrel w (by omega) hwn

end DominatorSearch

end BranchFusion
