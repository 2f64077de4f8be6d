import BranchFusion.Dominance.Forest
import BranchFusion.Proofs.Graph.Semidominator

/-!
# What the forest knows

The vertices greater than some `m` have been linked to their parents, the others are roots. The
forest does not remember the tree paths, only shortcuts along them, and the invariant
`BranchFusion.Forest.Tracks` says what a shortcut is worth: the ancestor of a linked vertex `v` is
an ancestor `a` in the tree, everything between them is linked, and the label of `v` has the least
key between them.

Compression keeps the invariant and makes the shortcut of its vertex end at a root
(`BranchFusion.Forest.Tracks.compress`), so that the answer of the forest is the least key of all
linked vertices up the tree (`BranchFusion.Forest.Tracks.eval`). Linking the next vertex and
lowering the key of a root keep it too.
-/

namespace BranchFusion

namespace Forest

open BranchFusion.Graph

variable {f : Forest} {parent : Nat → Nat} {n m v w a q k : Nat}

/-! ### Reading an edited forest -/

@[simp] theorem size_setKey : (f.setKey w k).key.size = f.key.size := by simp [setKey]

theorem keyOf_setKey (hw : w < f.key.size) :
    (f.setKey w k).keyOf v = if v = w then k else f.keyOf v := by
  rcases eq_or_ne v w with rfl | hne
  · simp [keyOf, setKey, hw]
  · simp [keyOf, setKey, hne, Array.getElem?_setIfInBounds_ne (Ne.symm hne)]

@[simp] theorem labelOf_link : (f.link w a).labelOf v = f.labelOf v := rfl

theorem ancestorOf_link (hw : w < f.ancestor.size) :
    (f.link w a).ancestorOf v = if v = w then some a else f.ancestorOf v := by
  rcases eq_or_ne v w with rfl | hne
  · simp [ancestorOf, link, hw]
  · simp [ancestorOf, link, hne, Array.getElem?_setIfInBounds_ne (Ne.symm hne)]

@[simp] theorem key_adopt : (f.adopt w a).key = f.key := rfl

@[simp] theorem keyOf_adopt : (f.adopt w a).keyOf v = f.keyOf v := rfl

theorem ancestorOf_adopt (hw : w < f.ancestor.size) :
    (f.adopt w a).ancestorOf v = if v = w then f.ancestorOf a else f.ancestorOf v := by
  rcases eq_or_ne v w with rfl | hne
  · simp [ancestorOf, adopt, hw]
  · simp [ancestorOf, adopt, hne, Array.getElem?_setIfInBounds_ne (Ne.symm hne)]

theorem labelOf_adopt (hw : w < f.label.size) :
    (f.adopt w a).labelOf v =
      if v = w ∧ f.keyOf (f.labelOf a) < f.keyOf (f.labelOf w) then f.labelOf a
      else f.labelOf v := by
  by_cases hlt : f.keyOf (f.labelOf a) < f.keyOf (f.labelOf w)
  · have hadopt : (f.adopt w a).label = f.label.setIfInBounds w (f.labelOf a) := if_pos hlt
    rw [labelOf, hadopt]
    rcases eq_or_ne v w with rfl | hne
    · simp [hlt, hw]
    · simp [hne, Array.getElem?_setIfInBounds_ne (Ne.symm hne), labelOf]
  · have hadopt : (f.adopt w a).label = f.label := if_neg hlt
    rw [labelOf, hadopt, if_neg (fun h => hlt h.2), labelOf]

/-! ### The invariant -/

/-- `q` has the least key among the ancestors of `v` that are greater than `a`. -/
structure Least (parent : Nat → Nat) (f : Forest) (a v q : Nat) : Prop where
  above : a < q
  ancestor : Ancestor parent q v
  least : ∀ x, a < x → Ancestor parent x v → f.keyOf q ≤ f.keyOf x

/-- The shortcut of a linked vertex: it ends at an ancestor, skips linked vertices only, and carries
the least key that it skips. -/
structure Shortcut (parent : Nat → Nat) (f : Forest) (m v a : Nat) : Prop where
  ancestor : Ancestor parent a v
  lt : a < v
  linked : ∀ x, a < x → Ancestor parent x v → m < x
  label : Least parent f a v (f.labelOf v)

/-- **The invariant of the forest** when the vertices greater than `m` are linked. -/
structure Tracks (parent : Nat → Nat) (n m : Nat) (f : Forest) : Prop where
  key_size : f.key.size = n
  label_size : f.label.size = n
  ancestor_size : f.ancestor.size = n
  root : ∀ v, v ≤ m → f.ancestorOf v = none ∧ f.labelOf v = v
  shortcut : ∀ v, m < v → v < n → ∃ a, f.ancestorOf v = some a ∧ Shortcut parent f m v a

theorem Least.congr {f' : Forest} (h : Least parent f a v q)
    (hk : ∀ x, a < x → Ancestor parent x v → f'.keyOf x = f.keyOf x) : Least parent f' a v q := by
  refine ⟨h.above, h.ancestor, fun x hx hxv => ?_⟩
  rw [hk q h.above h.ancestor, hk x hx hxv]
  exact h.least x hx hxv

theorem Shortcut.congr {f' : Forest} (h : Shortcut parent f m v a)
    (hl : f'.labelOf v = f.labelOf v) (hk : ∀ x, m < x → f'.keyOf x = f.keyOf x) :
    Shortcut parent f' m v a :=
  ⟨h.ancestor, h.lt, h.linked, hl ▸ h.label.congr fun x hx hxv => hk x (h.linked x hx hxv)⟩

namespace Tracks

/-- In the beginning every vertex is a root. -/
theorem discrete : Tracks parent n (n - 1) (.discrete n) := by
  refine ⟨by simp [Forest.discrete], by simp [Forest.discrete], by simp [Forest.discrete], ?_, ?_⟩
  · intro v _
    constructor
    · simp only [Forest.discrete, ancestorOf, Array.getElem?_replicate]
      split <;> rfl
    · by_cases hv : v < n <;> simp [Forest.discrete, labelOf, hv]
  · intro v hv hvn
    omega

theorem linked_of_ancestorOf (h : Tracks parent n m f) (ha : f.ancestorOf v = some a) :
    m < v ∧ v < n := by
  constructor
  · by_contra hle
    rw [(h.root v (by omega)).1] at ha
    exact absurd ha (by simp)
  · by_contra hge
    rw [ancestorOf, Array.getElem?_eq_none (by rw [h.ancestor_size]; omega)] at ha
    exact absurd ha (by simp)

theorem shortcut_of_ancestorOf (h : Tracks parent n m f) (ha : f.ancestorOf v = some a) :
    Shortcut parent f m v a := by
  obtain ⟨hv, hvn⟩ := h.linked_of_ancestorOf ha
  obtain ⟨a', ha', hs⟩ := h.shortcut v hv hvn
  obtain rfl : a = a' := by simpa [ha] using ha'
  exact hs

theorem root_of_ancestorOf (h : Tracks parent n m f) (hv : v < n) (ha : f.ancestorOf v = none) :
    v ≤ m := by
  by_contra hlt
  obtain ⟨a, ha', -⟩ := h.shortcut v (by omega) hv
  rw [ha] at ha'
  exact absurd ha' (by simp)

/-- Lowering the key of a root changes nothing. -/
theorem setKey (h : Tracks parent n m f) (hw : w ≤ m) : Tracks parent n m (f.setKey w k) := by
  refine ⟨by simpa using h.key_size, h.label_size, h.ancestor_size, h.root, fun v hv hvn => ?_⟩
  obtain ⟨a, ha, hs⟩ := h.shortcut v hv hvn
  refine ⟨a, ha, hs.congr rfl fun x hx => ?_⟩
  by_cases hw' : w < f.key.size
  · rw [keyOf_setKey hw', if_neg (by omega)]
  · simp [Forest.setKey, keyOf, Array.setIfInBounds, hw']

/-- The vertex that is linked next has the shortcut to its parent. -/
theorem link (hp : ParentsFirst n parent) (h : Tracks parent n (m + 1) f) (hm : m + 1 < n) :
    Tracks parent n m (f.link (m + 1) (parent (m + 1))) := by
  have hsize : m + 1 < f.ancestor.size := by rw [h.ancestor_size]; exact hm
  have hlt : parent (m + 1) < m + 1 := hp (m + 1) (by omega) hm
  refine ⟨h.key_size, h.label_size, by simpa [Forest.link] using h.ancestor_size, ?_, ?_⟩
  · intro v hv
    rw [ancestorOf_link hsize, if_neg (by omega)]
    exact h.root v (by omega)
  · intro v hv hvn
    rw [ancestorOf_link hsize]
    rcases eq_or_ne v (m + 1) with rfl | hne
    · -- only the vertex itself lies above its parent
      have honly : ∀ x, parent (m + 1) < x → Ancestor parent x (m + 1) → x = m + 1 := by
        intro x hx hxv
        by_contra hxne
        have hle := hp.le_of_ancestor (hxv.parent_of_ne hxne).2 (by omega)
        omega
      refine ⟨parent (m + 1), by simp, .up (by omega) .refl, hlt, ?_, ?_⟩
      · intro x hx hxv
        rw [honly x hx hxv]
        omega
      · rw [labelOf_link, (h.root (m + 1) le_rfl).2]
        refine ⟨hlt, .refl, fun x hx hxv => ?_⟩
        rw [honly x hx hxv]
    · rw [if_neg hne]
      obtain ⟨a, ha, hs⟩ := h.shortcut v (by omega) hvn
      refine ⟨a, ha, hs.ancestor, hs.lt, fun x hx hxv => ?_, hs.label.congr fun _ _ _ => rfl⟩
      have := hs.linked x hx hxv
      omega

/-! ### Path compression -/

/-- A vertex takes over the shortcut of the ancestor that its own one ends at. -/
theorem shortcut_adopt (hp : ParentsFirst n parent) (h : Tracks parent n m f) {r : Nat}
    (ha : f.ancestorOf v = some a) (hr : f.ancestorOf a = some r) :
    Shortcut parent (f.adopt v a) m v r := by
  obtain ⟨-, hvn⟩ := h.linked_of_ancestorOf ha
  have hva := h.shortcut_of_ancestorOf ha
  have har := h.shortcut_of_ancestorOf hr
  have hlsz : v < f.label.size := by rw [h.label_size]; exact hvn
  refine ⟨har.ancestor.trans hva.ancestor, har.lt.trans hva.lt, fun x hx hxv => ?_, ?_⟩
  · rcases hp.lt_or_ancestor hva.ancestor hxv hvn with hax | hxa
    · exact hva.linked x hax hxv
    · exact har.linked x hx hxa
  · -- the lesser of the two labels has the least key of both ways
    rw [labelOf_adopt hlsz]
    by_cases hlt : f.keyOf (f.labelOf a) < f.keyOf (f.labelOf v)
    · rw [if_pos ⟨rfl, hlt⟩]
      refine ⟨har.label.above, har.label.ancestor.trans hva.ancestor, fun x hx hxv => ?_⟩
      simp only [keyOf_adopt]
      rcases hp.lt_or_ancestor hva.ancestor hxv hvn with hax | hxa
      · exact hlt.le.trans (hva.label.least x hax hxv)
      · exact har.label.least x hx hxa
    · rw [if_neg (by simp [hlt])]
      refine ⟨har.lt.trans hva.label.above, hva.label.ancestor, fun x hx hxv => ?_⟩
      simp only [keyOf_adopt]
      rcases hp.lt_or_ancestor hva.ancestor hxv hvn with hax | hxa
      · exact hva.label.least x hax hxv
      · exact (Nat.le_of_not_lt hlt).trans (har.label.least x hx hxa)

/-- Taking over the shortcut of an ancestor keeps the invariant. -/
theorem adopt (hp : ParentsFirst n parent) (h : Tracks parent n m f) {r : Nat}
    (ha : f.ancestorOf v = some a) (hr : f.ancestorOf a = some r) :
    Tracks parent n m (f.adopt v a) := by
  obtain ⟨hv, hvn⟩ := h.linked_of_ancestorOf ha
  have hasz : v < f.ancestor.size := by rw [h.ancestor_size]; exact hvn
  have hlsz : v < f.label.size := by rw [h.label_size]; exact hvn
  have hother : ∀ u, u ≠ v → (f.adopt v a).ancestorOf u = f.ancestorOf u ∧
      (f.adopt v a).labelOf u = f.labelOf u := by
    intro u hu
    rw [ancestorOf_adopt hasz, labelOf_adopt hlsz]
    simp [hu]
  constructor
  case key_size => exact h.key_size
  case label_size =>
    simp only [Forest.adopt]
    split
    · simpa using h.label_size
    · exact h.label_size
  case ancestor_size => simpa [Forest.adopt] using h.ancestor_size
  case root =>
    intro u hu
    rw [(hother u (by omega)).1, (hother u (by omega)).2]
    exact h.root u hu
  case shortcut =>
    intro u hu hun
    rcases eq_or_ne u v with rfl | hne
    · exact ⟨r, by rw [ancestorOf_adopt hasz, if_pos rfl, hr], h.shortcut_adopt hp ha hr⟩
    · obtain ⟨b, hb, hs⟩ := h.shortcut u hu hun
      exact ⟨b, by rw [(hother u hne).1, hb], hs.congr (hother u hne).2 fun _ _ => rfl⟩

/-- **Path compression** keeps the invariant and the keys, changes nothing at greater vertices, and
leaves its vertex with a shortcut to a root. -/
theorem compress (hp : ParentsFirst n parent) :
    ∀ (fuel : Nat) {f : Forest} {v : Nat}, Tracks parent n m f → v ≤ fuel → v < n →
      Tracks parent n m (compress fuel f v) ∧ (compress fuel f v).key = f.key ∧
        (∀ u, v < u → (Forest.compress fuel f v).ancestorOf u = f.ancestorOf u) ∧
        ∀ a, (Forest.compress fuel f v).ancestorOf v = some a → a ≤ m
  | 0, f, v, h, hv, hvn => by
    refine ⟨h, rfl, fun _ _ => rfl, fun a ha => ?_⟩
    have := (h.linked_of_ancestorOf ha).1
    omega
  | fuel + 1, f, v, h, hv, hvn => by
    rw [Forest.compress]
    split
    · next hnone => exact ⟨h, rfl, fun _ _ => rfl, fun a ha => by simp [hnone] at ha⟩
    · next a ha =>
      have hva := h.shortcut_of_ancestorOf ha
      have hlt := hva.lt
      split
      · next hnone =>
        refine ⟨h, rfl, fun _ _ => rfl, fun a' ha' => ?_⟩
        obtain rfl : a = a' := by simpa [ha] using ha'
        exact h.root_of_ancestorOf (by omega) hnone
      · next b hb =>
        obtain ⟨h1, hkey, hsame, hroot⟩ := compress hp fuel h (v := a) (by omega) (by omega)
        have ha1 := hsame v hlt
        rw [ha] at ha1
        -- the ancestor is linked, so it still has a shortcut, and that one ends at a root
        obtain ⟨r, hr, -⟩ := h1.shortcut a (h.linked_of_ancestorOf hb).1 (by omega)
        have hasz : v < (Forest.compress fuel f a).ancestor.size := by
          rw [h1.ancestor_size]; exact hvn
        refine ⟨h1.adopt hp ha1 hr, by rw [key_adopt, hkey], fun u hu => ?_, fun a' ha' => ?_⟩
        · rw [ancestorOf_adopt hasz, if_neg (by omega), hsame u (by omega)]
        · rw [ancestorOf_adopt hasz, if_pos rfl] at ha'
          exact hroot a' ha'

/-- **The answer of the forest.** A root is its own answer; for a linked vertex the answer has the
least key of all linked vertices up the tree. Asking changes neither the keys nor the invariant. -/
theorem eval (hp : ParentsFirst n parent) (h : Tracks parent n m f) (hv : v < n) :
    Tracks parent n m (f.eval v).2 ∧ (f.eval v).2.key = f.key ∧
      (v ≤ m → (f.eval v).1 = v) ∧ (m < v → Least parent f m v (f.eval v).1) := by
  rw [Forest.eval]
  split
  · next hnone =>
    refine ⟨h, rfl, fun _ => rfl, fun hlt => ?_⟩
    have := h.root_of_ancestorOf hv hnone
    omega
  · next a ha =>
    obtain ⟨hmv, -⟩ := h.linked_of_ancestorOf ha
    obtain ⟨h1, hkey, -, hroot⟩ :=
      compress hp f.size h (v := v) (by rw [Forest.size, h.key_size]; omega) hv
    refine ⟨h1, hkey, fun hle => by omega, fun _ => ?_⟩
    obtain ⟨r, hr, hs⟩ := h1.shortcut v hmv hv
    have hrm := hroot r hr
    have hl : Least parent f r v ((Forest.compress f.size f v).labelOf v) :=
      hs.label.congr fun x _ _ => by rw [keyOf, keyOf, hkey]
    have hq := hs.linked _ hl.above hl.ancestor
    exact ⟨hq, hl.ancestor, fun x hx hxv => hl.least x (by omega) hxv⟩

end Tracks

end Forest

end BranchFusion
