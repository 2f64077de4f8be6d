import Mathlib.Logic.Relation
import Mathlib.Tactic.ByContra

/-!
# Paths and dominance

The theory of dominance in a directed graph, given by nothing but its edge relation and an entry
`r`. A vertex `a` *dominates* `b` when `b` can be reached and every path from the entry to `b`
passes through `a` (`BranchFusion.Graph.Dominates`).

That definition speaks about lists of vertices, and no proof below wants to. What the proofs use
instead is the negation: `BranchFusion.Graph.Around` says that there is a path around a vertex, and
it is the transitive closure of the edges that do not enter that vertex, so that facts about it go
by induction on the closure. `BranchFusion.Graph.dominates_iff_not_around` joins the two.

The three facts that the analyses of a program rest on are then short:

* a strict dominator of a vertex dominates all its reachable predecessors
  (`BranchFusion.Graph.Dominates.of_edge`);
* dominance is a partial order (`BranchFusion.Graph.Dominates.trans`,
  `BranchFusion.Graph.Dominates.antisymm`), whose least element is the entry;
* immediate dominators are unique (`BranchFusion.Graph.ImmediatelyDominates.unique`).
-/

namespace BranchFusion

namespace Graph

open Relation

variable {α : Type}

/-- A path along edges, with the vertices that it passes through, both ends included. -/
inductive Path (E : α → α → Prop) : α → α → List α → Prop
  /-- The path that does not move. -/
  | single (a : α) : Path E a a [a]
  /-- An edge, and a path from its target. -/
  | cons {a b c : α} {p : List α} : E a b → Path E b c p → Path E a c (a :: p)

/-- **Dominance**: `b` can be reached from the entry `r`, and every path from `r` to `b` passes
through `a`. -/
def Dominates (E : α → α → Prop) (r a b : α) : Prop :=
  ReflTransGen E r b ∧ ∀ p, Path E r b p → a ∈ p

/-- **Immediate dominance**: `d` is a strict dominator of `b`, and every strict dominator of `b`
dominates it. -/
structure ImmediatelyDominates (E : α → α → Prop) (r d b : α) : Prop where
  dominates : Dominates E r d b
  ne : d ≠ b
  last : ∀ a, Dominates E r a b → a ≠ b → Dominates E r a d

/-- There is a path from `a` to `b` around `v`: it never stands on `v`. -/
def Around (E : α → α → Prop) (v a b : α) : Prop :=
  a ≠ v ∧ ReflTransGen (fun x y => E x y ∧ y ≠ v) a b

variable {E : α → α → Prop} {r a b c d v : α}

/-! ### Paths around a vertex -/

theorem Around.refl (h : a ≠ v) : Around E v a a := ⟨h, .refl⟩

theorem Around.snoc (h : Around E v a b) (he : E b c) (hc : c ≠ v) : Around E v a c :=
  ⟨h.1, h.2.tail ⟨he, hc⟩⟩

theorem Around.ne_target (h : Around E v a b) : b ≠ v := by
  rcases ReflTransGen.cases_tail h.2 with rfl | ⟨_, _, _, hb⟩
  · exact h.1
  · exact hb

theorem Around.trans (h : Around E v a b) (h' : Around E v b c) : Around E v a c :=
  ⟨h.1, h.2.trans h'.2⟩

theorem Around.reaches (h : Around E v a b) : ReflTransGen E a b :=
  h.2.lift id fun _ _ hxy => hxy.1

/-- Induction along a path around `v`, from its source. -/
theorem Around.induction {P : α → Prop} (h : Around E v a b) (base : P a)
    (step : ∀ x y, Around E v a x → P x → E x y → y ≠ v → P y) : P b := by
  obtain ⟨ha, hp⟩ := h
  induction hp with
  | refl => exact base
  | tail hx he ih => exact step _ _ ⟨ha, hx⟩ ih he.1 he.2

theorem around_iff_exists_path : Around E v a b ↔ ∃ p, Path E a b p ∧ v ∉ p := by
  constructor
  · rintro ⟨ha, hp⟩
    induction hp using ReflTransGen.head_induction_on with
    | refl => exact ⟨[b], .single b, by simpa using Ne.symm ha⟩
    | head he _ ih =>
      obtain ⟨p, hp, hv⟩ := ih he.2
      exact ⟨_ :: p, .cons he.1 hp, by simp [Ne.symm ha, hv]⟩
  · rintro ⟨p, hp, hv⟩
    induction hp with
    | single a => exact .refl (by simpa [eq_comm] using hv)
    | cons he _ ih =>
      simp only [List.mem_cons, not_or] at hv
      have hb := ih hv.2
      exact ⟨Ne.symm hv.1, hb.2.head ⟨he, hb.1⟩⟩

/-- **A path around `a` meets `b` or goes around it too.** -/
theorem Around.split (h : Around E a r c) (b : α) : Around E a r b ∨ Around E b r c := by
  refine h.induction (P := fun x => Around E a r b ∨ Around E b r x) ?_ ?_
  · by_cases hr : r = b
    · exact Or.inl (hr ▸ .refl h.1)
    · exact Or.inr (.refl hr)
  · -- the path has met `b` already, or has gone around it so far
    rintro x y hx (hb | hb) he hy
    · exact Or.inl hb
    · by_cases hyb : y = b
      · exact Or.inl (hyb ▸ hx.snoc he hy)
      · exact Or.inr (hb.snoc he hyb)

/-- A vertex that is reached is reached through `a`, or around it. -/
theorem reaches_or_around (h : ReflTransGen E r b) (a : α) :
    ReflTransGen E r a ∨ Around E a r b := by
  induction h with
  | refl =>
    by_cases hr : r = a
    · exact Or.inl (hr ▸ .refl)
    · exact Or.inr (.refl hr)
  | @tail x y hx he ih =>
    by_cases hy : y = a
    · exact Or.inl (hy ▸ hx.tail he)
    · exact ih.imp_right fun h => h.snoc he hy

/-! ### Dominance -/

theorem dominates_iff_not_around :
    Dominates E r a b ↔ ReflTransGen E r b ∧ ¬Around E a r b := by
  rw [around_iff_exists_path, Dominates]
  refine and_congr_right fun _ => ⟨?_, ?_⟩
  · rintro h ⟨p, hp, hv⟩
    exact hv (h p hp)
  · intro h p hp
    by_contra hv
    exact h ⟨p, hp, hv⟩

theorem Dominates.reaches (h : Dominates E r a b) : ReflTransGen E r b := h.1

theorem Dominates.not_around (h : Dominates E r a b) : ¬Around E a r b :=
  (dominates_iff_not_around.mp h).2

theorem around_of_not_dominates (hb : ReflTransGen E r b) (h : ¬Dominates E r a b) :
    Around E a r b := by
  by_contra hc
  exact h (dominates_iff_not_around.mpr ⟨hb, hc⟩)

theorem Dominates.refl (h : ReflTransGen E r b) : Dominates E r b b :=
  dominates_iff_not_around.mpr ⟨h, fun hc => hc.ne_target rfl⟩

/-- Nothing else dominates the entry. -/
theorem Dominates.eq_entry (h : Dominates E r a r) : a = r := by
  by_contra hne
  exact h.not_around (.refl (Ne.symm hne))

/-- A dominator can be reached. -/
theorem Dominates.reaches_left (h : Dominates E r a b) : ReflTransGen E r a :=
  (reaches_or_around h.1 a).resolve_right h.not_around

theorem Dominates.trans (h : Dominates E r a b) (h' : Dominates E r b c) : Dominates E r a c := by
  refine dominates_iff_not_around.mpr ⟨h'.reaches, fun hc => ?_⟩
  rcases hc.split b with hb | hb
  · exact h.not_around hb
  · exact h'.not_around hb

/-- **A strict dominator of a vertex dominates its predecessors.** -/
theorem Dominates.of_edge (h : Dominates E r d c) (hne : d ≠ c) (hb : ReflTransGen E r b)
    (he : E b c) : Dominates E r d b :=
  dominates_iff_not_around.mpr ⟨hb, fun hc => h.not_around (hc.snoc he (Ne.symm hne))⟩

/-- **Two vertices do not dominate each other.** Of two vertices, the one that a path meets first
is reached around the other. -/
theorem Dominates.antisymm (h : Dominates E r a b) (h' : Dominates E r b a) : a = b := by
  by_contra hne
  -- whatever is reached is reached around one of the two, so one of them is
  have key : ∀ x, ReflTransGen E r x →
      (Around E a r b ∨ Around E b r a) ∨ (Around E a r x ∧ Around E b r x) := by
    intro x hx
    induction hx with
    | refl =>
      by_cases ha : r = a
      · exact Or.inl (Or.inr (ha ▸ .refl (ha ▸ hne)))
      by_cases hb : r = b
      · exact Or.inl (Or.inl (hb ▸ .refl ha))
      exact Or.inr ⟨.refl ha, .refl hb⟩
    | @tail x y _ he ih =>
      rcases ih with ih | ⟨h1, h2⟩
      · exact Or.inl ih
      by_cases ha : y = a
      · exact Or.inl (Or.inr (ha ▸ h2.snoc he (ha ▸ hne)))
      by_cases hb : y = b
      · exact Or.inl (Or.inl (hb ▸ h1.snoc he ha))
      exact Or.inr ⟨h1.snoc he ha, h2.snoc he hb⟩
  rcases key b h.reaches with (h1 | h1) | ⟨h1, -⟩
  · exact h.not_around h1
  · exact h'.not_around h1
  · exact h.not_around h1

/-- A vertex has at most one immediate dominator. -/
theorem ImmediatelyDominates.unique (h : ImmediatelyDominates E r a c)
    (h' : ImmediatelyDominates E r b c) : a = b :=
  (h'.last a h.dominates h.ne).antisymm (h.last b h'.dominates h'.ne)

/-- Every strict dominator of a vertex is its immediate dominator or dominates that one. -/
theorem ImmediatelyDominates.dominates_iff (h : ImmediatelyDominates E r d b) :
    Dominates E r a b ↔ a = b ∨ Dominates E r a d := by
  constructor
  · intro ha
    by_cases hab : a = b
    · exact Or.inl hab
    · exact Or.inr (h.last a ha hab)
  · rintro (rfl | ha)
    · exact .refl h.dominates.reaches
    · exact ha.trans h.dominates

/-- Dominance depends on the edges out of vertices that are reached, and on no others. -/
theorem dominates_congr {E' : α → α → Prop}
    (h : ∀ x y, ReflTransGen E r x → (E x y ↔ E' x y)) :
    Dominates E r a b ↔ Dominates E' r a b := by
  -- the same vertices are reached, so all edges that paths use are the same
  have hreach : ∀ x, ReflTransGen E' r x → ReflTransGen E r x := fun x hx => by
    induction hx with
    | refl => exact .refl
    | tail _ he ih => exact ih.tail ((h _ _ ih).mpr he)
  have hreach' : ∀ x, ReflTransGen E r x → ReflTransGen E' r x := fun x hx => by
    induction hx with
    | refl => exact .refl
    | tail hx he ih => exact ih.tail ((h _ _ hx).mp he)
  rw [dominates_iff_not_around, dominates_iff_not_around]
  refine and_congr ⟨hreach' b, hreach b⟩ (not_congr ⟨fun har => ?_, fun har => ?_⟩)
  · refine har.induction (P := fun x => Around E' a r x) (.refl har.1) fun x y hx ih he hy => ?_
    exact ih.snoc ((h x y hx.reaches).mp he) hy
  · refine har.induction (P := fun x => Around E a r x) (.refl har.1) fun x y hx ih he hy => ?_
    exact ih.snoc ((h x y (hreach x hx.reaches)).mpr he) hy

/-! ### Contracting an edge

A pass that removes a block lets another one take its place: `m`, whose only predecessor is `b`,
disappears, and the edges out of `m` come out of `b` instead. Dominance between the vertices that
stay is not affected. -/

/-- **The graph `E'` arises from `E` by contracting the edge from `b` to `m`.** -/
structure Contracts (E E' : α → α → Prop) (r b m : α) : Prop where
  /-- The vertex that disappears is not the entry. -/
  entry : r ≠ m
  /-- It has one predecessor, which is another vertex. -/
  pred : ∀ x, E x m ↔ x = b
  pred_ne : b ≠ m
  /-- Edges between the vertices that stay are kept, if they do not come out of `b`. -/
  kept : ∀ x y, x ≠ m → y ≠ m → E x y → E' x y
  /-- Edges out of `m` come out of `b`. -/
  moved : ∀ y, E m y → E' b y
  /-- There are no other edges. -/
  edge : ∀ x y, E' x y → y ≠ m ∧ x ≠ m ∧ (E x y ∨ x = b ∧ E m y)

namespace Contracts

variable {E' : α → α → Prop} {m x : α}

/-- What is reached is still reached. -/
theorem reaches (h : Contracts E E' r b m) (hx : ReflTransGen E r x) (hne : x ≠ m) :
    ReflTransGen E' r x := by
  -- at `m` itself, the vertex to go on from is `b`
  have key : ∀ y, ReflTransGen E r y → (y ≠ m → ReflTransGen E' r y) ∧
      (y = m → ReflTransGen E' r b) := by
    intro y hy
    induction hy with
    | refl => exact ⟨fun _ => .refl, fun he => absurd he h.entry⟩
    | @tail y z _ he ih =>
      refine ⟨fun hz => ?_, fun hz => ?_⟩
      · by_cases hy : y = m
        · exact (ih.2 hy).tail (h.moved z (hy ▸ he))
        · exact (ih.1 hy).tail (h.kept y z hy hz he)
      · have hyb : y = b := (h.pred y).mp (hz ▸ he)
        exact hyb ▸ ih.1 (hyb ▸ h.pred_ne)
  exact (key x hx).1 hne

/-- A path around a vertex that stays was one before. -/
theorem around (h : Contracts E E' r b m) (hd : d ≠ m) (hx : Around E' d r x) :
    Around E d r x := by
  refine hx.induction (P := fun y => Around E d r y) (.refl hx.1) ?_
  intro y z _ ih he hz
  rcases (h.edge y z he).2.2 with he | ⟨rfl, he⟩
  · exact ih.snoc he hz
  · -- an edge that was moved to `b` stands for the way through `m`
    exact (ih.snoc ((h.pred _).mpr rfl) (Ne.symm hd)).snoc he hz

/-- **Dominance by a vertex that stays is kept.** -/
theorem dominates (h : Contracts E E' r b m) (hd : d ≠ m) (hx : x ≠ m)
    (hdom : Dominates E r d x) : Dominates E' r d x :=
  dominates_iff_not_around.mpr
    ⟨h.reaches hdom.reaches hx, fun hc => hdom.not_around (h.around hd hc)⟩

/-- What is reached was reached before. -/
theorem reaches_before (h : Contracts E E' r b m) (hx : ReflTransGen E' r x) :
    ReflTransGen E r x := by
  induction hx with
  | refl => exact .refl
  | @tail y z _ he ih =>
    rcases (h.edge y z he).2.2 with he | ⟨rfl, he⟩
    · exact ih.tail he
    · exact (ih.tail ((h.pred _).mpr rfl)).tail he

/-- A path around a vertex is still there, if its end is. -/
theorem around_after (h : Contracts E E' r b m) (hx : Around E d r x) (hne : x ≠ m) :
    Around E' d r x := by
  -- at `m` itself, the vertex to go on from is `b`, which the path has passed
  have key : (x ≠ m → Around E' d r x) ∧ (x = m → Around E' d r b) := by
    refine hx.induction (P := fun y => (y ≠ m → Around E' d r y) ∧ (y = m → Around E' d r b))
      ⟨fun _ => .refl hx.1, fun hr => absurd hr h.entry⟩ ?_
    intro y z _ ih he hz
    refine ⟨fun hzm => ?_, fun hzm => ?_⟩
    · by_cases hy : y = m
      · exact (ih.2 hy).snoc (h.moved z (hy ▸ he)) hz
      · exact (ih.1 hy).snoc (h.kept y z hy hzm he) hz
    · have hyb : y = b := (h.pred y).mp (hzm ▸ he)
      exact hyb ▸ ih.1 (hyb ▸ h.pred_ne)
  exact key.1 hne

/-- **Between the vertices that stay, dominance is what it was.** -/
theorem dominates_iff (h : Contracts E E' r b m) (hd : d ≠ m) (hx : x ≠ m) :
    Dominates E' r d x ↔ Dominates E r d x := by
  refine ⟨fun hdom => ?_, h.dominates hd hx⟩
  exact dominates_iff_not_around.mpr
    ⟨h.reaches_before hdom.reaches, fun hc => hdom.not_around (h.around_after hc hx)⟩

/-- The vertex that disappears is dominated by its predecessor. -/
theorem pred_dominates (h : Contracts E E' r b m) (hm : ReflTransGen E r m) :
    Dominates E r b m := by
  refine dominates_iff_not_around.mpr ⟨hm, fun hc => ?_⟩
  -- the last step of a path to `m` comes from `b`
  rcases ReflTransGen.cases_tail hc.2 with hr | ⟨y, hy, he, -⟩
  · exact h.entry hr.symm
  · have hyb : y = b := (h.pred y).mp he
    exact Around.ne_target ⟨hc.1, hyb ▸ hy⟩ rfl

/-- What strictly dominates the vertex that disappears dominates its predecessor. -/
theorem dominates_pred (h : Contracts E E' r b m) (hdom : Dominates E r d m) (hd : d ≠ m)
    (hb : ReflTransGen E r b) : Dominates E r d b :=
  hdom.of_edge hd hb ((h.pred b).mpr rfl)

/-- **What the vertex that disappears dominated is dominated by its predecessor.** -/
theorem dominates_of_removed (h : Contracts E E' r b m) (hx : x ≠ m)
    (hdom : Dominates E r m x) : Dominates E' r b x :=
  h.dominates h.pred_ne hx ((h.pred_dominates hdom.reaches_left).trans hdom)

end Contracts

end Graph

end BranchFusion
