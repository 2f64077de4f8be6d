import BranchFusion.Proofs.Availability
import Mathlib.Data.List.Forall2

/-!
# A block that absorbs its successor

Folding two branches and merging two blocks have one shape: a block `m` whose only predecessor is
`b` disappears, and what it did is done at the end of `b`. `BranchFusion.Func.Absorbs` says what the
two functions have to do with each other, and is all that the proofs below know. The rest of the
program sees `b` wherever it saw `m` (`BranchFusion.heir`).

What follows is that a valid function stays valid (`BranchFusion.Func.Absorbs.valid`), and that
dominance between blocks is dominance between their heirs
(`BranchFusion.Func.Absorbs.dominates_heir`), so that what was available at the end of a block is
available at the end of its heir.
-/

namespace BranchFusion

/-- The block that stands for `x` once `b` has absorbed `m`. -/
def heir (b m x : BlockId) : BlockId := if x = m then b else x

@[simp] theorem heir_self (b m : BlockId) : heir b m m = b := if_pos rfl

theorem heir_of_ne {b m x : BlockId} (h : x ≠ m) : heir b m x = x := if_neg h

/-- The instructions or the terminator of a block use a value. -/
def Block.Reads (bb : Block) (v : Value) : Prop :=
  (∃ i ∈ bb.instrs, v ∈ i.operands) ∨ ∃ t, bb.term = some t ∧ v ∈ t.operands

theorem Block.mem_uses_iff {bb : Block} {w : Option Value} :
    w ∈ bb.uses ↔ (∃ p ∈ bb.phis, w ∈ p.operands) ∨ ∃ v, w = some v ∧ bb.Reads v := by
  have hcode : w ∈ bb.uses ↔ (∃ p ∈ bb.phis, w ∈ p.operands) ∨
      (∃ i ∈ bb.instrs, ∃ v ∈ i.operands, some v = w) ∨
        ∃ t, bb.term = some t ∧ ∃ v ∈ t.operands, some v = w := by
    cases hterm : bb.term with
    | none => simp [Block.uses, hterm]
    | some t => simp [Block.uses, hterm]
  rw [hcode]
  refine or_congr_right ⟨?_, ?_⟩
  · rintro (⟨i, hi, v, hv, rfl⟩ | ⟨t, ht, v, hv, rfl⟩)
    · exact ⟨v, rfl, Or.inl ⟨i, hi, hv⟩⟩
    · exact ⟨v, rfl, Or.inr ⟨t, ht, hv⟩⟩
  · rintro ⟨v, rfl, ⟨i, hi, hv⟩ | ⟨t, ht, hv⟩⟩
    · exact Or.inl ⟨i, hi, v, hv, rfl⟩
    · exact Or.inr ⟨t, ht, v, hv, rfl⟩

namespace Block

variable {bb : Block} {v : Value}

theorem mem_uses_of_input {p : Phi} {q : BlockId} {w : Option Value} (hp : p ∈ bb.phis)
    (h : p.input? q = some w) : w ∈ bb.uses :=
  mem_uses_iff.mpr (Or.inl ⟨p, hp, Phi.mem_operands_of_input? h⟩)

theorem mem_uses_of_instr {i : Instr} (hi : i ∈ bb.instrs) (hv : v ∈ i.operands) :
    some v ∈ bb.uses :=
  mem_uses_iff.mpr (Or.inr ⟨v, rfl, Or.inl ⟨i, hi, hv⟩⟩)

theorem mem_uses_of_term {t : Terminator} (ht : bb.term = some t) (hv : v ∈ t.operands) :
    some v ∈ bb.uses :=
  mem_uses_iff.mpr (Or.inr ⟨v, rfl, Or.inr ⟨t, ht, hv⟩⟩)

end Block

namespace Func

variable {fn fn' : Func} {b m x y d : BlockId} {v : Value} {fresh earlier : List Value}

/-- A phi of the block `x` after its inputs were led from predecessors to their heirs. -/
structure Rerouted (fn : Func) (b m x : BlockId) (p p' : Phi) : Prop where
  result : p'.result = p.result
  input : ∀ q, fn.owns q → fn.Edge q x → p'.input? (heir b m q) = p.input? q
  source : ∀ q, (p'.input? q).isSome → ∃ q', fn.owns q' ∧ fn.Edge q' x ∧ heir b m q' = q
  operands : ∀ w ∈ p'.operands, w ∈ p.operands

/-- **`fn'` arises from `fn` when `b` absorbs `m`**, its successor without phis and without another
predecessor. The new block may define `fresh` values on top of what the two blocks define. -/
structure Absorbs (fn fn' : Func) (b m : BlockId) (fresh : List Value) : Prop where
  name : fn'.name = fn.name
  root : fn'.root = fn.root
  params : fn'.params = fn.params
  owned : fn.owns b ∧ fn.owns m
  ne : b ≠ m
  entry : fn.root ≠ some m
  pred : ∀ x, fn.owns x → (fn.Edge x m ↔ x = b)
  no_phis : (fn.block m).phis = []
  owns : ∀ x, fn'.owns x ↔ fn.owns x ∧ x ≠ m
  instrs : ∀ x, fn.owns x → x ≠ b → x ≠ m → (fn'.block x).instrs = (fn.block x).instrs
  term : ∀ x, fn.owns x → x ≠ b → x ≠ m → (fn'.block x).term = (fn.block x).term
  phis : ∀ x, fn.owns x → x ≠ m →
    List.Forall₂ (fn.Rerouted b m x) (fn.block x).phis (fn'.block x).phis
  /-- What comes out of `m` now comes out of `b`. -/
  edge : ∀ y, fn'.Edge b y ↔ fn.Edge b y ∧ y ≠ m ∨ fn.Edge m y
  definitions : (fn'.block b).definitions =
    (fn.block b).definitions ++ ((fn.block m).definitions ++ fresh)
  reads : ∀ v, (fn'.block b).Reads v → (fn.block b).Reads v ∨ (fn.block m).Reads v ∨ v ∈ fresh
  nodup_fresh : fresh.Nodup
  not_defined : ∀ v ∈ fresh, ¬fn.Defined v

namespace Absorbs

/-! ### The graph -/

theorem not_edge_self (h : fn.Absorbs fn' b m fresh) : ¬fn.Edge m m :=
  fun he => h.ne ((h.pred m h.owned.2).mp he).symm

theorem edge_pred (h : fn.Absorbs fn' b m fresh) : fn.Edge b m := (h.pred b h.owned.1).mpr rfl

theorem edge_of_ne (h : fn.Absorbs fn' b m fresh) (hx : fn.owns x) (hb : x ≠ b) (hm : x ≠ m) :
    fn'.Edge x y ↔ fn.Edge x y :=
  edge_congr (h.term x hx hb hm)

/-- The edges of the new function are the old ones, between heirs. -/
theorem edge_iff (h : fn.Absorbs fn' b m fresh) (hx : fn'.owns x) :
    fn'.Edge x y ↔ y ≠ m ∧ ∃ x', fn.owns x' ∧ fn.Edge x' y ∧ heir b m x' = x := by
  obtain ⟨hown, hxm⟩ := (h.owns x).mp hx
  by_cases hxb : x = b
  · subst hxb
    rw [h.edge y]
    constructor
    · rintro (⟨he, hy⟩ | he)
      · exact ⟨hy, x, hown, he, heir_of_ne hxm⟩
      · exact ⟨fun hy => h.not_edge_self (hy ▸ he), m, h.owned.2, he, heir_self x m⟩
    · rintro ⟨hy, x', -, he, hx'⟩
      by_cases hm : x' = m
      · exact Or.inr (hm ▸ he)
      · rw [heir_of_ne hm] at hx'
        exact Or.inl ⟨hx' ▸ he, hy⟩
  · rw [h.edge_of_ne hown hxb hxm]
    constructor
    · intro he
      exact ⟨fun hy => hxb ((h.pred x hown).mp (hy ▸ he)), x, hown, he, heir_of_ne hxm⟩
    · rintro ⟨-, x', -, he, hx'⟩
      by_cases hm : x' = m
      · rw [hm, heir_self] at hx'
        exact absurd hx'.symm hxb
      · rw [heir_of_ne hm] at hx'
        exact hx' ▸ he

theorem closed (h : fn.Absorbs fn' b m fresh) (hc : fn.Closed) : fn'.Closed := by
  refine ⟨fun r hr => (h.owns r).mpr ?_, fun x y hx he => (h.owns y).mpr ?_⟩
  · rw [h.root] at hr
    exact ⟨hc.entry r hr, fun hrm => h.entry (hrm ▸ hr)⟩
  · obtain ⟨hy, x', hx', he, -⟩ := (h.edge_iff hx).mp he
    exact ⟨hc.edge x' y hx' he, hy⟩

theorem contracts (h : fn.Absorbs fn' b m fresh) {r : BlockId} (hr : fn.root = some r) :
    Graph.Contracts fn.LiveEdge fn'.LiveEdge r b m where
  entry hrm := h.entry (hrm ▸ hr)
  pred x := by
    refine ⟨fun he => (h.pred x he.1).mp he.2, ?_⟩
    rintro rfl
    exact ⟨h.owned.1, h.edge_pred⟩
  pred_ne := h.ne
  kept x y hx hy he := by
    have hown := (h.owns x).mpr ⟨he.1, hx⟩
    exact ⟨hown, (h.edge_iff hown).mpr ⟨hy, x, he.1, he.2, heir_of_ne hx⟩⟩
  moved y he := ⟨(h.owns b).mpr ⟨h.owned.1, h.ne⟩, (h.edge y).mpr (Or.inr he.2)⟩
  edge x y he := by
    obtain ⟨hy, x', hx', he', hh⟩ := (h.edge_iff he.1).mp he.2
    refine ⟨hy, ((h.owns x).mp he.1).2, ?_⟩
    by_cases hm : x' = m
    · subst hm
      exact Or.inr ⟨by rw [← hh, heir_self], hx', he'⟩
    · rw [heir_of_ne hm] at hh
      exact Or.inl ⟨hh ▸ hx', hh ▸ he'⟩

/-- **Dominance between blocks is dominance between their heirs.** -/
theorem dominates_heir (h : fn.Absorbs fn' b m fresh) (hc : fn.Closed)
    (hdom : fn.Dominates d x) : fn'.Dominates (heir b m d) (heir b m x) := by
  have ⟨r, hr, _⟩ := hdom
  have hr' : fn'.root = some r := h.root.trans hr
  have hcon := h.contracts hr
  rw [hc.dominates_iff_live hr] at hdom
  rw [(h.closed hc).dominates_iff_live hr']
  by_cases hx : x = m
  · subst hx
    -- what dominates `m` is `m` itself, or dominates `b`
    have hb : Relation.ReflTransGen fn.LiveEdge r b :=
      (hcon.pred_dominates hdom.reaches).reaches_left
    rw [heir_self]
    by_cases hd : d = x
    · rw [hd, heir_self]
      exact .refl (hcon.reaches hb h.ne)
    · rw [heir_of_ne hd]
      exact hcon.dominates hd h.ne (hcon.dominates_pred hdom hd hb)
  · rw [heir_of_ne hx]
    by_cases hd : d = m
    · subst hd
      rw [heir_self]
      exact hcon.dominates_of_removed hx hdom
    · rw [heir_of_ne hd]
      exact hcon.dominates hd hx hdom

theorem reaches (h : fn.Absorbs fn' b m fresh) (hc : fn.Closed) (hx : fn.Reaches x)
    (hm : x ≠ m) : fn'.Reaches x := by
  have hdom := h.dominates_heir hc (Dominates.refl hx)
  rw [heir_of_ne hm] at hdom
  exact hdom.reaches

/-! ### Definitions -/

theorem results_phis (h : fn.Absorbs fn' b m fresh) (hx : fn.owns x) (hm : x ≠ m) :
    (fn'.block x).phis.map Phi.result = (fn.block x).phis.map Phi.result := by
  have hall := h.phis x hx hm
  generalize (fn.block x).phis = ps at hall
  generalize (fn'.block x).phis = ps' at hall
  induction hall with
  | nil => rfl
  | cons hp _ ih => rw [List.map_cons, List.map_cons, hp.result, ih]

theorem definitions_of_ne (h : fn.Absorbs fn' b m fresh) (hx : fn.owns x) (hb : x ≠ b)
    (hm : x ≠ m) : (fn'.block x).definitions = (fn.block x).definitions := by
  rw [Block.definitions, Block.definitions, h.results_phis hx hm, h.instrs x hx hb hm]

/-- What a block defined is defined by its heir. -/
theorem mem_definitions_heir (h : fn.Absorbs fn' b m fresh) (hd : fn.owns d)
    (hv : v ∈ (fn.block d).definitions) : v ∈ (fn'.block (heir b m d)).definitions := by
  by_cases hm : d = m
  · subst hm
    rw [heir_self, h.definitions]
    simp [hv]
  · rw [heir_of_ne hm]
    by_cases hb : d = b
    · subst hb
      rw [h.definitions]
      simp [hv]
    · rwa [h.definitions_of_ne hd hb hm]

theorem owns_heir (h : fn.Absorbs fn' b m fresh) (hx : fn.owns x) : fn'.owns (heir b m x) := by
  rw [h.owns]
  by_cases hm : x = m
  · rw [hm, heir_self]
    exact ⟨h.owned.1, h.ne⟩
  · rw [heir_of_ne hm]
    exact ⟨hx, hm⟩

/-- A definition of the new function is fresh, or was one of a block whose heir now has it. -/
theorem mem_definitions (h : fn.Absorbs fn' b m fresh) (hx : fn'.owns x)
    (hv : v ∈ (fn'.block x).definitions) :
    (∃ d, fn.owns d ∧ v ∈ (fn.block d).definitions ∧ heir b m d = x) ∨ x = b ∧ v ∈ fresh := by
  obtain ⟨hown, hm⟩ := (h.owns x).mp hx
  by_cases hb : x = b
  · subst hb
    rw [h.definitions, List.mem_append, List.mem_append] at hv
    rcases hv with hv | hv | hv
    · exact Or.inl ⟨x, hown, hv, heir_of_ne hm⟩
    · exact Or.inl ⟨m, h.owned.2, hv, heir_self x m⟩
    · exact Or.inr ⟨rfl, hv⟩
  · rw [h.definitions_of_ne hown hb hm] at hv
    exact Or.inl ⟨x, hown, hv, heir_of_ne hm⟩

theorem defined (h : fn.Absorbs fn' b m fresh) (hv : fn.Defined v) : fn'.Defined v := by
  rcases hv with hv | ⟨d, hd, hv⟩
  · exact Or.inl (h.params ▸ hv)
  · exact Or.inr ⟨_, h.owns_heir hd, h.mem_definitions_heir hd hv⟩

theorem defined_fresh (h : fn.Absorbs fn' b m fresh) (hv : v ∈ fresh) : fn'.Defined v := by
  refine Or.inr ⟨b, (h.owns b).mpr ⟨h.owned.1, h.ne⟩, ?_⟩
  rw [h.definitions]
  simp [hv]

theorem defined_or_fresh (h : fn.Absorbs fn' b m fresh) (hv : fn'.Defined v) :
    fn.Defined v ∨ v ∈ fresh := by
  rcases hv with hp | ⟨d, hd, hvd⟩
  · exact Or.inl (Or.inl (h.params ▸ hp))
  · rcases h.mem_definitions hd hvd with ⟨e, he, hve, -⟩ | ⟨-, hvf⟩
    · exact Or.inl (Or.inr ⟨e, he, hve⟩)
    · exact Or.inr hvf

/-! ### Validity -/

theorem reads_block (h : fn.Absorbs fn' b m fresh) (hx : fn'.owns x)
    (hv : (fn'.block x).Reads v) : (∃ y, fn.owns y ∧ (fn.block y).Reads v) ∨ v ∈ fresh := by
  obtain ⟨hown, hm⟩ := (h.owns x).mp hx
  by_cases hb : x = b
  · subst hb
    rcases h.reads v hv with hv | hv | hv
    · exact Or.inl ⟨x, hown, hv⟩
    · exact Or.inl ⟨m, h.owned.2, hv⟩
    · exact Or.inr hv
  · refine Or.inl ⟨x, hown, ?_⟩
    rwa [Block.Reads, h.instrs x hown hb hm, h.term x hown hb hm] at hv

theorem exists_rerouted (h : fn.Absorbs fn' b m fresh) (hx : fn.owns x) (hm : x ≠ m) {p' : Phi}
    (hp' : p' ∈ (fn'.block x).phis) : ∃ p ∈ (fn.block x).phis, fn.Rerouted b m x p p' := by
  have hall := h.phis x hx hm
  generalize (fn.block x).phis = ps at hall
  generalize (fn'.block x).phis = ps' at hall hp'
  induction hall with
  | nil => exact absurd hp' (by simp)
  | @cons p _ ps _ hp _ ih =>
    rcases List.mem_cons.mp hp' with rfl | hp'
    · exact ⟨p, by simp, hp⟩
    · obtain ⟨q, hq, hr⟩ := ih hp'
      exact ⟨q, List.mem_cons_of_mem p hq, hr⟩

/-- A phi has inputs from the heirs of the predecessors that it had inputs from. -/
theorem input?_isSome_iff (h : fn.Absorbs fn' b m fresh) (hv : fn.Valid) (hx : fn'.owns x)
    {p' : Phi} (hp' : p' ∈ (fn'.block x).phis) {q : BlockId} :
    (p'.input? q).isSome ↔ fn'.owns q ∧ fn'.Edge q x := by
  obtain ⟨hown, hm⟩ := (h.owns x).mp hx
  obtain ⟨p, hp, hr⟩ := h.exists_rerouted hown hm hp'
  constructor
  · intro hq
    obtain ⟨q', hq', he, rfl⟩ := hr.source q hq
    exact ⟨h.owns_heir hq', (h.edge_iff (h.owns_heir hq')).mpr ⟨hm, q', hq', he, rfl⟩⟩
  · rintro ⟨hq, he⟩
    obtain ⟨-, q', hq', he', rfl⟩ := (h.edge_iff hq).mp he
    rw [hr.input q' hq' he', hv.inputs x hown p hp, hv.mem_preds_iff hown]
    exact ⟨hq', he'⟩

/-- The definitions that come together in `b` are different: those of `m` were in another block, and
the fresh ones nowhere. -/
theorem nodup_definitions (h : fn.Absorbs fn' b m fresh) (hv : fn.Valid) :
    (fn'.block b).definitions.Nodup := by
  rw [h.definitions]
  refine List.nodup_append.mpr ⟨hv.nodup_definitions b h.owned.1, List.nodup_append.mpr
    ⟨hv.nodup_definitions m h.owned.2, h.nodup_fresh, ?_⟩, ?_⟩
  · rintro v hvm _ hvf rfl
    exact h.not_defined v hvf (Or.inr ⟨m, h.owned.2, hvm⟩)
  · rintro v hvb _ hvy rfl
    rcases List.mem_append.mp hvy with hvm | hvf
    · exact h.ne (hv.unique_site b m v h.owned.1 h.owned.2 hvb hvm)
    · exact h.not_defined v hvf (Or.inr ⟨b, h.owned.1, hvb⟩)

theorem unique_site (h : fn.Absorbs fn' b m fresh) (hv : fn.Valid) (hx : fn'.owns x)
    (hy : fn'.owns y) (hvx : v ∈ (fn'.block x).definitions)
    (hvy : v ∈ (fn'.block y).definitions) : x = y := by
  rcases h.mem_definitions hx hvx with ⟨d, hd, hvd, rfl⟩ | ⟨rfl, hvx⟩
  · rcases h.mem_definitions hy hvy with ⟨e, he, hve, rfl⟩ | ⟨-, hvy⟩
    · rw [hv.unique_site d e v hd he hvd hve]
    · exact absurd (Or.inr ⟨d, hd, hvd⟩) (h.not_defined v hvy)
  · rcases h.mem_definitions hy hvy with ⟨e, he, hve, -⟩ | ⟨rfl, -⟩
    · exact absurd (Or.inr ⟨e, he, hve⟩) (h.not_defined v hvx)
    · rfl

/-- What is used was used before, or is fresh. -/
theorem exists_defined (h : fn.Absorbs fn' b m fresh) (hv : fn.Valid) (hx : fn'.owns x)
    {w : Option Value} (hw : w ∈ (fn'.block x).uses) : ∃ v, w = some v ∧ fn'.Defined v := by
  obtain ⟨hown, hm⟩ := (h.owns x).mp hx
  rcases Block.mem_uses_iff.mp hw with ⟨p', hp', hwp⟩ | ⟨v, rfl, hvr⟩
  · obtain ⟨p, hp, hr⟩ := h.exists_rerouted hown hm hp'
    obtain ⟨v, rfl, hvd⟩ := hv.defined x hown w
      (Block.mem_uses_iff.mpr (Or.inl ⟨p, hp, hr.operands w hwp⟩))
    exact ⟨v, rfl, h.defined hvd⟩
  · refine ⟨v, rfl, ?_⟩
    rcases h.reads_block hx hvr with ⟨y, hy, hvy⟩ | hvf
    · obtain ⟨v', hv', hvd⟩ := hv.defined y hy (some v)
        (Block.mem_uses_iff.mpr (Or.inr ⟨v, rfl, hvy⟩))
      obtain rfl : v = v' := by simpa using hv'
      exact h.defined hvd
    · exact h.defined_fresh hvf

/-- **A valid function stays valid.** That the new function is wired depends on how its predecessor
lists were edited, and is shown where that is done. -/
theorem valid (h : fn.Absorbs fn' b m fresh) (hv : fn.Valid) (hw : fn'.Wired) : fn'.Valid := by
  refine { hw with
    inputs := fun x hx p' hp' q => ?inputs
    nodup_definitions := fun x hx => ?nodup
    unique_site := fun x y v hx hy hvx hvy => h.unique_site hv hx hy hvx hvy
    not_param := fun x v hx hvx hp => ?param
    defined := fun x hx w hw' => h.exists_defined hv hx hw'
    reached := fun x hx => ?reached }
  case inputs =>
    rw [hw.mem_preds_iff hx]
    exact h.input?_isSome_iff hv hx hp'
  case nodup =>
    obtain ⟨hown, hm⟩ := (h.owns x).mp hx
    by_cases hb : x = b
    · rw [hb]
      exact h.nodup_definitions hv
    · rw [h.definitions_of_ne hown hb hm]
      exact hv.nodup_definitions x hown
  case param =>
    rw [h.params] at hp
    rcases h.mem_definitions hx hvx with ⟨d, hd, hvd, -⟩ | ⟨-, hvf⟩
    · exact hv.not_param d v hd hvd hp
    · exact h.not_defined v hvf (Or.inl hp)
  case reached =>
    obtain ⟨hown, hm⟩ := (h.owns x).mp hx
    exact h.reaches hv.closed (hv.reached x hown) hm

/-! ### Availability -/

theorem available (h : fn.Absorbs fn' b m fresh) (hc : fn.Closed) (hv : fn.Available x v) :
    fn'.Available (heir b m x) v := by
  rcases hv with hv | ⟨d, hd, hv, hdom⟩
  · exact Or.inl (h.params ▸ hv)
  · exact Or.inr ⟨_, h.owns_heir hd, h.mem_definitions_heir hd hv, h.dominates_heir hc hdom⟩

/-- What is known in a block stays known there. -/
theorem known (h : fn.Absorbs fn' b m fresh) (hc : fn.Closed) (hm : x ≠ m)
    (hv : fn.Known x earlier v) : fn'.Known x earlier v := by
  rcases hv with hv | hv | ⟨d, hne, hd, hv, hdom⟩
  · exact Or.inl (h.params ▸ hv)
  · exact Or.inr (Or.inl hv)
  · have hdom' := h.dominates_heir hc hdom
    rw [heir_of_ne hm] at hdom'
    refine Or.inr (Or.inr ⟨_, ?_, h.owns_heir hd, h.mem_definitions_heir hd hv, hdom'⟩)
    by_cases hdm : d = m
    · -- `m` cannot dominate `b`, which dominates it
      subst hdm
      rw [heir_self]
      rintro rfl
      have ⟨r, hr, _⟩ := hdom
      have hpred := (h.contracts hr).pred_dominates
        ((hc.dominates_iff_live hr).mp hdom).reaches_left
      exact h.ne (Dominates.antisymm ((hc.dominates_iff_live hr).mpr hpred) hdom)
    · rwa [heir_of_ne hdm]

/-- What is known in the absorbed block is known at the end of `b`. -/
theorem known_removed (h : fn.Absorbs fn' b m fresh) (hc : fn.Closed)
    (hv : fn.Known m earlier v) : fn'.Known b ((fn.block b).definitions ++ earlier) v := by
  rcases hv with hv | hv | ⟨d, hne, hd, hv, hdom⟩
  · exact Or.inl (h.params ▸ hv)
  · exact Or.inr (Or.inl (List.mem_append_right _ hv))
  · have hdom' := h.dominates_heir hc hdom
    rw [heir_of_ne hne, heir_self] at hdom'
    by_cases hdb : d = b
    · exact Or.inr (Or.inl (List.mem_append_left _ (hdb ▸ hv)))
    · have hmem := h.mem_definitions_heir hd hv
      rw [heir_of_ne hne] at hmem
      exact Or.inr (Or.inr ⟨d, hdb, (h.owns d).mpr ⟨hd, hne⟩, hmem, hdom'⟩)

/-- **Strict form is kept**, if the code that `b` gets keeps it. -/
theorem strict (h : fn.Absorbs fn' b m fresh) (hv : fn.Valid) (hs : fn.Strict)
    {extra : List Instr} (hcode : (fn'.block b).instrs = (fn.block b).instrs ++ extra)
    (hextra : ∀ before i after, extra = before ++ i :: after → ∀ v ∈ i.operands,
      fn'.Known b ((fn.block b).definitions ++ before.filterMap Instr.result?) v)
    (hterm : ∀ t, (fn'.block b).term = some t → ∀ v ∈ t.operands,
      fn'.Known b (fn'.block b).definitions v) : fn'.Strict := by
  refine ⟨fun x hx before i after hi v hvi => ?_, fun x hx t ht v hvt => ?_,
    fun x hx p' hp' q v hq => ?_⟩
  · obtain ⟨hown, hm⟩ := (h.owns x).mp hx
    rw [h.results_phis hown hm]
    by_cases hb : x = b
    · subst hb
      -- the instruction is an old one of the block, or one that it got
      rw [hcode, List.append_eq_append_iff] at hi
      rcases hi with ⟨before', rfl, hi⟩ | ⟨after', hinstrs, hi⟩
      · have hknown := hextra before' i after hi v hvi
        rwa [Block.definitions, List.append_assoc, ← List.filterMap_append] at hknown
      · cases after' with
        | nil =>
          rw [List.append_nil] at hinstrs
          subst hinstrs
          have hknown := hextra [] i after (by simpa using hi.symm) v hvi
          rwa [List.filterMap_nil, List.append_nil] at hknown
        | cons j after' =>
          obtain ⟨rfl, -⟩ : i = j ∧ _ := List.cons.inj hi
          exact h.known hv.closed hm (hs.instr x hown before i after' hinstrs v hvi)
    · rw [h.instrs x hown hb hm] at hi
      exact h.known hv.closed hm (hs.instr x hown before i after hi v hvi)
  · obtain ⟨hown, hm⟩ := (h.owns x).mp hx
    by_cases hb : x = b
    · subst hb
      exact hterm t ht v hvt
    · rw [h.term x hown hb hm] at ht
      rw [h.definitions_of_ne hown hb hm]
      exact h.known hv.closed hm (hs.term x hown t ht v hvt)
  · obtain ⟨hown, hm⟩ := (h.owns x).mp hx
    obtain ⟨p, hp, hr⟩ := h.exists_rerouted hown hm hp'
    obtain ⟨q', hq', he, rfl⟩ := hr.source q (by rw [hq]; rfl)
    rw [hr.input q' hq' he] at hq
    exact h.available hv.closed (hs.phi x hown p hp q' v hq)

end Absorbs

end Func

end BranchFusion
