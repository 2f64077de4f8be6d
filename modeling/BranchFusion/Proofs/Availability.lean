import BranchFusion.Proofs.Dominance.Tree
import BranchFusion.Proofs.Validity

/-!
# Strict single-assignment form

A value is *available* at the end of a block (`BranchFusion.Func.Available`) when it is a parameter
or is defined in a block that dominates it, itself included: whatever way control took to get there,
it has been set. Inside a block, what is *known* at an instruction (`BranchFusion.Func.Known`) is
what comes in and what the block has defined so far.

A function is in *strict* form (`BranchFusion.Func.Strict`) when instructions and terminators use
only what is known where they stand, and a phi uses for a predecessor only what is available at the
end of it. The verifier does not check this, and no pass depends on it to keep a function valid; but
it is what makes a fold safe when nobody asks for the dominators.

Of a valid function it can be checked place by place, with the dominator tree at hand
(`BranchFusion.Func.Valid.strict_of_places`).
-/

namespace BranchFusion

namespace Func

variable {fn : Func} {b d : BlockId} {v : Value} {earlier later : List Value}

/-- **Available at the end of a block**: a parameter, or defined in a block that dominates it. -/
def Available (fn : Func) (b : BlockId) (v : Value) : Prop :=
  v ∈ fn.params ∨ ∃ d, fn.owns d ∧ v ∈ (fn.block d).definitions ∧ fn.Dominates d b

/-- **Known inside a block** after some definitions of the block: a parameter, one of these
definitions, or defined in another block that dominates this one. -/
def Known (fn : Func) (b : BlockId) (earlier : List Value) (v : Value) : Prop :=
  v ∈ fn.params ∨ v ∈ earlier ∨
    ∃ d, d ≠ b ∧ fn.owns d ∧ v ∈ (fn.block d).definitions ∧ fn.Dominates d b

theorem known_append_iff :
    fn.Known b (earlier ++ later) v ↔ fn.Known b earlier v ∨ v ∈ later := by
  rw [Known, Known, List.mem_append, or_right_comm, ← or_assoc]

/-- **Strict form**: every use is dominated by its definition. -/
structure Strict (fn : Func) : Prop where
  /-- An instruction uses what the phis and the instructions before it define, and what comes in. -/
  instr : ∀ b, fn.owns b → ∀ before i after, (fn.block b).instrs = before ++ i :: after →
    ∀ v ∈ i.operands,
      fn.Known b ((fn.block b).phis.map Phi.result ++ before.filterMap Instr.result?) v
  term : ∀ b, fn.owns b → ∀ t, (fn.block b).term = some t →
    ∀ v ∈ t.operands, fn.Known b (fn.block b).definitions v
  /-- What a phi uses for a predecessor is available at the end of that predecessor. -/
  phi : ∀ b, fn.owns b → ∀ p ∈ (fn.block b).phis, ∀ q v,
    p.input? q = some (some v) → fn.Available q v

/-! ### Checking strict form -/

/-- What is known inside a block, as far as a dominator tree shows it. -/
def KnownBy (fn : Func) (tree : DominatorTree) (b : BlockId) (earlier : List Value) (v : Value) :
    Prop :=
  v ∈ fn.params ∨ v ∈ earlier ∨
    ∃ d ∈ fn.ids, d ≠ b ∧ v ∈ (fn.block d).definitions ∧ tree.dominates d b = true

instance (tree : DominatorTree) : Decidable (fn.KnownBy tree b earlier v) :=
  inferInstanceAs (Decidable (_ ∨ _ ∨ ∃ d ∈ fn.ids, _))

theorem known_of_knownBy (hclosed : fn.Closed) (hb : fn.owns b)
    (h : fn.KnownBy (DominatorTree.build fn) b earlier v) : fn.Known b earlier v := by
  rcases h with h | h | ⟨d, hd, hne, hv, hdom⟩
  · exact Or.inl h
  · exact Or.inr (Or.inl h)
  · exact Or.inr (Or.inr ⟨d, hne, mem_ids.mp hd, hv,
      (DominatorTree.dominates_build_iff hclosed (func_of_owns hb)).mp hdom⟩)

/-- What is known at the end of a block that is reached is available there. -/
theorem Known.available (h : fn.Known b (fn.block b).definitions v) (hb : fn.owns b)
    (hreach : fn.Reaches b) : fn.Available b v := by
  rcases h with h | h | ⟨d, -, hd, hv, hdom⟩
  · exact Or.inl h
  · exact Or.inr ⟨b, hb, h, .refl hreach⟩
  · exact Or.inr ⟨d, hd, hv, hdom⟩

/-- **Strict form can be checked**, by going through the uses of each live block. -/
theorem Valid.strict_of_places (h : fn.Valid)
    (hinstr : ∀ b ∈ fn.ids, ∀ n < (fn.block b).instrs.length, ∀ i ∈ (fn.block b).instrs[n]?,
      ∀ v ∈ i.operands, fn.KnownBy (DominatorTree.build fn) b ((fn.block b).phis.map Phi.result ++
        ((fn.block b).instrs.take n).filterMap Instr.result?) v)
    (hterm : ∀ b ∈ fn.ids, ∀ t ∈ (fn.block b).term, ∀ v ∈ t.operands,
      fn.KnownBy (DominatorTree.build fn) b (fn.block b).definitions v)
    (hphi : ∀ b ∈ fn.ids, ∀ p ∈ (fn.block b).phis, ∀ e ∈ p.inputs, ∀ v ∈ e.2,
      fn.KnownBy (DominatorTree.build fn) e.1 (fn.block e.1).definitions v) : fn.Strict := by
  constructor
  case instr =>
    intro b hb before i after hcode v hv
    have hplace := hinstr b (mem_ids.mpr hb) before.length (by simp [hcode]) i (by simp [hcode])
      v hv
    rw [hcode, List.take_left] at hplace
    exact known_of_knownBy h.closed hb hplace
  case term =>
    intro b hb t ht v hv
    exact known_of_knownBy h.closed hb (hterm b (mem_ids.mpr hb) t ht v hv)
  case phi =>
    intro b hb p hp q v hq
    -- the input is for a predecessor, which is live and so it is reached
    have hpred := (h.inputs b hb p hp q).mp (by simp [hq])
    have hown := ((h.mem_preds_iff hb).mp hpred).1
    have hplace := hphi b (mem_ids.mpr hb) p hp (q, some v) (Table.mem_of_get? hq) v rfl
    exact (known_of_knownBy h.closed hown hplace).available hown (h.reached q hown)

end Func

end BranchFusion
