import BranchFusion.Proofs.Pass.WellBuilt
import BranchFusion.Proofs.Source.Printed

/-!
# What passes put into blocks

A pass moves lines from block to block, drops some of them, and renames the blocks in its phis. All
that it adds is the conjunctions of folds. So whatever is in a function after a run, the values and
the functions it mentions, was in it before or is one of the new values
(`BranchFusion.Func.MadeFrom`).
-/

namespace BranchFusion

open Source (Item)

section Material

variable {fn fn' : Func} {new : List Value}

/-- A phi of `fn'` is made from one of `fn`: it has the same result, and no other values. -/
def Phi.MadeFrom (p' p : Phi) : Prop :=
  p'.result = p.result ∧ ∀ v, some v ∈ p'.operands → some v ∈ p.operands

theorem Phi.madeFrom_dropInput (p : Phi) (b : BlockId) : (p.dropInput b).MadeFrom p :=
  ⟨rfl, fun _ hv => mem_operands_dropInput hv⟩

theorem Phi.madeFrom_moveInput (p : Phi) (old new : BlockId) :
    (p.moveInput old new).MadeFrom p := by
  refine ⟨rfl, fun v hv => (mem_operands_moveInput hv).elim (fun hmoved => ?_) id⟩
  rw [hmoved]
  exact mem_operands_of_input? (input?_eq_valueFrom (by
    cases hinput : p.input? old with
    | none => simp [valueFrom, hinput] at hmoved
    | some w => rfl))

theorem Phi.MadeFrom.trans {p p' p'' : Phi} (h' : p''.MadeFrom p') (h : p'.MadeFrom p) :
    p''.MadeFrom p :=
  ⟨h'.1.trans h.1, fun v hv => h.2 v (h'.2 v hv)⟩

/-- **A line is made of what is in a function** and of new values. -/
structure Source.Item.Drawn (fn : Func) (new : List Value) (it : Item) : Prop where
  result : ∀ v ∈ it.results, v ∈ new ∨ ∃ b, fn.owns b ∧ v ∈ (fn.block b).definitions
  operand : ∀ v, some v ∈ it.operands → v ∈ new ∨ ∃ b, fn.owns b ∧ some v ∈ (fn.block b).uses
  callee : ∀ i, it = .instr i → ∀ f ∈ i.callee?,
    ∃ b i', fn.owns b ∧ i' ∈ (fn.block b).instrs ∧ f ∈ i'.callee?

/-- A line that was in the function. -/
theorem Source.Item.Drawn.of_mem {b : BlockId} (hb : fn.owns b) {it : Item}
    (hit : it ∈ (fn.block b).items) : it.Drawn fn new := by
  refine ⟨fun v hv => Or.inr ⟨b, hb, Block.mem_definitions hit hv⟩,
    fun v hv => Or.inr ⟨b, hb, Block.mem_uses hit hv⟩, ?_⟩
  rintro i rfl f hf
  exact ⟨b, i, hb, by simpa [Block.items] using hit, hf⟩

/-- **`fn'` is made from `fn`** and new values: its blocks have their labels, and hold what was in
blocks of `fn`. -/
structure Func.MadeFrom (fn' fn : Func) (new : List Value) : Prop where
  name : fn'.name = fn.name
  params : fn'.params = fn.params
  label : ∀ b, fn'.label b = fn.label b
  item : ∀ b, fn'.owns b → ∀ it ∈ (fn'.block b).items, it.Drawn fn new

/-- The lines of a block are its phis, its instructions and its terminator. -/
theorem Func.MadeFrom.of_blocks (hname : fn'.name = fn.name) (hparams : fn'.params = fn.params)
    (hlabel : ∀ b, fn'.label b = fn.label b)
    (hphi : ∀ b, fn'.owns b → ∀ p' ∈ (fn'.block b).phis,
      ∃ c p, fn.owns c ∧ p ∈ (fn.block c).phis ∧ p'.MadeFrom p)
    (hinstr : ∀ b, fn'.owns b → ∀ i ∈ (fn'.block b).instrs,
      Item.Drawn fn new (.instr i) ∨ ∃ c, fn.owns c ∧ i ∈ (fn.block c).instrs)
    (hterm : ∀ b, fn'.owns b → ∀ t, (fn'.block b).term = some t →
      Item.Drawn fn new (.term t) ∨ ∃ c, fn.owns c ∧ (fn.block c).term = some t) :
    fn'.MadeFrom fn new := by
  refine ⟨hname, hparams, hlabel, fun b hb it hit => ?_⟩
  simp only [Block.items, List.mem_append, List.mem_map, Option.mem_toList] at hit
  rcases hit with (⟨p', hp', rfl⟩ | ⟨i, hi, rfl⟩) | ⟨t, ht, rfl⟩
  · obtain ⟨c, p, hc, hp, hresult, hoperands⟩ := hphi b hb p' hp'
    have hdrawn : Item.Drawn fn new (.phi p) := .of_mem hc (by simpa [Block.items] using hp)
    refine ⟨fun v hv => hdrawn.result v ?_, fun v hv => hdrawn.operand v (hoperands v hv), ?_⟩
    · rwa [Item.results, hresult] at hv
    · rintro i ⟨⟩
  · rcases hinstr b hb i hi with hdrawn | ⟨c, hc, hi⟩
    · exact hdrawn
    · exact .of_mem hc (by simpa [Block.items] using hi)
  · rcases hterm b hb t ht with hdrawn | ⟨c, hc, ht⟩
    · exact hdrawn
    · exact .of_mem hc (by simp [Block.items, ht])

/-- **What a fold puts into blocks**: the one new value is the conjunction, which reads what the two
branches read. -/
theorem NestedIf.Folded.madeFrom {b : BlockId} {n : Nest} {cond : Value}
    (h : Folded fn fn' b n cond) (hf : Found fn b n) (hw : fn.Wired) (hb : fn.owns b) :
    fn'.MadeFrom fn [cond] := by
  have hread : ∀ {x v c d}, fn.owns x → (fn.block x).term = some (.branch v c d) →
      ∃ y, fn.owns y ∧ some v ∈ (fn.block y).uses := by
    intro x v c d hx hterm
    have hline : Item.term (.branch v c d) ∈ (fn.block x).items := by simp [Block.items, hterm]
    exact ⟨x, hx, Block.mem_uses hline (by simp [Item.operands, Terminator.operands])⟩
  refine .of_blocks h.name h.params h.label (fun x hx p' hp' => ?_) (fun x hx i hi => ?_)
    fun x hx t hterm => ?_
  all_goals obtain ⟨hxo, hxm⟩ := (h.owns x).mp hx
  · rw [h.phis x hxm] at hp'
    obtain ⟨p, hp, rfl⟩ := List.mem_map.mp hp'
    refine ⟨x, p, hxo, hp, ?_⟩
    have hmove : (if x = n.target then p.moveInput n.middle b else p).MadeFrom p := by
      split
      · exact p.madeFrom_moveInput n.middle b
      · exact ⟨rfl, fun _ hv => hv⟩
    rw [reroute]
    split
    · exact (Phi.madeFrom_dropInput _ _).trans hmove
    · exact hmove
  · rw [h.instrs x hxm] at hi
    split at hi
    · rcases List.mem_append.mp hi with hi | hi
      · exact Or.inr ⟨b, hb, hi⟩
      · rw [List.mem_singleton.mp hi]
        refine Or.inl ⟨?_, fun v hv => Or.inr ?_, ?_⟩
        · simp [Item.results, Instr.result?]
        · have hv' : v = n.outer ∨ v = n.inner := by
            simpa [Item.operands, Instr.operands] using hv
          rcases hv' with rfl | rfl
          · exact hread hb hf.outer_term
          · exact hread (hf.owned hw hb).1 hf.inner_term
        · rintro i ⟨⟩
          simp [Instr.callee?]
    · exact Or.inr ⟨x, hxo, hi⟩
  · rw [h.term x hxm] at hterm
    split at hterm
    · rw [← Option.some.inj hterm]
      refine Or.inl ⟨by simp [Item.results], fun v hv => Or.inl ?_, ?_⟩
      · simpa [Item.operands, Terminator.operands] using hv
      · rintro i ⟨⟩
    · exact Or.inr ⟨x, hxo, hterm⟩

theorem BlockMerge.Merged.madeFrom {b m : BlockId} (h : Merged fn fn' b m)
    (hm : Mergeable fn b m) (hw : fn.Wired) (hb : fn.owns b) : fn'.MadeFrom fn [] := by
  have hown := hm.owned hw hb
  refine .of_blocks h.name h.params h.label (fun x hx p' hp' => ?_) (fun x hx i hi => ?_)
    fun x hx t hterm => ?_
  all_goals obtain ⟨hxo, hxm⟩ := (h.owns x).mp hx
  · rw [h.phis x hxm] at hp'
    split at hp'
    · obtain ⟨p, hp, rfl⟩ := List.mem_map.mp hp'
      exact ⟨x, p, hxo, hp, p.madeFrom_moveInput m b⟩
    · exact ⟨x, p', hxo, hp', rfl, fun _ hv => hv⟩
  · rw [h.instrs x hxm] at hi
    split at hi
    · rcases List.mem_append.mp hi with hi | hi
      · exact Or.inr ⟨b, hb, hi⟩
      · exact Or.inr ⟨m, hown, hi⟩
    · exact Or.inr ⟨x, hxo, hi⟩
  · rw [h.term x hxm] at hterm
    split at hterm
    · exact Or.inr ⟨m, hown, hterm⟩
    · exact Or.inr ⟨x, hxo, hterm⟩

theorem DeadCode.madeFrom_round : (round fn).MadeFrom fn [] := by
  have hlabel : ∀ b, (round fn).label b = fn.label b := fun b => by
    rw [Func.label, Func.label, round_field Block.label fun _ => rfl]
  refine .of_blocks rfl rfl hlabel (fun b hb p hp => ?_) (fun b hb i hi => ?_)
    fun b hb t hterm => ?_
  all_goals rw [owns_round] at hb
  · rw [block_round hb] at hp
    exact ⟨b, p, hb, (List.mem_filter.mp hp).1, rfl, fun _ hv => hv⟩
  · rw [block_round hb] at hi
    exact Or.inr ⟨b, hb, (List.mem_filter.mp hi).1⟩
  · rw [term_round] at hterm
    exact Or.inr ⟨b, hb, hterm⟩

end Material

end BranchFusion
