import BranchFusion.Proofs.Validity
import BranchFusion.Source.Printer

/-!
# Functions that differ in numbers only

Blocks and values are told apart by numbers, and a text does not show the numbers. So what can be
expected of a function that was printed and read back is that it is the same up to numbers: a *copy*
of it (`BranchFusion.Func.Copies`), with other blocks in place of its blocks and other values in
place of its values, but with the labels and the names that these had.

A copy has the same text (`BranchFusion.Func.Copies.text_eq`). The order of a predecessor list
depends on the order in which edges were drawn, so the lists of a copy are the same up to order; if
both functions are wired this need not be checked
(`BranchFusion.Func.preds_perm_of_wired`).
-/

namespace BranchFusion

section Rename

variable (β : BlockId → BlockId) (ν : Value → Value)

/-- A phi with other blocks and values. -/
def Phi.rename (p : Phi) : Phi := ⟨ν p.result, p.inputs.map fun e => (β e.1, e.2.map ν)⟩

/-- An instruction with other values. -/
def Instr.rename : Instr → Instr
  | .const r w => .const (ν r) w
  | .binary r op x y => .binary (ν r) op (ν x) (ν y)
  | .call r f args => .call (r.map ν) f (args.map ν)

/-- A terminator with other blocks and values. -/
def Terminator.rename : Terminator → Terminator
  | .jump c => .jump (β c)
  | .branch v c d => .branch (ν v) (β c) (β d)
  | .switch v d cases => .switch (ν v) (β d) (cases.map fun e => (e.1, β e.2))
  | .ret vs => .ret (vs.map ν)

variable {β ν}

theorem Terminator.successors_rename (t : Terminator) :
    (t.rename β ν).successors = t.successors.map β := by
  cases t with
  | switch v d cases =>
    simp only [rename, successors_switch, List.map_append, List.map_map, List.map_singleton]
    rfl
  | _ => rfl

/-! ### Texts -/

variable {label label' : BlockId → String} (hname : ∀ v, (ν v).name = v.name)

include hname

theorem Value.text_rename (v : Value) : (ν v).text = v.text := by
  rw [text, text, hname]

theorem Phi.text_rename {p : Phi} (h : ∀ e ∈ p.inputs, label' (β e.1) = label e.1) :
    (p.rename β ν).text label' = p.text label := by
  have hvalue : ∀ u : Option Value, Value.textOf? (u.map ν) = Value.textOf? u := by
    rintro (_ | v)
    · rfl
    · exact Value.text_rename hname v
  rw [text, text, rename, Value.text_rename hname, List.map_map]
  congr 2
  refine List.map_congr_left fun e he => ?_
  simp only [Function.comp_apply, hvalue, h e he]

theorem Instr.text_rename (i : Instr) : (i.rename ν).text = i.text := by
  cases i with
  | const r w => rw [rename, text, text, Value.text_rename hname]
  | binary r op x y => simp only [rename, text, Value.text_rename hname]
  | call r f args =>
    cases r with
    | none =>
      simp only [rename, text, Option.map_none, Value.text_rename hname, List.map_map,
        Function.comp_def]
    | some v =>
      simp only [rename, text, Option.map_some, Value.text_rename hname, List.map_map,
        Function.comp_def]

theorem Terminator.text_rename {t : Terminator}
    (h : ∀ c ∈ t.successors, label' (β c) = label c) :
    (t.rename β ν).text label' = t.text label := by
  cases t with
  | jump c => rw [rename, text, text, h c (by simp)]
  | branch v c d =>
    rw [rename, text, text, Value.text_rename hname, h c (by simp), h d (by simp)]
  | switch v d cases =>
    rw [successors_switch, List.forall_mem_append, List.forall_mem_map] at h
    rw [rename, text, text, Value.text_rename hname, h.2 d (by simp), List.map_map]
    congr 3
    refine List.map_congr_left fun e he => ?_
    simp only [Function.comp_apply, h.1 e he]
  | ret vs =>
    cases vs with
    | nil => rfl
    | cons v vs =>
      simp only [rename, List.map_cons, text, Value.text_rename hname, List.map_map,
        Function.comp_def]

end Rename

namespace Func

variable {fn fn' : Func} {β : BlockId → BlockId} {ν : Value → Value}

/-- **`fn'` is a copy of `fn`**, with the block `β b` for a live block `b` and the value `ν v` for a
value `v`: it has the same name, parameters, live blocks in the same order, labels, phis,
instructions and terminators, and the same predecessors up to order. -/
structure Copies (β : BlockId → BlockId) (ν : Value → Value) (fn fn' : Func) : Prop where
  name : fn'.name = fn.name
  params : fn'.params = fn.params.map ν
  root : fn'.root = fn.root.map β
  ids : fn'.ids = fn.ids.map β
  label : ∀ b, fn.owns b → fn'.label (β b) = fn.label b
  phis : ∀ b, fn.owns b → (fn'.block (β b)).phis = (fn.block b).phis.map (Phi.rename β ν)
  instrs : ∀ b, fn.owns b → (fn'.block (β b)).instrs = (fn.block b).instrs.map (Instr.rename ν)
  term : ∀ b, fn.owns b → (fn'.block (β b)).term = (fn.block b).term.map (Terminator.rename β ν)
  preds : ∀ b, fn.owns b → (fn'.block (β b)).preds.Perm ((fn.block b).preds.map β)
  block_inj : ∀ b c, fn.owns b → fn.owns c → β b = β c → b = c
  value_inj : ∀ v w, fn.Defined v → fn.Defined w → ν v = ν w → v = w
  valueName : ∀ v, (ν v).name = v.name

/-- **Isomorphic functions**: one is a copy of the other. -/
def Isomorphic (fn fn' : Func) : Prop := ∃ β ν, Copies β ν fn fn'

/-- **A copy has the same text**, if the blocks that are mentioned are live. -/
theorem Copies.text_eq (h : Copies β ν fn fn')
    (hinputs : ∀ b, fn.owns b → ∀ p ∈ (fn.block b).phis, ∀ e ∈ p.inputs, fn.owns e.1)
    (hsucc : ∀ b c, fn.owns b → fn.Edge b c → fn.owns c) : fn'.text = fn.text := by
  have hheader : fn'.headerLine = fn.headerLine := by
    have htext : (fun v => (ν v).text) = Value.text :=
      funext fun v => Value.text_rename h.valueName v
    rw [headerLine, headerLine, h.name, h.params, List.map_map, Function.comp_def, htext]
  have hblock : ∀ b, fn.owns b → fn'.blockLines (β b) = fn.blockLines b := by
    intro b hb
    have hphis : ((fn.block b).phis.map (Phi.rename β ν)).map (Phi.text fn'.label) =
        (fn.block b).phis.map (Phi.text fn.label) := by
      rw [List.map_map]
      refine List.map_congr_left fun p hp => Phi.text_rename h.valueName fun e he => ?_
      exact h.label e.1 (hinputs b hb p hp e he)
    have hinstrs : ((fn.block b).instrs.map (Instr.rename ν)).map Instr.text =
        (fn.block b).instrs.map Instr.text := by
      rw [List.map_map]
      exact List.map_congr_left fun i _ => Instr.text_rename h.valueName i
    rw [blockLines, blockLines, h.phis b hb, h.instrs b hb, h.term b hb, hphis, hinstrs]
    cases ht : (fn.block b).term with
    | none => rfl
    | some t =>
      have htext : (t.rename β ν).text fn'.label = t.text fn.label := by
        refine Terminator.text_rename h.valueName fun c hc => h.label c (hsucc b c hb ?_)
        rwa [Edge, Func.successors, Block.successors, Block.edges, ht]
      simp only [Option.map_some, htext]
  rw [text, text, textLines, textLines, hheader, h.ids, List.flatMap_map]
  congr 3
  refine List.flatMap_congr fun b hb => ?_
  have hb' := mem_ids.mp hb
  simp only [h.label b hb', hblock b hb']

/-! ### Predecessors -/

/-- What occurs in a list occurs as often after renaming, if it is not confused with another. -/
theorem count_map_eq {α γ : Type} [DecidableEq α] [DecidableEq γ] {f : α → γ} {a : α} {l : List α}
    (h : ∀ x ∈ l, f x = f a → x = a) : (l.map f).count (f a) = l.count a := by
  rw [List.count, List.countP_map, List.count]
  refine List.countP_congr fun x hx => ?_
  simp only [Function.comp_apply, beq_iff_eq]
  exact ⟨h x hx, fun hxa => by rw [hxa]⟩

/-- **The predecessor lists of wired functions agree up to order** if their terminators agree. -/
theorem preds_perm_of_wired (h : fn.Wired) (h' : fn'.Wired) (hids : fn'.ids = fn.ids.map β)
    (hterm : ∀ b, fn.owns b →
      (fn'.block (β b)).term = (fn.block b).term.map (Terminator.rename β ν))
    (hinj : ∀ b c, fn.owns b → fn.owns c → β b = β c → b = c) {b : BlockId} (hb : fn.owns b) :
    (fn'.block (β b)).preds.Perm ((fn.block b).preds.map β) := by
  have howns : ∀ {c}, fn.owns c → fn'.owns (β c) := by
    intro c hc
    rw [← mem_ids, hids]
    exact List.mem_map_of_mem (mem_ids.mpr hc)
  have hsucc : ∀ {c}, fn.owns c → fn'.successors (β c) = (fn.successors c).map β := by
    intro c hc
    rw [Func.successors, Block.successors, Block.edges, hterm c hc, Func.successors,
      Block.successors, Block.edges]
    cases (fn.block c).term with
    | none => rfl
    | some t => exact t.successors_rename
  rw [List.perm_iff_count]
  intro p'
  rw [h'.preds (β b) (howns hb)]
  split
  · next hp' =>
    -- a live block of the copy comes from a live block, and edges are counted there
    rw [← mem_ids, hids] at hp'
    obtain ⟨p, hp, rfl⟩ := List.mem_map.mp hp'
    have hp := mem_ids.mp hp
    have hedges : ((fn.successors p).map β).count (β b) = (fn.successors p).count b :=
      count_map_eq fun x hx => hinj x b (h.successors p x hp hx) hb
    have hpreds : ((fn.block b).preds.map β).count (β p) = (fn.block b).preds.count p :=
      count_map_eq fun x hx => hinj x p ((h.mem_preds_iff hb).mp hx).1 hp
    rw [hsucc hp, hedges, hpreds, h.preds b hb, if_pos hp]
  · next hp' =>
    -- other blocks are in no predecessor list
    refine (List.count_eq_zero.mpr fun hmem => hp' ?_).symm
    obtain ⟨p, hp, rfl⟩ := List.mem_map.mp hmem
    exact howns ((h.mem_preds_iff hb).mp hp).1

end Func

end BranchFusion
