import BranchFusion.Dominance.Tree
import BranchFusion.Proofs.Isomorphism
import Mathlib.Data.List.Basic

/-!
# Functions with other values

Values are numbered in the order in which they are first mentioned, so a small change in a text can
number them in another way. Here is what it means to put other values in the place of the values of
a function (`BranchFusion.Func.rename`), and what does not notice: the blocks, their labels and
order, the edges and all that is computed from edges, and the measure.

Two functions are *twins* (`BranchFusion.Func.Twin`) if one has other values in place of the values
of the other, by a map that confuses no two values and keeps their names. The table of values may be
in another order. Twins have the same text (`BranchFusion.Func.Twin.text_eq`).
-/

namespace BranchFusion

theorem contains_map {α : Type} [BEq α] [LawfulBEq α] {f : α → α} (hf : Function.Injective f)
    (l : List α) (x : α) : (l.map f).contains (f x) = l.contains x := by
  rw [Bool.eq_iff_iff, List.contains_iff_mem, List.contains_iff_mem,
    List.mem_map_of_injective hf]

/-! ### Tables with other keys and entries -/

namespace Table

variable {κ κ' ι ι' : Type} [DecidableEq κ] [DecidableEq κ'] {f : κ → κ'} {g : ι → ι'}
  (hf : Function.Injective f) (t : Table κ ι) (k : κ)

include hf

theorem get?_map : get? (t.map (Prod.map f g)) (f k) = (get? t k).map g := by
  induction t with
  | nil => rfl
  | cons e t ih =>
    simp only [get?, List.map_cons, List.find?_cons, Prod.map_fst, hf.eq_iff] at ih ⊢
    split
    · rfl
    · exact ih

theorem has_map : has (t.map (Prod.map f g)) (f k) = has t k := by
  simp only [has, List.any_map, Function.comp_def, Prod.map_fst, hf.eq_iff]

theorem erase_map : erase (f k) (t.map (Prod.map f g)) = (erase k t).map (Prod.map f g) := by
  simp only [erase, List.filter_map, Function.comp_def, Prod.map_fst, hf.eq_iff]

theorem insert_map {precedes : κ → κ → Bool} {precedes' : κ' → κ' → Bool}
    (hprecedes : ∀ a b, precedes' (f a) (f b) = precedes a b) (x : ι) :
    insert precedes' (f k) (g x) (t.map (Prod.map f g)) =
      (insert precedes k x t).map (Prod.map f g) := by
  induction t with
  | nil => rfl
  | cons e t ih =>
    simp only [List.map_cons, insert, Prod.map_fst, Prod.map_snd, hf.eq_iff, hprecedes, ih]
    split
    · rfl
    · split <;> rfl

theorem set_map (x : ι) : set (f k) (g x) (t.map (Prod.map f g)) =
    (set k x t).map (Prod.map f g) :=
  insert_map hf t k (fun _ _ => rfl) x

/-- The table of the last place of each key, with other keys. -/
theorem sites_map {ks : ι → List κ} {ks' : ι → List κ'} (hks : ∀ x, ks' x = (ks x).map f)
    (xs : List ι) : ∀ t : Table κ ι,
    xs.foldl (fun t x => (ks' x).foldl (fun t k => set k x t) t) (t.map (Prod.map f id)) =
      (xs.foldl (fun t x => (ks x).foldl (fun t k => set k x t) t) t).map (Prod.map f id) := by
  have hsetAll : ∀ (x : ι) (l : List κ) (t : Table κ ι),
      (l.map f).foldl (fun t k => set k x t) (t.map (Prod.map f id)) =
        (l.foldl (fun t k => set k x t) t).map (Prod.map f id) := by
    intro x l
    induction l with
    | nil => exact fun _ => rfl
    | cons k l ih =>
      intro t
      have hset : set (f k) x (t.map (Prod.map f id)) = (set k x t).map (Prod.map f id) :=
        set_map (g := id) hf t k x
      rw [List.map_cons, List.foldl_cons, List.foldl_cons, hset, ih]
  induction xs with
  | nil => exact fun _ => rfl
  | cons x xs ih =>
    intro t
    rw [List.foldl_cons, List.foldl_cons, hks, hsetAll, ih]

end Table

/-! ### Phis, instructions and terminators -/

section Parts

variable (ν : Value → Value)

namespace Phi

variable (p : Phi) (b old new : BlockId) (v : Option Value)

theorem input?_rename : (p.rename id ν).input? b = (p.input? b).map (Option.map ν) :=
  Table.get?_map Function.injective_id p.inputs b

theorem valueFrom_rename : (p.rename id ν).valueFrom b = (p.valueFrom b).map ν := by
  rw [valueFrom, valueFrom, input?_rename]
  cases p.input? b <;> rfl

theorem has_rename : (p.rename id ν).inputs.has b = p.inputs.has b :=
  Table.has_map Function.injective_id p.inputs b

theorem keys_rename : (p.rename id ν).inputs.keys = p.inputs.keys :=
  List.map_map

theorem setInput_rename :
    (p.rename id ν).setInput b (v.map ν) = (p.setInput b v).rename id ν :=
  congrArg (Phi.mk (ν p.result))
    (Table.insert_map Function.injective_id p.inputs b (fun _ _ => rfl) v)

theorem dropInput_rename : (p.rename id ν).dropInput b = (p.dropInput b).rename id ν :=
  congrArg (Phi.mk (ν p.result)) (Table.erase_map Function.injective_id p.inputs b)

theorem moveInput_rename :
    (p.rename id ν).moveInput old new = (p.moveInput old new).rename id ν := by
  rw [moveInput, valueFrom_rename, setInput_rename, dropInput_rename, moveInput]

theorem operands_rename : (p.rename id ν).operands = p.operands.map (Option.map ν) := by
  rw [operands, operands, rename, List.map_map, List.map_map]
  rfl

end Phi

namespace Instr

variable (i : Instr)

theorem result?_rename : (i.rename ν).result? = i.result?.map ν := by
  cases i <;> rfl

theorem operands_rename : (i.rename ν).operands = i.operands.map ν := by
  cases i <;> rfl

theorem isPure_rename : (i.rename ν).isPure = i.isPure := by
  cases i <;> rfl

end Instr

namespace Terminator

variable (t : Terminator)

theorem edges_rename : (t.rename id ν).edges = t.edges := by
  cases t with
  | switch v d cases => simp [rename, edges]
  | _ => rfl

theorem operands_rename : (t.rename id ν).operands = t.operands.map ν := by
  cases t <;> rfl

variable {ν}

/-- If no two values are confused, no two terminators are. -/
theorem rename_injective (hν : Function.Injective ν) :
    Function.Injective (Terminator.rename id ν) := by
  intro t u h
  cases t <;> cases u <;>
    simp_all [rename, hν.eq_iff, List.map_inj_right fun _ _ h => hν h]

end Terminator

/-- A block with other values. -/
def Block.rename (bb : Block) : Block :=
  { bb with
    phis := bb.phis.map (Phi.rename id ν), instrs := bb.instrs.map (Instr.rename ν)
    term := bb.term.map (Terminator.rename id ν) }

namespace Block

variable (bb : Block)

theorem size_rename : (bb.rename ν).size = bb.size := by
  simp only [size, rename, List.length_map, Option.isSome_map]

theorem edges_rename : (bb.rename ν).edges = bb.edges := by
  rw [edges, edges, rename]
  cases bb.term with
  | none => rfl
  | some t => exact t.edges_rename ν

theorem successors_rename : (bb.rename ν).successors = bb.successors := by
  rw [successors, edges_rename, successors]

theorem definitions_rename : (bb.rename ν).definitions = bb.definitions.map ν := by
  simp only [definitions, rename, List.map_append, List.map_map, List.filterMap_map,
    List.map_filterMap, Function.comp_def, Instr.result?_rename]
  rfl

theorem uses_rename : (bb.rename ν).uses = bb.uses.map (Option.map ν) := by
  have hphis : (bb.phis.map (Phi.rename id ν)).flatMap Phi.operands =
      (bb.phis.flatMap Phi.operands).map (Option.map ν) := by
    simp only [List.flatMap_map, List.map_flatMap, Phi.operands_rename]
  have hinstrs :
      (bb.instrs.map (Instr.rename ν)).flatMap (fun i => i.operands.map Reference.value?) =
        (bb.instrs.flatMap fun i => i.operands.map Reference.value?).map (Option.map ν) := by
    simp only [List.flatMap_map, List.map_flatMap, Instr.operands_rename, List.map_map]
    rfl
  rw [uses, uses, rename, hphis, hinstrs, List.map_append, List.map_append]
  cases bb.term with
  | none => rfl
  | some t => simp [Terminator.operands_rename]

theorem append_rename (i : Instr) :
    (bb.rename ν).append (i.rename ν) = (bb.append i).rename ν := by
  simp [append, rename]

end Block

end Parts

/-! ### Functions -/

namespace Func

variable (ν : Value → Value) (vs : Array Value) (fn : Func) (b : BlockId)

/-- **A function with other values**, and another table of values. -/
def rename : Func :=
  { fn with
    params := fn.params.map ν, blocks := fn.blocks.map (Block.rename ν)
    guests := fn.guests.map (Prod.map id (Block.rename ν)), values := vs }

theorem block?_rename : (fn.rename ν vs).block? b = (fn.block? b).map (Block.rename ν) := by
  rw [block?, block?]
  split
  · next h => rw [if_pos (show b.func = fn.serial from h)]; exact Array.getElem?_map
  · next h =>
    rw [if_neg (show ¬b.func = fn.serial from h)]
    exact Table.get?_map Function.injective_id fn.guests b

theorem block_rename : (fn.rename ν vs).block b = (fn.block b).rename ν := by
  rw [block, block?_rename, block]
  cases fn.block? b <;> rfl

theorem label_rename : (fn.rename ν vs).label b = fn.label b := by
  rw [label, label, block_rename]
  rfl

theorem liveAt?_rename : (fn.rename ν vs).liveAt? = fn.liveAt? := by
  funext i
  simp only [liveAt?, rename, Array.getElem?_map]
  cases fn.blocks[i]? <;> rfl

theorem owns_rename : (fn.rename ν vs).owns b = fn.owns b := by
  rw [owns, owns, liveAt?_rename]

theorem ids_rename : (fn.rename ν vs).ids = fn.ids := by
  rw [ids, ids, liveAt?_rename]
  simp [rename]

theorem successors_rename : (fn.rename ν vs).successors = fn.successors := by
  funext b
  rw [successors, block_rename, Block.successors_rename, successors]

theorem edgeCount_rename : (fn.rename ν vs).edgeCount = fn.edgeCount := by
  simp only [edgeCount, rename, Array.toList_map, List.foldr_map, Block.successors_rename,
    Prod.map_snd]

theorem measure_rename : (fn.rename ν vs).measure = fn.measure := by
  simp only [measure, ids_rename, block_rename, Block.size_rename]

/-- **An edit that does not look at values** does the same with other values. -/
theorem modify_rename {f f' : Block → Block} (hf : ∀ bb, f' (bb.rename ν) = (f bb).rename ν) :
    (fn.rename ν vs).modify b f' = (fn.modify b f).rename ν vs := by
  rw [modify, modify]
  by_cases hb : b.func = fn.serial
  · have hblocks : (fn.blocks.map (Block.rename ν)).modify b.index f' =
        (fn.blocks.modify b.index f).map (Block.rename ν) := by
      refine Array.ext_getElem? fun i => ?_
      simp only [Array.getElem?_modify, Array.getElem?_map]
      split
      · cases fn.blocks[i]? with
        | none => rfl
        | some bb => exact congrArg some (hf bb)
      · rfl
    rw [if_pos hb, if_pos (show b.func = (fn.rename ν vs).serial from hb)]
    simp only [rename, hblocks]
  · have hguests : (fn.guests.map (Prod.map id (Block.rename ν))).map
          (fun e => if e.1 = b then (e.1, f' e.2) else e) =
        (fn.guests.map fun e => if e.1 = b then (e.1, f e.2) else e).map
          (Prod.map id (Block.rename ν)) := by
      rw [List.map_map, List.map_map]
      refine List.map_congr_left fun e _ => ?_
      simp only [Function.comp_apply, Prod.map_fst, id_eq]
      split
      · exact congrArg (Prod.mk e.1) (hf e.2)
      · rfl
    rw [if_neg hb, if_neg (show ¬b.func = (fn.rename ν vs).serial from hb)]
    simp only [rename, hguests]

theorem createBlock_rename (label : String) :
    ((fn.rename ν vs).createBlock label).2 = (fn.createBlock label).2.rename ν vs := by
  simp [createBlock, rename, Block.rename]

theorem addPreds_rename : ∀ (ss : List BlockId) (fn : Func),
    (fn.rename ν vs).addPreds b ss = (fn.addPreds b ss).rename ν vs
  | [], _ => rfl
  | s :: ss, fn => by
    rw [addPreds, addPreds, ← addPreds_rename ss]
    exact congrArg (addPreds · b ss) (modify_rename ν vs fn s fun _ => rfl)

theorem terminate_rename (t : Terminator) :
    (fn.rename ν vs).terminate b (t.rename id ν) = (fn.terminate b t).rename ν vs := by
  rw [terminate, Terminator.successors_rename, List.map_id, addPreds_rename]
  exact modify_rename ν vs _ b fun _ => rfl

end Func

/-! ### What is computed from edges -/

section Edges

variable {fn fn' : Func} (hsucc : fn'.successors = fn.successors)

include hsucc

theorem Spanning.grow_congr : ∀ (fuel : Nat) (work : List (Nat × BlockId)) (t : Spanning),
    grow fn' fuel work t = grow fn fuel work t
  | 0, _, _ => rfl
  | _ + 1, [], _ => rfl
  | fuel + 1, (p, b) :: work, t => by
    rw [grow, grow, hsucc, grow_congr fuel, grow_congr fuel]

theorem DominatorSearch.descend_congr (t : Spanning) : ∀ (w : Nat) (s : DominatorSearch),
    descend fn' t w s = descend fn t w s
  | 0, _ => rfl
  | w + 1, s => by
    have hvisit : visit fn' t s (w + 1) = visit fn t s (w + 1) := by
      simp only [visit, Spanning.preds, hsucc]
    rw [descend, descend, hvisit, descend_congr t w]

/-- **The dominator tree depends on the entry and the edges** only. -/
theorem DominatorTree.build_congr (hroot : fn'.root = fn.root)
    (hcount : fn'.edgeCount = fn.edgeCount) : build fn' = build fn := by
  have hspanning : Spanning.build fn' = Spanning.build fn := by
    simp only [Spanning.build, hroot, hcount, Spanning.grow_congr hsucc]
  simp only [build, hspanning, hroot, DominatorSearch.descend_congr hsucc]

end Edges

namespace Func

/-! ### Twins -/

/-- **A renumbering of values**: no two values are confused, and names are kept. -/
structure Renumbers (ν : Value → Value) : Prop where
  injective : Function.Injective ν
  name : ∀ v, (ν v).name = v.name

/-- **`fn'` is a twin of `fn`**: it has the value `ν v` for a value `v`. Its table of values is the
same up to order, and the values that are not entered yet are not touched. -/
structure Twin (ν : Value → Value) (fn fn' : Func) : Prop where
  eq_rename : fn' = fn.rename ν fn'.values
  values : fn'.values.toList.Perm (fn.values.toList.map ν)
  fresh : ∀ n name, fn.values.size ≤ n → ν ⟨fn.serial, n, name⟩ = ⟨fn.serial, n, name⟩

namespace Twin

variable {ν : Value → Value} {fn fn' : Func} (h : Twin ν fn fn')

include h

theorem serial : fn'.serial = fn.serial := by
  rw [h.eq_rename]
  rfl

theorem name : fn'.name = fn.name := by
  rw [h.eq_rename]
  rfl

theorem root : fn'.root = fn.root := by
  rw [h.eq_rename]
  rfl

theorem params : fn'.params = fn.params.map ν := by
  rw [h.eq_rename]
  rfl

theorem block (b : BlockId) : fn'.block b = (fn.block b).rename ν := by
  rw [h.eq_rename]
  exact block_rename ν _ fn b

theorem label : fn'.label = fn.label := by
  funext b
  rw [h.eq_rename]
  exact label_rename ν _ fn b

theorem liveAt? : fn'.liveAt? = fn.liveAt? := by
  rw [h.eq_rename]
  exact liveAt?_rename ν _ fn

theorem owns : fn'.owns = fn.owns := by
  funext b
  rw [h.eq_rename]
  exact owns_rename ν _ fn b

theorem ids : fn'.ids = fn.ids := by
  rw [h.eq_rename]
  exact ids_rename ν _ fn

theorem successors : fn'.successors = fn.successors := by
  rw [h.eq_rename]
  exact successors_rename ν _ fn

theorem measure : fn'.measure = fn.measure := by
  rw [h.eq_rename]
  exact measure_rename ν _ fn

theorem dominators : DominatorTree.build fn' = DominatorTree.build fn := by
  refine DominatorTree.build_congr h.successors h.root ?_
  rw [h.eq_rename]
  exact edgeCount_rename ν _ fn

/-- **An edit that does not look at values** keeps twins. -/
theorem modify (b : BlockId) (f f' : Block → Block)
    (hf : ∀ bb, f' (bb.rename ν) = (f bb).rename ν) :
    Twin ν (fn.modify b f) (fn'.modify b f') := by
  refine ⟨?_, ?_, ?_⟩
  · rw [values_modify]
    nth_rewrite 1 [h.eq_rename]
    exact modify_rename ν _ fn b hf
  · rw [values_modify, values_modify]
    exact h.values
  · rw [values_modify, serial_modify]
    exact h.fresh

end Twin

/-- **Twins have the same text.** -/
theorem Twin.text_eq {ν : Value → Value} {fn fn' : Func} (h : Twin ν fn fn') (hν : Renumbers ν) :
    fn'.text = fn.text := by
  have hlabel : ∀ b, fn'.label (id b) = fn.label b := fun b => by rw [h.label, id_eq]
  have hheader : fn'.headerLine = fn.headerLine := by
    have htext : Value.text ∘ ν = Value.text := funext (Value.text_rename hν.name)
    rw [headerLine, headerLine, h.name, h.params, List.map_map, htext]
  have hblock : ∀ b, fn'.blockLines b = fn.blockLines b := by
    intro b
    have hphis : Phi.text fn'.label ∘ Phi.rename id ν = Phi.text fn.label :=
      funext fun p => Phi.text_rename hν.name fun e _ => hlabel e.1
    have hinstrs : Instr.text ∘ Instr.rename ν = Instr.text :=
      funext (Instr.text_rename hν.name)
    have hterm : ∀ t : Terminator, (t.rename id ν).text fn'.label = t.text fn.label :=
      fun t => Terminator.text_rename hν.name fun c _ => hlabel c
    simp only [blockLines, h.block, Block.rename, List.map_map, hphis, hinstrs]
    cases (fn.block b).term with
    | none => rfl
    | some t => simp only [Option.map_some, hterm]
  simp only [text, textLines, hheader, h.ids, h.label, hblock]

/-- **Functions that differ in the numbers of values**: one is a twin of the other. -/
def Similar (fn fn' : Func) : Prop := ∃ ν, Renumbers ν ∧ Twin ν fn fn'

theorem Similar.name {fn fn' : Func} (h : fn.Similar fn') : fn'.name = fn.name :=
  let ⟨_, _, htwin⟩ := h
  htwin.name

theorem Similar.text_eq {fn fn' : Func} (h : fn.Similar fn') : fn'.text = fn.text :=
  let ⟨_, hν, htwin⟩ := h
  htwin.text_eq hν

end Func

end BranchFusion
