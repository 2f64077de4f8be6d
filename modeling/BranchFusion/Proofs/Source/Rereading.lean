import BranchFusion.Proofs.Source.Acceptance

/-!
# Reading what was printed, line by line

A reader that is given the words of a printed line succeeds and adds the line to its block
(`BranchFusion.Source.accepts_item`); so all lines of a block are read one after the other
(`BranchFusion.Source.accepts_body`), and then all blocks (`BranchFusion.Source.accepts_blocks`).
-/

namespace BranchFusion

namespace Source

variable {fn : Func} {serial : Nat} {st : Stage} {G : (String → Value) → Prop} {line : Line}
  {b : BlockId} {v : Value}

/-! ### The words of a line -/

theorem head?_valueText : v.text.toList.head? = some '%' := by
  rw [Value.text, String.toList_append]
  rfl

/-- What starts with a percent sign, and goes on with an equals sign, is read as a definition. -/
theorem readInstr_of_sign {w : String} (hw : w.toList.head? = some '%') (op : String)
    (ws : List String) : readInstr line b (w :: "=" :: op :: ws) =
      (do
        let r ← readDefinition line w
        readOperation line b r op ws) := by
  have hne : ∀ {word : String}, word.toList.head? ≠ some '%' → w ≠ word := by
    rintro _ h rfl
    exact h hw
  rw [readInstr, if_neg (hne (by decide)), if_neg (hne (by decide)), if_neg (hne (by decide)),
    if_neg (hne (by decide)), if_neg (hne (by decide))]
  simp only [hw, true_and, if_true]

/-- So is what starts with a value. -/
theorem readInstr_definition (op : String) (ws : List String) :
    readInstr line b (v.text :: "=" :: op :: ws) =
      (do
        let r ← readDefinition line v.text
        readOperation line b r op ws) :=
  readInstr_of_sign head?_valueText op ws

section Keywords

variable (ws : List String)

theorem readInstr_jump : readInstr line b ("jmp" :: ws) = readJump line b ws := by
  rw [readInstr.eq_def]
  exact if_pos rfl

theorem readInstr_branch : readInstr line b ("br" :: ws) = readBranch line b ws := by
  rw [readInstr.eq_def]
  exact (if_neg (by decide)).trans (if_pos rfl)

theorem readInstr_switch : readInstr line b ("switch" :: ws) = readSwitch line b ws := by
  rw [readInstr.eq_def]
  exact (if_neg (by decide)).trans ((if_neg (by decide)).trans (if_pos rfl))

theorem readInstr_return : readInstr line b ("ret" :: ws) =
    (do finish b (.ret (← readValues line ws))) := by
  rw [readInstr.eq_def]
  exact (if_neg (by decide)).trans ((if_neg (by decide)).trans ((if_neg (by decide)).trans
    (if_pos rfl)))

theorem readInstr_call : readInstr line b ("call" :: ws) = readCall line b none ws := by
  rw [readInstr.eq_def]
  exact (if_neg (by decide)).trans ((if_neg (by decide)).trans ((if_neg (by decide)).trans
    ((if_neg (by decide)).trans (if_pos rfl))))

end Keywords

theorem length_pairs {α : Type} (f g : α → String) (es : List α) :
    (es.flatMap fun e => [f e, g e]).length = 2 * es.length := by
  induction es with
  | nil => rfl
  | cons e es ih =>
    rw [List.flatMap_cons, List.length_append, ih, List.length_cons, List.length_cons,
      List.length_cons, List.length_nil]
    omega

theorem operator_ne (op : Operator) :
    op.name ≠ "const" ∧ op.name ≠ "phi" ∧ op.name ≠ "call" := by
  cases op <;> decide

/-! ### Lines -/

section Items

variable (hfn : fn.Spellable) (hst : st.blocks = fn.ids) (hb : fn.owns b)

include hfn

/-- A line with a result: first the result is read, then the rest. -/
theorem accepts_with_result {op : String} {ws : List String} {Q : Unit → Draft → Prop}
    (hv : fn.Defined v) (hnew : v ∉ st.defined)
    (h : ∀ r, Accepts (Reading fn serial (st.define [v]) fun N => r = N v.name)
      (readOperation line b r op ws) Q) :
    Accepts (Progress fn serial st) (readInstr line b (v.text :: "=" :: op :: ws)) Q := by
  rw [readInstr_definition]
  refine .bind ((accepts_definition (G := fun _ => True) hfn hv hnew).weaken
    (fun d hd => ⟨hd, fun _ _ => trivial⟩) fun r d hd => ?_) h
  exact hd.weaken fun N hN => hN.2

include hst hb

omit hfn in
theorem accepts_put (it it' : Item)
    (hit : ∀ N, G N → it' = it.rename (place fn serial) fun v => N v.name) :
    Accepts (Reading fn serial st G) (edit fun f => f.modify (place fn serial b) it'.addTo)
      fun _ => Progress fn serial (st.put b it) :=
  accepts_modify (by simp [hst]) (by simpa [hst] using hb) hit

theorem accepts_phi {p : Phi} (hp : p ∈ (fn.block b).phis) (hnew : p.result ∉ st.defined)
    (hfirst : (st.body b).instrs = []) : Accepts (Progress fn serial st)
      (readInstr line (place fn serial b) (Item.spelling fn.label (.phi p)))
      fun _ => Progress fn serial ((st.define [p.result]).put b (.phi p)) := by
  have hit : Item.phi p ∈ (fn.block b).items := by simpa [Block.items] using hp
  have hdefined : ∀ e ∈ p.inputs, ∃ v, e.2 = some v ∧ fn.Defined v := fun e he =>
    hfn.defined_operand hb hit (List.mem_map_of_mem he)
  have hlength := length_pairs (fun e => Value.textOf? e.2) (fun e => fn.label e.1) p.inputs
  have hpos := List.length_pos_of_ne_nil (hfn.nonempty b hb p hp)
  have hresult : fn.Defined p.result :=
    Func.Spellable.defined_result hb hit (by simp [Item.results])
  refine accepts_with_result hfn hresult hnew fun r => ?_
  rw [readOperation, if_neg (by decide), if_pos rfl, readPhi]
  refine .bind .get fun a => ?_
  rintro d ⟨rfl, hd⟩
  have hempty : (a.func.block (place fn serial b)).instrs.isEmpty = true := by
    rw [hd.1.isEmpty_instrs (by simpa [Stage.define, hst] using hb)]
    exact List.isEmpty_iff.mpr hfirst
  rw [if_pos hempty, if_neg]
  · refine Accepts.bind (accepts_inputs hfn (by simpa [Stage.define] using hst) p.inputs [] ⟨r, []⟩
      rfl (hfn.sorted.phi b hb p hp) (fun e he => (hfn.inputs b hb p hp e he).1) hdefined)
      (fun q => ?_) a (hd.weaken fun N hN => ⟨hN, rfl⟩)
    refine accepts_put (by simpa [Stage.define] using hst) hb (.phi p) (.phi q) ?_
    rintro N ⟨rfl, rfl⟩
    rfl
  · -- there are inputs, and they come in pairs
    rw [hlength]
    have hne : (p.inputs.flatMap fun e => [Value.textOf? e.2, fn.label e.1]) ≠ [] :=
      List.ne_nil_of_length_pos (by rw [hlength]; omega)
    simpa using hne

theorem accepts_instr {i : Instr} (hi : i ∈ (fn.block b).instrs)
    (hnew : ∀ v ∈ i.result?, v ∉ st.defined) : Accepts (Progress fn serial st)
      (readInstr line (place fn serial b) (Item.spelling fn.label (.instr i)))
      fun _ => Progress fn serial ((st.define i.result?.toList).put b (.instr i)) := by
  have hit : Item.instr i ∈ (fn.block b).items := by simpa [Block.items] using hi
  have hresult : ∀ v ∈ i.result?, fn.Defined v := fun v hv =>
    Func.Spellable.defined_result hb hit (by simpa [Item.results] using hv)
  have hdefined : ∀ v ∈ i.operands, fn.Defined v := fun v hv =>
    hfn.used b hb v (Block.mem_uses hit (List.mem_map_of_mem hv))
  have hst' : ∀ vs, (st.define vs).blocks = fn.ids := fun _ => hst
  cases i with
  | const r w =>
    refine accepts_with_result hfn (hresult r rfl) (hnew r rfl) fun r' => ?_
    rw [readOperation, if_pos rfl, readConst]
    refine .bind (accepts_integer w) fun w' => .fact ?_
    rintro rfl
    refine accepts_put (hst' _) hb (.instr (.const r w')) (.instr (.const r' w')) ?_
    rintro N rfl
    rfl
  | binary r op x y =>
    obtain ⟨hconst, hphi, hcall⟩ := operator_ne op
    refine accepts_with_result hfn (hresult r rfl) (hnew r rfl) fun r' => ?_
    rw [readOperation, if_neg hconst, if_neg hphi, if_neg hcall, readBinary, Operator.ofName?_name]
    refine .bind (accepts_value hfn (hdefined x (by simp [Instr.operands]))) fun x' => ?_
    refine .bind (accepts_value hfn (hdefined y (by simp [Instr.operands]))) fun y' => ?_
    refine accepts_put (hst' _) hb (.instr (.binary r op x y)) (.instr (.binary r' op x' y')) ?_
    rintro N ⟨⟨rfl, rfl⟩, rfl⟩
    rfl
  | call r f args =>
    have hf : nameAfter? '@' ("@" ++ f) = some f :=
      nameAfter?_text '@' (hfn.callee b hb _ hi f rfl).ne_nil (by rw [String.toList_append]; rfl)
    cases r with
    | none =>
      rw [Item.spelling, readInstr_call, readCall, hf]
      have hstart : ∀ d, Progress fn serial st d →
          Reading fn serial (st.define []) (fun _ => True) d := by
        intro d hd
        rw [Stage.define, List.append_nil]
        exact ⟨hd, fun _ _ => trivial⟩
      refine .weaken (.bind (accepts_values hfn hdefined) fun args' => ?_) hstart fun _ _ hd => hd
      refine accepts_put (hst' _) hb (.instr (.call none f args)) (.instr (.call none f args')) ?_
      rintro N ⟨-, rfl⟩
      rfl
    | some r =>
      refine accepts_with_result hfn (hresult r rfl) (hnew r rfl) fun r' => ?_
      rw [readOperation, if_neg (by decide), if_neg (by decide), if_pos rfl, readCall, hf]
      refine .bind (accepts_values hfn hdefined) fun args' => ?_
      refine accepts_put (hst' _) hb (.instr (.call (some r) f args))
        (.instr (.call (some r') f args')) ?_
      rintro N ⟨rfl, rfl⟩
      rfl

theorem accepts_term {t : Terminator} (ht : (fn.block b).term = some t) :
    Accepts (Progress fn serial st)
      (readInstr line (place fn serial b) (Item.spelling fn.label (.term t)))
      fun _ => Progress fn serial (st.put b (.term t)) := by
  have hit : Item.term t ∈ (fn.block b).items := by simpa [Block.items] using ht
  have htarget : ∀ c ∈ t.successors, fn.owns c := fun c hc => hfn.owns_target hb hit hc
  have hdefined : ∀ v ∈ t.operands, fn.Defined v := fun v hv =>
    hfn.used b hb v (Block.mem_uses hit (List.mem_map_of_mem hv))
  have hfinish : ∀ {G : (String → Value) → Prop} (t' : Terminator),
      (∀ N, G N → t' = t.rename (place fn serial) fun v => N v.name) →
        Accepts (Reading fn serial st G) (finish (place fn serial b) t')
          fun _ => Progress fn serial (st.put b (.term t)) := fun t' h =>
    accepts_finish (by simp [hst]) (by simpa [hst] using hb) (by simpa [hst] using htarget) h
  have hstart : ∀ d, Progress fn serial st d → Reading fn serial st (fun _ => True) d :=
    fun d hd => ⟨hd, fun _ _ => trivial⟩
  suffices hread : Accepts (Reading fn serial st fun _ => True)
      (readInstr line (place fn serial b) (Item.spelling fn.label (.term t)))
      fun _ => Progress fn serial (st.put b (.term t)) from hread.weaken hstart fun _ _ hd => hd
  cases t with
  | jump c =>
    rw [Item.spelling, readInstr_jump, readJump]
    refine .bind (accepts_label hfn hst (htarget c (by simp))) fun c' => .fact ?_
    rintro rfl
    exact hfinish _ fun N _ => rfl
  | branch v c e =>
    rw [Item.spelling, readInstr_branch, readBranch]
    refine .bind (accepts_value hfn (hdefined v (by simp [Terminator.operands]))) fun v' => ?_
    refine .bind (accepts_label hfn hst (htarget c (by simp))) fun c' => .fact ?_
    rintro rfl
    refine .bind (accepts_label hfn hst (htarget e (by simp))) fun e' => .fact ?_
    rintro rfl
    refine hfinish _ ?_
    rintro N ⟨-, rfl⟩
    rfl
  | switch v e cases =>
    have hcases : ∀ x ∈ cases, fn.owns x.2 := by
      intro x hx
      refine htarget x.2 ?_
      rw [Terminator.successors_switch]
      exact List.mem_append_left _ (List.mem_map_of_mem hx)
    have heven :
        ¬((cases.flatMap fun x => [decimal x.1, fn.label x.2]).length % 2 != 0) = true := by
      rw [length_pairs]
      simp
    rw [Item.spelling, readInstr_switch, readSwitch, if_neg heven]
    refine .bind (accepts_value hfn (hdefined v (by simp [Terminator.operands]))) fun v' => ?_
    refine .bind (accepts_label hfn hst (htarget e (by simp))) fun e' => .fact ?_
    rintro rfl
    refine .bind (accepts_cases hfn hst cases [] (hfn.sorted.term b hb _ ht) hcases)
      fun cases' => .fact ?_
    rintro rfl
    refine hfinish _ ?_
    rintro N ⟨-, rfl⟩
    rfl
  | ret vs =>
    rw [Item.spelling, readInstr_return]
    refine .bind (accepts_values hfn hdefined) fun vs' => hfinish _ ?_
    rintro N ⟨-, rfl⟩
    rfl

/-- **Every line of a spellable function is read back.** -/
theorem accepts_item {it : Item} (hit : it ∈ (fn.block b).items)
    (hnew : ∀ v ∈ it.results, v ∉ st.defined)
    (hfirst : ∀ p, it = .phi p → (st.body b).instrs = []) :
    Accepts (Progress fn serial st)
      (readInstr line (place fn serial b) (words (it.text fn.label)))
      fun _ => Progress fn serial ((st.define it.results).put b it) := by
  rw [Item.words_text (hfn.writable hb hit)]
  cases it with
  | phi p =>
    have hp : p ∈ (fn.block b).phis := by simpa [Block.items] using hit
    exact accepts_phi hfn hst hb hp (hnew p.result (by simp [Item.results])) (hfirst p rfl)
  | instr i =>
    have hi : i ∈ (fn.block b).instrs := by simpa [Block.items] using hit
    exact accepts_instr hfn hst hb hi (by simpa [Item.results] using hnew)
  | term t =>
    have ht : (fn.block b).term = some t := by simpa [Block.items] using hit
    have hnothing : st.define [] = st := by rw [Stage.define, List.append_nil]
    rw [Item.results, hnothing]
    exact accepts_term hfn hst hb ht

end Items

/-! ### Blocks -/

/-- Lines may be added to a block one after the other: phis come first, and nothing follows the
terminator. -/
def Ready : Block → List Item → Prop
  | _, [] => True
  | bb, it :: its =>
    bb.term = none ∧ (∀ p, it = .phi p → bb.instrs = []) ∧ Ready (it.addTo bb) its

theorem ready_instrs (t : Terminator) : ∀ (is : List Instr) (bb : Block), bb.term = none →
    Ready bb (is.map .instr ++ [.term t])
  | [], _, h => ⟨h, by simp, trivial⟩
  | i :: is, bb, h => ⟨h, by simp, ready_instrs t is (bb.append i) h⟩

theorem ready_phis (t : Terminator) (is : List Instr) : ∀ (ps : List Phi) (bb : Block),
    bb.term = none → bb.instrs = [] → Ready bb (ps.map .phi ++ (is.map .instr ++ [.term t]))
  | [], bb, h, _ => ready_instrs t is bb h
  | _ :: ps, _, h, hinstrs => ⟨h, fun _ _ => hinstrs, ready_phis t is ps _ h hinstrs⟩

theorem ready_items {bb : Block} (h : bb.term.isSome) (label : String) :
    Ready { label := label } bb.items := by
  obtain ⟨t, ht⟩ := Option.isSome_iff_exists.mp h
  rw [Block.items, ht, List.append_assoc]
  exact ready_phis t bb.instrs bb.phis { label := label } rfl rfl

/-- A block with lines added. -/
def addAll (its : List Item) (bb : Block) : Block := its.foldl (fun bb it => it.addTo bb) bb

theorem addAll_append (its its' : List Item) (bb : Block) :
    addAll (its ++ its') bb = addAll its' (addAll its bb) := List.foldl_append

theorem addAll_phis (ps : List Phi) : ∀ bb : Block,
    addAll (ps.map .phi) bb = { bb with phis := bb.phis ++ ps } := by
  induction ps with
  | nil => simp [addAll]
  | cons p ps ih =>
    intro bb
    refine (ih _).trans ?_
    simp [Item.addTo]

theorem addAll_instrs (is : List Instr) : ∀ bb : Block,
    addAll (is.map .instr) bb = { bb with instrs := bb.instrs ++ is } := by
  induction is with
  | nil => simp [addAll]
  | cons i is ih =>
    intro bb
    refine (ih _).trans ?_
    simp [Item.addTo, Block.append]

/-- **The lines of a block make up the block**, but for its predecessors. -/
theorem addAll_items {bb : Block} (h : bb.term.isSome) (label : String) :
    addAll bb.items { label := label } =
      { label := label, phis := bb.phis, instrs := bb.instrs, term := bb.term } := by
  obtain ⟨t, ht⟩ := Option.isSome_iff_exists.mp h
  rw [Block.items, ht, addAll_append, addAll_append, addAll_phis, addAll_instrs]
  simp [addAll, Item.addTo]

/-- The stage after lines of a block. -/
def Stage.read (st : Stage) (b : BlockId) (its : List Item) : Stage :=
  { st with
    defined := st.defined ++ its.flatMap Item.results
    body := Function.update st.body b (addAll its (st.body b)) }

theorem Stage.read_cons (st : Stage) (b : BlockId) (it : Item) (its : List Item) :
    ((st.define it.results).put b it).read b its = st.read b (it :: its) := by
  simp [read, put, define, addAll, Function.update_idem]

section Blocks

variable (hfn : fn.Spellable)

include hfn

/-- **The lines of a block are read** one after the other. -/
theorem accepts_body (hb : fn.owns b) : ∀ (its : List Item) (ls : List Line) (st : Stage),
    ls.map Line.text = its.map (Item.text fn.label) → st.blocks = fn.ids →
    (∀ it ∈ its, it ∈ (fn.block b).items) → Ready (st.body b) its →
    (st.defined ++ its.flatMap Item.results).Nodup →
      Accepts (Progress fn serial st) (readBody (place fn serial b) ls)
        fun _ => Progress fn serial (st.read b its)
  | [], ls, st, hls, _, _, _, _ => by
    obtain rfl : ls = [] := by simpa using hls
    have hnothing : st.read b [] = st := by simp [Stage.read, addAll]
    rw [hnothing]
    exact .pure fun d hd => hd
  | it :: its, ls, st, hls, hst, hits, hready, hnodup => by
    obtain ⟨l, ls, rfl, hl, hls⟩ := List.map_eq_cons_iff.mp hls
    obtain ⟨hopen, hfirst, hready⟩ := hready
    rw [List.flatMap_cons, ← List.append_assoc] at hnodup
    have hnew : ∀ v ∈ it.results, v ∉ st.defined := fun v hv hdef =>
      (List.nodup_append.mp (List.nodup_append.mp hnodup).1).2.2 v hdef v hv rfl
    rw [readBody, hl]
    refine .bind .get fun a => ?_
    rintro d ⟨rfl, hd⟩
    -- a line is refused if the block is terminated
    have hterm : ¬(a.func.block (place fn serial b)).term.isSome = true := by
      rw [hd.isSome_term (by simpa [hst] using hb), hopen]
      simp
    rw [if_neg hterm]
    refine Accepts.bind (accepts_item hfn hst hb (hits it (by simp)) hnew hfirst) (fun _ => ?_) a hd
    rw [← Stage.read_cons]
    have hrest : ∀ x ∈ its, x ∈ (fn.block b).items := fun x hx =>
      hits x (List.mem_cons_of_mem it hx)
    refine accepts_body hb its ls _ hls hst hrest ?_ hnodup
    simpa [Stage.put, Stage.define] using hready

/-- What is printed of a block. -/
def printedBlock (fn : Func) (b : BlockId) : Block where
  label := fn.label b
  phis := (fn.block b).phis
  instrs := (fn.block b).instrs
  term := (fn.block b).term

/-- What is read of a function when some of its blocks have been read and the others are known by
their labels. -/
def stageAfter (fn : Func) (done : List BlockId) : Stage where
  params := fn.params
  defined := fn.params ++ done.flatMap fun b => (fn.block b).definitions
  blocks := fn.ids
  body b := if b ∈ done then printedBlock fn b else { label := fn.label b }

theorem read_stageAfter {done : List BlockId} (hb : fn.owns b) (hnew : b ∉ done) :
    (stageAfter fn done).read b (fn.block b).items = stageAfter fn (done ++ [b]) := by
  have hterm := hfn.terminated b hb
  rw [Stage.read, ← Block.definitions_eq]
  simp only [stageAfter, if_neg hnew, addAll_items hterm, List.flatMap_append, List.append_assoc,
    List.flatMap_singleton, Stage.mk.injEq, true_and]
  funext c
  by_cases hc : c = b
  · subst hc
    simp [printedBlock]
  · simp [hc]

/-- Lines are gathered under the blocks in which they stand. -/
def Gathered (fn : Func) (serial : Nat) (bs : List BlockId) (blocks : List (BlockId × List Line)) :
    Prop :=
  List.Forall₂ (fun b e => e.1 = place fn serial b ∧ e.2.map Line.text = fn.blockLines b) bs blocks

/-- **The blocks are read** one after the other. -/
theorem accepts_blocks : ∀ (rest done : List BlockId) (blocks : List (BlockId × List Line))
    (last : Line), fn.ids = done ++ rest → Gathered fn serial rest blocks →
      Accepts (Progress fn serial (stageAfter fn done)) (readBlocks last blocks)
        fun _ => Progress fn serial (stageAfter fn fn.ids)
  | [], done, blocks, last, hids, hblocks => by
    rw [List.forall₂_nil_left_iff.mp hblocks, hids, List.append_nil]
    exact .pure fun d hd => hd
  | b :: rest, done, blocks, last, hids, hblocks => by
    obtain ⟨e, blocks, ⟨hplace, hown⟩, hrest, rfl⟩ := List.forall₂_cons_left_iff.mp hblocks
    obtain ⟨x, own⟩ := e
    obtain rfl : x = place fn serial b := hplace
    obtain ⟨hb, hnew, -⟩ := next_of_ids hids
    have hterminated := hfn.terminated b hb
    have hdefined : ((stageAfter fn done).defined ++
        (fn.block b).items.flatMap Item.results).Nodup := by
      have hnodup := hfn.nodup
      rw [Func.definedValues, hids, List.flatMap_append, List.flatMap_cons, ← List.append_assoc,
        ← List.append_assoc] at hnodup
      rw [← Block.definitions_eq]
      exact (List.nodup_append.mp hnodup).1
    have hbody : Accepts (Progress fn serial (stageAfter fn done))
        (readBody (place fn serial b) own) fun _ =>
          Progress fn serial ((stageAfter fn done).read b (fn.block b).items) := by
      refine accepts_body hfn hb (fn.block b).items own (stageAfter fn done)
        (hown.trans Func.blockLines_eq) rfl (fun _ hit => hit) ?_ hdefined
      simpa [stageAfter, hnew] using ready_items hterminated _
    rw [read_stageAfter hfn hb hnew] at hbody
    rw [readBlocks]
    refine .bind hbody fun _ => .bind .get fun a => ?_
    rintro d ⟨rfl, hd⟩
    -- a block is refused if it is not terminated when its lines come to an end
    have hsome : (a.func.block (place fn serial b)).term.isSome = true := by
      rw [hd.isSome_term (by simpa [stageAfter] using hb)]
      simpa [stageAfter, printedBlock] using hterminated
    have hterm : ¬(a.func.block (place fn serial b)).term.isNone = true := by
      rw [Option.isNone_iff_eq_none]
      exact Option.isSome_iff_ne_none.mp hsome
    dsimp only
    rw [if_neg hterm]
    exact accepts_blocks rest (done ++ [b]) blocks _ (by simpa using hids) hrest a hd

end Blocks

end Source

end BranchFusion
