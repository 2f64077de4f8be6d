import BranchFusion.Proofs.Isomorphism
import BranchFusion.Proofs.Source.Printed
import BranchFusion.Proofs.Source.Reading

/-!
# Reading what was printed, word by word

A reader that is given words of a printed line succeeds, and gives back what was printed. Other than
for the rules of `BranchFusion.Source.Reads`, success is part of what is proved
(`BranchFusion.Source.Accepts`).

The numbers of the values that are read depend on the order in which they are mentioned. Instead of
following this order, everything is said for all functions `N` from names to values that *tell* the
values of the draft (`BranchFusion.Source.Draft.Told`): what was read of a block is what was
printed, with the value `N v.name` in place of `v`. When a new value is entered there are fewer such
functions, so what has been said remains true; and at the end there is still one.

How much of a function has been read is its *stage* (`BranchFusion.Source.Stage`), and
`BranchFusion.Source.Progress` says that a draft has come to a stage.
-/

namespace BranchFusion

namespace Source

/-! ### Rules for readers that succeed -/

/-- **From a draft with the property `P`, a reader succeeds and ends in one with `Q`.** -/
def Accepts {α : Type} (P : Draft → Prop) (x : Read α) (Q : α → Draft → Prop) : Prop :=
  ∀ d, P d → ∃ a d', x.run d = .ok (a, d') ∧ Q a d'

namespace Accepts

variable {α γ : Type} {P P' : Draft → Prop} {Q Q' : α → Draft → Prop} {R : γ → Draft → Prop}
  {x : Read α}

theorem bind {f : α → Read γ} (hx : Accepts P x Q) (hf : ∀ a, Accepts (Q a) (f a) R) :
    Accepts P (x >>= f) R := by
  intro d hd
  obtain ⟨a, d₁, hrun, hd₁⟩ := hx d hd
  obtain ⟨c, d₂, hrun', hd₂⟩ := hf a d₁ hd₁
  refine ⟨c, d₂, ?_, hd₂⟩
  rw [StateT.run_bind, hrun]
  exact hrun'

theorem pure {a : α} (h : ∀ d, P d → Q a d) : Accepts P (pure a : Read α) Q :=
  fun d hd => ⟨a, d, rfl, h d hd⟩

theorem get : Accepts P (MonadState.get : Read Draft) fun a d => a = d ∧ P d :=
  fun d hd => ⟨d, d, rfl, rfl, hd⟩

theorem set {d₀ : Draft} {R : PUnit → Draft → Prop} (h : ∀ d, P d → R ⟨⟩ d₀) :
    Accepts P (MonadState.set d₀ : Read PUnit) R :=
  fun d hd => ⟨⟨⟩, d₀, rfl, h d hd⟩

theorem edit {f : Func → Func} {R : Unit → Draft → Prop}
    (h : ∀ d, P d → R () { d with func := f d.func }) : Accepts P (edit f) R :=
  fun d hd => ⟨(), { d with func := f d.func }, rfl, h d hd⟩

theorem weaken (h : Accepts P' x Q') (hP : ∀ d, P d → P' d) (hQ : ∀ a d, Q' a d → Q a d) :
    Accepts P x Q := by
  intro d hd
  obtain ⟨a, d', hrun, hd'⟩ := h d (hP d hd)
  exact ⟨a, d', hrun, hQ a d' hd'⟩

/-- A fact that does not depend on the draft may be used at once. -/
theorem fact {p : Prop} (h : p → Accepts P x Q) : Accepts (fun d => p ∧ P d) x Q :=
  fun d hd => h hd.1 d hd.2

end Accepts

/-! ### Adding to a block -/

namespace Item

/-- A line with other blocks and values. -/
def rename (β : BlockId → BlockId) (ν : Value → Value) : Item → Item
  | .phi p => .phi (p.rename β ν)
  | .instr i => .instr (i.rename ν)
  | .term t => .term (t.rename β ν)

end Item

/-- A block with other blocks and values, and without predecessors. -/
def renameBody (β : BlockId → BlockId) (ν : Value → Value) (bb : Block) : Block :=
  { bb with
    phis := bb.phis.map (Phi.rename β ν), instrs := bb.instrs.map (Instr.rename ν)
    term := bb.term.map (Terminator.rename β ν), preds := [] }

/-- A block without its predecessors. -/
def content (bb : Block) : Block := { bb with preds := [] }

theorem renameBody_addTo (β : BlockId → BlockId) (ν : Value → Value) (it : Item) (bb : Block) :
    renameBody β ν (it.addTo bb) = (it.rename β ν).addTo (renameBody β ν bb) := by
  cases it <;> simp [renameBody, Item.addTo, Item.rename, Block.append]

theorem content_addTo (it : Item) (bb : Block) :
    content (it.addTo bb) = it.addTo (content bb) := by
  cases it <;> rfl

/-! ### Places -/

/-- **The place of a block** when the function is read again with a serial number. -/
def place (fn : Func) (serial : Nat) (b : BlockId) : BlockId := ⟨serial, fn.ids.idxOf b⟩

section Places

variable {fn : Func} {serial : Nat} {b c : BlockId}

theorem place_inj (hb : fn.owns b) (h : place fn serial b = place fn serial c) : b = c :=
  (List.idxOf_inj (Func.mem_ids.mpr hb)).mp (congrArg BlockId.index h)

/-- The live blocks are listed by their place among the blocks that were created. -/
theorem pairwise_ids : fn.ids.Pairwise fun a b => a.index < b.index := by
  refine List.Pairwise.filterMap _ (fun i j hij a ha a' ha' => ?_) List.pairwise_lt_range
  obtain ⟨-, rfl⟩ := Func.liveAt?_eq_some_iff.mp ha
  obtain ⟨-, rfl⟩ := Func.liveAt?_eq_some_iff.mp ha'
  exact hij

/-- **Reading again keeps the order of blocks.** -/
theorem precedes_place (hb : fn.owns b) (hc : fn.owns c) (h : b.precedes c = true) :
    (place fn serial b).precedes (place fn serial c) = true := by
  have hfunc : b.func = c.func := (Func.func_of_owns hb).trans (Func.func_of_owns hc).symm
  have hlt : b.index < c.index := by
    simp only [BlockId.precedes, Bool.or_eq_true, Bool.and_eq_true, decide_eq_true_eq,
      beq_iff_eq] at h
    omega
  have hb' := List.idxOf_lt_length_of_mem (Func.mem_ids.mpr hb)
  have hc' := List.idxOf_lt_length_of_mem (Func.mem_ids.mpr hc)
  -- if the places were the other way round, so would be the indices
  have hplace : fn.ids.idxOf b < fn.ids.idxOf c := by
    by_contra hge
    rcases Nat.lt_or_eq_of_le (Nat.le_of_not_lt hge) with hless | heq
    · have hback := List.pairwise_iff_getElem.mp pairwise_ids _ _ hc' hb' hless
      rw [List.getElem_idxOf, List.getElem_idxOf] at hback
      omega
    · have := (List.idxOf_inj (Func.mem_ids.mpr hc)).mp heq
      rw [this] at hlt
      omega
  simp [BlockId.precedes, place, hplace]

/-- When some blocks have been read, the next one is live and is not among them. -/
theorem next_of_ids {done rest : List BlockId} (h : fn.ids = done ++ b :: rest) :
    fn.owns b ∧ b ∉ done ∧ fn.ids.idxOf b = done.length := by
  have hnodup : fn.ids.Nodup := Func.nodup_ids
  have hnew : b ∉ done := by
    rw [h] at hnodup
    exact fun hmem => (List.nodup_append.mp hnodup).2.2 b hmem b (by simp) rfl
  refine ⟨by rw [← Func.mem_ids, h]; simp, hnew, ?_⟩
  rw [h, List.idxOf_append_of_notMem hnew, List.idxOf_cons_self, Nat.add_zero]

end Places

/-! ### Stages -/

/-- **How much of a function has been read**: the parameters, the values that are defined, the
blocks that are created, and what has been read of each of them. -/
structure Stage where
  params : List Value
  defined : List Value
  blocks : List BlockId
  body : BlockId → Block

/-- The stage after values were defined. -/
def Stage.define (st : Stage) (vs : List Value) : Stage := { st with defined := st.defined ++ vs }

/-- The stage after a line was added to a block. -/
def Stage.put (st : Stage) (b : BlockId) (it : Item) : Stage :=
  { st with body := Function.update st.body b (it.addTo (st.body b)) }

/-- Names **tell** the values of a draft. -/
def Draft.Told (d : Draft) (N : String → Value) : Prop := ∀ v ∈ d.func.values, N v.name = v

/-- **A draft has come to a stage** of reading `fn`. -/
structure Progress (fn : Func) (serial : Nat) (st : Stage) (d : Draft) : Prop where
  name : d.func.name = fn.name
  number : d.func.serial = serial
  size : d.func.blocks.size = st.blocks.length
  ids : d.func.ids = st.blocks.map (place fn serial)
  -- the values that were entered have the names of values of `fn`, and no name twice
  unique : ∀ v ∈ d.func.values, ∀ w ∈ d.func.values, v.name = w.name → v = w
  origin : ∀ v ∈ d.func.values, ∃ w, fn.Defined w ∧ w.name = v.name
  mentioned : ∀ e ∈ d.mentions, e.1 ∈ d.func.values
  known : ∀ v ∈ d.defined, v ∈ d.func.values
  marked : ∀ n, n ∈ d.defined.map Value.name ↔ n ∈ st.defined.map Value.name
  sound : ∀ v ∈ st.defined, fn.Defined v
  labelled : ∀ b ∈ st.blocks, (st.body b).label = fn.label b
  params : ∀ N, d.Told N → d.func.params = st.params.map fun v => N v.name
  body : ∀ N, d.Told N → ∀ b ∈ st.blocks, content (d.func.block (place fn serial b)) =
    renameBody (place fn serial) (fun v => N v.name) (st.body b)

/-- A draft has come to a stage, and what is known of the values that were read is so for all names
that tell them. -/
def Reading (fn : Func) (serial : Nat) (st : Stage) (G : (String → Value) → Prop) (d : Draft) :
    Prop :=
  Progress fn serial st d ∧ ∀ N, d.Told N → G N

variable {fn : Func} {serial : Nat} {st : Stage} {d : Draft} {G G' : (String → Value) → Prop}
  {line : Line} {b c : BlockId} {v : Value}

/-- There are names that tell the values of a draft. -/
theorem Progress.exists_told (h : Progress fn serial st d) :
    ∃ N, d.Told N ∧ ∀ n, (N n).name = n := by
  refine ⟨fun n => (d.func.values.find? fun v => v.name = n).getD ⟨0, 0, n⟩, fun v hv => ?_,
    fun n => ?_⟩ <;> dsimp only
  · cases hfind : d.func.values.find? fun w => w.name = v.name with
    | none => simpa using Array.find?_eq_none.mp hfind v hv
    | some w =>
      have hname : w.name = v.name := by simpa using Array.find?_some hfind
      exact h.unique w (Array.mem_of_find?_eq_some hfind) v hv hname
  · cases hfind : d.func.values.find? fun w => w.name = n with
    | none => rfl
    | some w => simpa using Array.find?_some hfind

theorem Progress.owns_place (h : Progress fn serial st d) (hb : b ∈ st.blocks) :
    d.func.owns (place fn serial b) := by
  rw [← Func.mem_ids, h.ids]
  exact List.mem_map_of_mem hb

theorem Progress.label (h : Progress fn serial st d) (hb : b ∈ st.blocks) :
    (d.func.block (place fn serial b)).label = fn.label b := by
  obtain ⟨N, hN, -⟩ := h.exists_told
  have hlabel := congrArg Block.label (h.body N hN b hb)
  exact hlabel.trans (h.labelled b hb)

/-- It can be seen of a draft whether the terminator of a block has been read. -/
theorem Progress.isSome_term (h : Progress fn serial st d) (hb : b ∈ st.blocks) :
    (d.func.block (place fn serial b)).term.isSome = (st.body b).term.isSome := by
  obtain ⟨N, hN, -⟩ := h.exists_told
  have hterm : (d.func.block (place fn serial b)).term =
      (st.body b).term.map (Terminator.rename (place fn serial) fun v => N v.name) :=
    congrArg Block.term (h.body N hN b hb)
  rw [hterm, Option.isSome_map]

/-- It can be seen of a draft whether an instruction of a block has been read. -/
theorem Progress.isEmpty_instrs (h : Progress fn serial st d) (hb : b ∈ st.blocks) :
    (d.func.block (place fn serial b)).instrs.isEmpty = (st.body b).instrs.isEmpty := by
  obtain ⟨N, hN, -⟩ := h.exists_told
  have hinstrs : (d.func.block (place fn serial b)).instrs =
      (st.body b).instrs.map (Instr.rename fun v => N v.name) :=
    congrArg Block.instrs (h.body N hN b hb)
  rw [hinstrs, List.isEmpty_map]

theorem told_of_enter {N : String → Value} {name : String} (h : (d.enter line name).Told N) :
    d.Told N :=
  fun v hv => h v (mem_values_enter.mpr (Or.inl hv))

/-- **Mentioning a value of `fn`** leaves the draft at its stage. -/
theorem Progress.enter (h : Progress fn serial st d) (hv : fn.Defined v) (hnew : d.Unknown v.name)
    (line : Line) : Progress fn serial st (d.enter line v.name) := by
  refine
    { name := h.name, number := h.number, size := h.size, ids := h.ids, marked := h.marked,
      sound := h.sound, labelled := h.labelled, unique := ?unique, origin := ?origin,
      mentioned := ?mentioned, known := ?known, params := ?params, body := ?body }
  case unique =>
    intro x hx y hy hxy
    rcases mem_values_enter.mp hx with hx | rfl
    · rcases mem_values_enter.mp hy with hy | rfl
      · exact h.unique x hx y hy hxy
      · exact absurd hxy (hnew x hx)
    · rcases mem_values_enter.mp hy with hy | rfl
      · exact absurd hxy.symm (hnew y hy)
      · rfl
  case origin =>
    intro x hx
    rcases mem_values_enter.mp hx with hx | rfl
    · exact h.origin x hx
    · exact ⟨v, hv, rfl⟩
  case mentioned =>
    intro e he
    rcases List.mem_append.mp he with he | he
    · exact mem_values_enter.mpr (Or.inl (h.mentioned e he))
    · rw [List.mem_singleton.mp he]
      exact mem_values_enter.mpr (Or.inr rfl)
  case known => exact fun x hx => mem_values_enter.mpr (Or.inl (h.known x hx))
  case params => exact fun N hN => h.params N (told_of_enter hN)
  case body => exact fun N hN => h.body N (told_of_enter hN)

theorem Reading.weaken (h : Reading fn serial st G d) (hG : ∀ N, G N → G' N) :
    Reading fn serial st G' d :=
  ⟨h.1, fun N hN => hG N (h.2 N hN)⟩

/-! ### Values, labels and integers -/

theorem nameAfter?_text (sign : Char) {name text : String} (hname : name.toList ≠ [])
    (htext : text.toList = sign :: name.toList) : nameAfter? sign text = some name := by
  obtain ⟨c, cs, hcs⟩ := List.exists_cons_of_ne_nil hname
  rw [nameAfter?, htext, hcs]
  simp only [if_true]
  rw [← hcs, String.ofList_toList]

theorem accepts_integer {P : Draft → Prop} (w : Int64) :
    Accepts P (readInteger line (decimal w)) fun a d => a = w ∧ P d := by
  rw [readInteger, Text.Numeral.readWord_decimal]
  exact .pure fun d hd => ⟨rfl, hd⟩

section Words

variable (hfn : fn.Spellable)

include hfn

theorem nameAfter?_value (hv : fn.Defined v) : nameAfter? '%' v.text = some v.name :=
  nameAfter?_text '%' (hfn.valueName v hv).ne_nil (by rw [Value.text, String.toList_append]; rfl)

/-- Reading a value: it is known then, and is the one that its name tells. -/
theorem accepts_value_mem (hv : fn.Defined v) :
    Accepts (Reading fn serial st G) (readValue line v.text) fun a d =>
      a ∈ d.func.values ∧ Reading fn serial st (fun N => G N ∧ a = N v.name) d := by
  have hname := nameAfter?_value hfn hv
  rw [readValue, hname]
  refine .bind .get fun a => ?_
  rw [value?_of_nameAfter? _ hname]
  cases hfind : a.func.values.find? fun w => w.name = v.name with
  | some w =>
    -- the value was mentioned before, so names tell it already
    have hw : w.name = v.name := by simpa using Array.find?_some hfind
    have hmem := Array.mem_of_find?_eq_some hfind
    refine .pure ?_
    rintro d ⟨rfl, hd⟩
    refine ⟨hmem, hd.1, fun N hN => ⟨hd.2 N hN, ?_⟩⟩
    rw [← hw, hN w hmem]
  | none =>
    -- it is entered now, and names that tell the values of the new draft tell this one
    refine .bind (.set (R := fun _ d =>
      (⟨a.func.serial, a.func.values.size, v.name⟩ : Value) ∈ d.func.values ∧
        Reading fn serial st (fun N => G N ∧
          (⟨a.func.serial, a.func.values.size, v.name⟩ : Value) = N v.name) d) ?_)
      fun _ => .pure fun d hd => hd
    rintro d ⟨rfl, hd⟩
    have hunknown : a.Unknown v.name := fun w hw heq =>
      Array.find?_eq_none.mp hfind w hw (by simpa using heq)
    refine ⟨mem_values_enter.mpr (Or.inr rfl), hd.1.enter hv hunknown line,
      fun N hN => ⟨hd.2 N (told_of_enter hN), ?_⟩⟩
    exact (hN _ (mem_values_enter.mpr (Or.inr rfl))).symm

/-- **Reading a value**: it is the one that its name tells. -/
theorem accepts_value (hv : fn.Defined v) : Accepts (Reading fn serial st G)
    (readValue line v.text) fun a => Reading fn serial st fun N => G N ∧ a = N v.name :=
  (accepts_value_mem hfn hv).weaken (fun _ hd => hd) fun _ _ hd => hd.2

theorem accepts_values {vs : List Value} (hvs : ∀ v ∈ vs, fn.Defined v) :
    Accepts (Reading fn serial st G) (readValues line (vs.map Value.text)) fun a =>
      Reading fn serial st fun N => G N ∧ a = vs.map fun v => N v.name := by
  induction vs generalizing G with
  | nil => exact .pure fun d hd => hd.weaken fun N hG => ⟨hG, rfl⟩
  | cons v vs ih =>
    rw [List.map_cons, readValues]
    refine .bind (accepts_value hfn (hvs v (by simp))) fun a => ?_
    refine .bind (ih fun w hw => hvs w (List.mem_cons_of_mem v hw)) fun as => .pure fun d hd => ?_
    refine hd.weaken ?_
    rintro N ⟨⟨hG, rfl⟩, rfl⟩
    exact ⟨hG, rfl⟩

/-- **Reading the result of a line**, which must not be defined. -/
theorem accepts_definition (hv : fn.Defined v) (hnew : v ∉ st.defined) :
    Accepts (Reading fn serial st G) (readDefinition line v.text) fun a =>
      Reading fn serial (st.define [v]) fun N => G N ∧ a = N v.name := by
  rw [readDefinition]
  refine .bind (accepts_value_mem hfn hv) fun a => .bind .get fun d₀ => ?_
  rintro d ⟨rfl, hmem, hprogress, hG⟩
  obtain ⟨N, hN, hname⟩ := hprogress.exists_told
  have ha : a.name = v.name := by rw [(hG N hN).2, hname]
  -- if it were marked, a value of the same name would have been defined, which is the same value
  have hnot : a ∉ d₀.defined := by
    intro hdefined
    obtain ⟨w, hw, hwname⟩ := List.mem_map.mp
      ((hprogress.marked v.name).mp (ha ▸ List.mem_map_of_mem hdefined))
    exact hnew (hfn.values w v (hprogress.sound w hw) hv hwname ▸ hw)
  refine ⟨a, { d₀ with defined := a :: d₀.defined }, ?_, ?_, hG⟩
  · rw [if_neg (by simpa using hnot)]
    rfl
  · refine
      { hprogress with
        known := List.forall_mem_cons.mpr ⟨hmem, hprogress.known⟩
        marked := fun n => ?marked
        sound := fun w hw => ?sound }
    case marked =>
      rw [Stage.define, List.map_cons, List.mem_cons, hprogress.marked, List.map_append,
        List.mem_append, ha, or_comm, List.map_singleton, List.mem_singleton]
    case sound =>
      rcases List.mem_append.mp hw with hw | hw
      · exact hprogress.sound w hw
      · rw [List.mem_singleton.mp hw]
        exact hv

section Labels

variable (hst : st.blocks = fn.ids)

include hst

/-- **Reading a label**: it leads to the place of its block. -/
theorem accepts_label (hc : fn.owns c) : Accepts (Reading fn serial st G)
    (readLabel line (fn.label c)) fun a d => a = place fn serial c ∧ Reading fn serial st G d := by
  rw [readLabel]
  refine .bind .get fun a => ?_
  rintro d ⟨rfl, hd⟩
  have hmem : ∀ {x}, x ∈ fn.ids → x ∈ st.blocks := fun hx => by rwa [hst]
  -- the first block with the label is the only one
  have hfind : (a.func.ids.find? fun x => (a.func.block x).label = fn.label c) =
      some (place fn serial c) := by
    rw [hd.1.ids, hst, List.find?_map]
    cases hx : fn.ids.find? ((fun x => decide ((a.func.block x).label = fn.label c)) ∘
        place fn serial) with
    | none =>
      have hnone := List.find?_eq_none.mp hx c (Func.mem_ids.mpr hc)
      simp [hd.1.label (hmem (Func.mem_ids.mpr hc))] at hnone
    | some x =>
      have hids := List.mem_of_find?_eq_some hx
      have hlabel := List.find?_some hx
      simp only [Function.comp_apply, decide_eq_true_eq, hd.1.label (hmem hids)] at hlabel
      rw [hfn.labels x c (Func.mem_ids.mp hids) hc hlabel]
      rfl
  refine ⟨place fn serial c, a, ?_, rfl, hd⟩
  dsimp only
  rw [hfind]
  rfl

/-- **Reading the inputs of a phi**: they come in the order in which they are kept. -/
theorem accepts_inputs : ∀ (es done : Table BlockId (Option Value)) (p : Phi),
    p.inputs.keys = done.keys.map (place fn serial) →
    Table.Ordered BlockId.precedes (done ++ es) → (∀ e ∈ done ++ es, fn.owns e.1) →
    (∀ e ∈ es, ∃ v, e.2 = some v ∧ fn.Defined v) →
      Accepts
        (Reading fn serial st fun N => G N ∧ p.inputs = done.map fun e =>
          (place fn serial e.1, e.2.map fun v => N v.name))
        (readInputs line p (es.flatMap fun e => [Value.textOf? e.2, fn.label e.1]))
        fun q => Reading fn serial st fun N => G N ∧ q = ⟨p.result, (done ++ es).map fun e =>
          (place fn serial e.1, e.2.map fun v => N v.name)⟩
  | [], done, p, _, _, _, _ => by
    rw [List.flatMap_nil, readInputs]
    · refine .pure fun d hd => hd.weaken ?_
      rintro N ⟨hG, hp⟩
      refine ⟨hG, ?_⟩
      rw [List.append_nil, ← hp]
    · simp
  | e :: es, done, p, hkeys, hordered, howns, hdefined => by
    obtain ⟨v, hev, hv⟩ := hdefined e (by simp)
    have he : fn.owns e.1 := howns e (by simp)
    -- all keys so far precede the new one, so it is put at the end
    have hfresh : ∀ k ∈ p.inputs.keys, BlockId.precedes k (place fn serial e.1) = true := by
      intro k hk
      rw [hkeys] at hk
      obtain ⟨k', hk', rfl⟩ := List.mem_map.mp hk
      obtain ⟨e', he', rfl⟩ := List.mem_map.mp hk'
      refine precedes_place (howns e' (List.mem_append_left _ he')) he ?_
      exact (List.pairwise_append.mp hordered).2.2 e' he' e (by simp)
    have hnot : ¬p.inputs.has (place fn serial e.1) = true := by
      rw [Table.has_iff, Table.isSome_get?_iff]
      intro hmem
      have hself := hfresh _ hmem
      rw [BlockId.strictOrder_precedes.irrefl] at hself
      exact absurd hself (by simp)
    have hset : ∀ u, p.setInput (place fn serial e.1) u =
        ⟨p.result, p.inputs ++ [(place fn serial e.1, u)]⟩ := fun u => by
      rw [Phi.setInput, Table.insert_of_precedes BlockId.strictOrder_precedes hfresh]
    rw [List.flatMap_cons, hev, List.cons_append, List.singleton_append, readInputs]
    refine .bind (accepts_value hfn hv) fun a => .bind (accepts_label hfn hst he) fun x => ?_
    refine .fact ?_
    rintro rfl
    rw [if_neg hnot, hset]
    have hrest := accepts_inputs es (done ++ [e])
      ⟨p.result, p.inputs ++ [(place fn serial e.1, some a)]⟩ (by simpa [Table.keys] using hkeys)
      (by simpa using hordered) (by simpa using howns)
      fun e' he' => hdefined e' (List.mem_cons_of_mem e he')
    refine hrest.weaken (fun d hd => hd.weaken ?_) fun q d hd => hd.weaken ?_
    · rintro N ⟨⟨hG, hp⟩, rfl⟩
      refine ⟨hG, ?_⟩
      rw [hp, List.map_append, List.map_singleton, hev]
      rfl
    · rintro N ⟨hG, rfl⟩
      exact ⟨hG, by rw [List.append_assoc, List.singleton_append]⟩

/-- **Reading the cases of a switch.** -/
theorem accepts_cases : ∀ (es done : Table Int64 BlockId),
    Table.Ordered (fun x y => decide (x < y)) (done ++ es) → (∀ e ∈ es, fn.owns e.2) →
      Accepts (Reading fn serial st G)
        (readCases line (done.map fun e => (e.1, place fn serial e.2))
          (es.flatMap fun e => [decimal e.1, fn.label e.2]))
        fun t d => t = (done ++ es).map (fun e => (e.1, place fn serial e.2)) ∧
          Reading fn serial st G d
  | [], done, _, _ => by
    rw [List.flatMap_nil, readCases]
    · exact .pure fun d hd => ⟨by rw [List.append_nil], hd⟩
    · simp
  | e :: es, done, hordered, howns => by
    have hfresh : ∀ k ∈ Table.keys (done.map fun e => (e.1, place fn serial e.2)),
        decide (k < e.1) = true := by
      intro k hk
      obtain ⟨e', he', rfl⟩ := List.mem_map.mp hk
      obtain ⟨e'', he'', rfl⟩ := List.mem_map.mp he'
      exact (List.pairwise_append.mp hordered).2.2 e'' he'' e (by simp)
    have hnot : ¬Table.has (done.map fun e => (e.1, place fn serial e.2)) e.1 = true := by
      rw [Table.has_iff, Table.isSome_get?_iff]
      intro hmem
      exact absurd (hfresh _ hmem) (by simp)
    have hset : Table.insert (fun x y => decide (x < y)) e.1 (place fn serial e.2)
        (done.map fun e => (e.1, place fn serial e.2)) =
          (done ++ [e]).map fun e => (e.1, place fn serial e.2) := by
      rw [Table.insert_of_precedes strictOrder_words hfresh, List.map_append, List.map_singleton]
    rw [List.flatMap_cons, List.cons_append, List.singleton_append, readCases]
    refine .bind (accepts_integer e.1) fun w => .fact ?_
    rintro rfl
    refine .bind (accepts_label hfn hst (howns e (by simp))) fun x => .fact ?_
    rintro rfl
    rw [if_neg hnot, hset]
    have hrest := accepts_cases es (done ++ [e]) (by simpa using hordered)
      fun e' he' => howns e' (List.mem_cons_of_mem e he')
    rwa [List.append_assoc, List.singleton_append] at hrest

end Labels

end Words

/-! ### Lines -/

/-- An edit of blocks that leaves the rest of a function as it is. -/
structure SameOutline (f g : Func) : Prop where
  name : g.name = f.name
  serial : g.serial = f.serial
  params : g.params = f.params
  values : g.values = f.values
  size : g.blocks.size = f.blocks.size
  ids : g.ids = f.ids

theorem sameOutline_modifyAll {f : Func} (es : List (BlockId × (Block → Block)))
    (hlive : ∀ e ∈ es, ∀ bb, (e.2 bb).live = bb.live) : SameOutline f (f.modifyAll es) :=
  ⟨Func.name_modifyAll, Func.serial_modifyAll, Func.params_modifyAll, Func.values_modifyAll,
    Func.size_modifyAll, Func.ids_modifyAll hlive⟩

section Lines

variable (howns : ∀ b ∈ st.blocks, fn.owns b) (hb : b ∈ st.blocks)

include howns hb

/-- **A line that was read** has been added to its block. -/
theorem Progress.put (h : Progress fn serial st d) {f : Func} (hf : SameOutline d.func f)
    (hother : ∀ c, c ≠ place fn serial b → content (f.block c) = content (d.func.block c))
    (it : Item) (hself : ∀ N, d.Told N → content (f.block (place fn serial b)) =
      (it.rename (place fn serial) fun v => N v.name).addTo
        (content (d.func.block (place fn serial b)))) :
    Progress fn serial (st.put b it) { d with func := f } := by
  have htold : ∀ {N}, Draft.Told { d with func := f } N → d.Told N := by
    intro N hN v hv
    exact hN v (by rwa [hf.values])
  refine
    { name := hf.name.trans h.name, number := hf.serial.trans h.number,
      size := hf.size.trans h.size, ids := hf.ids.trans h.ids, marked := h.marked, sound := h.sound,
      unique := ?unique, origin := ?origin, mentioned := ?mentioned, known := ?known,
      labelled := ?labelled, params := ?params, body := ?body }
  case unique => rw [hf.values]; exact h.unique
  case origin => rw [hf.values]; exact h.origin
  case mentioned => rw [hf.values]; exact h.mentioned
  case known => rw [hf.values]; exact h.known
  case labelled =>
    intro c hc
    rw [Stage.put]
    by_cases hcb : c = b
    · subst hcb
      dsimp only
      rw [Function.update_self]
      exact (show (it.addTo (st.body c)).label = (st.body c).label by cases it <;> rfl).trans
        (h.labelled c hc)
    · dsimp only
      rw [Function.update_of_ne hcb]
      exact h.labelled c hc
  case params =>
    intro N hN
    rw [hf.params]
    exact h.params N (htold hN)
  case body =>
    intro N hN c hc
    rw [Stage.put]
    by_cases hcb : c = b
    · subst hcb
      dsimp only
      rw [Function.update_self, renameBody_addTo, hself N (htold hN), h.body N (htold hN) c hc]
    · -- another block has another place, where nothing was added
      have hne : place fn serial c ≠ place fn serial b := fun heq =>
        hcb (place_inj (howns c hc) heq)
      dsimp only
      rw [Function.update_of_ne hcb, hother _ hne]
      exact h.body N (htold hN) c hc

theorem accepts_modify {it it' : Item}
    (hit : ∀ N, G N → it' = it.rename (place fn serial) fun v => N v.name) :
    Accepts (Reading fn serial st G) (edit fun f => f.modify (place fn serial b) it'.addTo)
      fun _ => Progress fn serial (st.put b it) := by
  have hlive : ∀ bb, (it'.addTo bb).live = bb.live := fun bb => by cases it' <;> rfl
  have houtline : ∀ f, SameOutline f (f.modify (place fn serial b) it'.addTo) := fun f =>
    sameOutline_modifyAll [(place fn serial b, it'.addTo)] (by simpa using hlive)
  refine .edit fun d hd => hd.1.put howns hb (houtline d.func) (fun c hc => ?_) it fun N hN => ?_
  · rw [Func.block_modify (hd.1.owns_place hb), if_neg hc]
  · rw [Func.block_modify (hd.1.owns_place hb), if_pos rfl, content_addTo, hit N (hd.2 N hN)]

theorem accepts_finish {t t' : Terminator} (htargets : ∀ c ∈ t.successors, c ∈ st.blocks)
    (ht : ∀ N, G N → t' = t.rename (place fn serial) fun v => N v.name) :
    Accepts (Reading fn serial st G) (finish (place fn serial b) t')
      fun _ => Progress fn serial (st.put b (.term t)) := by
  refine .edit fun d hd => ?_
  obtain ⟨N₀, hN₀, -⟩ := hd.1.exists_told
  have hsucc : ∀ s ∈ t'.successors, d.func.owns s := by
    rw [ht N₀ (hd.2 N₀ hN₀), Terminator.successors_rename]
    intro s hs
    obtain ⟨c, hc, rfl⟩ := List.mem_map.mp hs
    exact hd.1.owns_place (htargets c hc)
  -- other blocks get predecessors, which are no part of their content
  have hblock := fun c => Func.block_terminate (c := c) (hd.1.owns_place hb) hsucc
  have houtline : SameOutline d.func (d.func.terminate (place fn serial b) t') := by
    rw [Func.terminate_eq]
    exact sameOutline_modifyAll _ Func.live_termEdits
  refine hd.1.put howns hb houtline (fun c hc => ?_) (.term t) fun N hN => ?_
  · rw [hblock, if_neg hc]
    rfl
  · rw [hblock, if_pos rfl, ht N (hd.2 N hN)]
    rfl

end Lines

end Source

end BranchFusion
