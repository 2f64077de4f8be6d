import BranchFusion.Proofs.Source.Printed
import BranchFusion.Proofs.Source.WellBuilt

/-!
# The names in functions that were read

A reader finds values by their names and blocks by their labels, so a function that was read must
not use a name for two things. Two more facts hold of every draft, besides those that make it well
built:

* its values are *named* (`BranchFusion.Source.Named`): a new value gets the next number, and a name
  that no other value has;
* its lines are *resolved* (`BranchFusion.Source.Resolved`): every label leads to one block, and
  every line uses values that were entered and mentions blocks that are live.

In a finished draft all values that were entered are defined, so the table of values is the list
of definitions up to order (`BranchFusion.Source.Finished.definedValues_perm`). It follows that what
was read is spellable (`BranchFusion.Source.spellable_of_parse`), and that the verifier has little
to say about it (`BranchFusion.Module.parse_establishes`).
-/

namespace BranchFusion

namespace Source

variable {d d' : Draft} {fn fn' : Func} {b : BlockId} {v : Value}

/-! ### Values -/

/-- **The values of a draft are named**: they are numbered by their places in the table, their names
are words, no name stands for two of them, and all of them were mentioned. -/
structure Named (d : Draft) : Prop where
  func : IsWord d.func.name
  numbers : d.func.values.toList.map Value.id = List.range d.func.values.size
  word : ∀ v ∈ d.func.values, IsWord v.name
  unique : ∀ v ∈ d.func.values, ∀ w ∈ d.func.values, v.name = w.name → v = w
  mentioned : ∀ v ∈ d.func.values, v ∈ d.mentions.map Prod.fst

/-- The blocks of a draft do not matter. -/
theorem Named.congr (h : Named d) (hname : d'.func.name = d.func.name)
    (hvalues : d'.func.values = d.func.values) (hmentions : d'.mentions = d.mentions) :
    Named d' := by
  refine ⟨hname ▸ h.func, ?_, ?_, ?_, ?_⟩
  · rw [hvalues]
    exact h.numbers
  · rw [hvalues]
    exact h.word
  · rw [hvalues]
    exact h.unique
  · rw [hvalues, hmentions]
    exact h.mentioned

/-- **A new value** gets the next number, and a name that was not taken. -/
theorem Named.enter (h : Named d) {name : String} (hname : IsWord name) (hnew : d.Unknown name)
    (line : Line) : Named (d.enter line name) := by
  constructor
  case func => exact h.func
  case numbers =>
    show (d.func.values.push _).toList.map Value.id = List.range (d.func.values.push _).size
    rw [Array.toList_push, Array.size_push, List.map_append, h.numbers, List.range_succ]
    rfl
  case word =>
    intro v hv
    rcases mem_values_enter.mp hv with hv | rfl
    · exact h.word v hv
    · exact hname
  case unique =>
    intro v hv w hw heq
    rcases mem_values_enter.mp hv with hv | rfl
    · rcases mem_values_enter.mp hw with hw | rfl
      · exact h.unique v hv w hw heq
      · exact absurd heq (hnew v hv)
    · rcases mem_values_enter.mp hw with hw | rfl
      · exact absurd heq.symm (hnew w hw)
      · rfl
  case mentioned =>
    intro v hv
    show v ∈ (d.mentions ++ [_]).map Prod.fst
    rw [List.map_append, List.mem_append]
    rcases mem_values_enter.mp hv with hv | rfl
    · exact Or.inl (h.mentioned v hv)
    · exact Or.inr (List.mem_singleton.mpr rfl)

theorem Named.mentions (h : Mentions d d') (hd : Named d) : Named d' := by
  induction h with
  | refl => exact hd
  | enter _ hname hnew line ih => exact ih.enter hname hnew line

theorem Named.marks {o : Option Value} (h : Marks d o d') (hd : Named d) : Named d' := by
  cases h with
  | nothing h => exact hd.mentions h
  | value h _ _ h' => exact Named.mentions h' ((hd.mentions h).congr rfl rfl rfl)

theorem Named.effect (h : Effect b d d') (hd : Named d) : Named d' := by
  cases h with
  | instr i h _ _ => exact (hd.marks h).congr Func.name_modify Func.values_modify rfl
  | phi p h _ _ => exact (hd.marks h).congr Func.name_modify Func.values_modify rfl
  | term t h _ _ =>
    refine (hd.mentions h).congr ?_ ?_ rfl
    · rw [Func.terminate_eq, Func.name_modifyAll]
    · rw [Func.terminate_eq, Func.values_modifyAll]

theorem Drafted.named (h : Drafted d) : Named d := by
  induction h with
  | start serial name hname => exact ⟨hname, rfl, by simp, by simp, by simp⟩
  | param _ hmarks ih => exact (ih.marks hmarks).congr rfl rfl rfl
  | block _ label _ _ ih => exact ih.congr rfl rfl rfl
  | line _ _ _ heffect ih => exact ih.effect heffect

/-! ### Lines -/

/-- **A line is resolved**: the values that it uses were entered, the blocks that it mentions are
live, a function that it calls has a word for a name, and a phi has inputs. -/
structure Item.Resolved (fn : Func) (it : Item) : Prop where
  operand : ∀ u ∈ it.operands, ∃ v ∈ fn.values, u = some v
  target : ∀ c ∈ it.targets, fn.owns c
  callee : ∀ i, it = .instr i → ∀ f ∈ i.callee?, IsWord f
  nonempty : ∀ p, it = .phi p → p.inputs ≠ []

theorem Item.Resolved.mono {it : Item} (h : it.Resolved fn)
    (hvalues : ∀ v ∈ fn.values, v ∈ fn'.values) (howns : ∀ c, fn.owns c → fn'.owns c) :
    it.Resolved fn' := by
  refine ⟨fun u hu => ?_, fun c hc => howns c (h.target c hc), h.callee, h.nonempty⟩
  obtain ⟨v, hv, rfl⟩ := h.operand u hu
  exact ⟨v, hvalues v hv, rfl⟩

/-- **The lines of a function are resolved**, and its labels are labels and lead to one block
each. -/
structure Resolved (fn : Func) : Prop where
  label : ∀ b, fn.owns b →
    isLabel (fn.block b).label.toList = true ∧ ';' ∉ (fn.block b).label.toList
  labels : ∀ b c, fn.owns b → fn.owns c → (fn.block b).label = (fn.block c).label → b = c
  items : ∀ b, fn.owns b → ∀ it ∈ (fn.block b).items, it.Resolved fn

/-- An edit that keeps the blocks and their labels, and adds resolved lines only. -/
theorem Resolved.of_blocks (h : Resolved fn) (hvalues : ∀ v ∈ fn.values, v ∈ fn'.values)
    (hids : fn'.ids = fn.ids)
    (hblock : ∀ b, fn.owns b → (fn'.block b).label = (fn.block b).label ∧
      ∀ it ∈ (fn'.block b).items, it.Resolved fn' ∨ it ∈ (fn.block b).items) : Resolved fn' := by
  have howns : ∀ c, fn'.owns c ↔ fn.owns c := fun c => by
    rw [← Func.mem_ids, hids, Func.mem_ids]
  refine ⟨fun b hb => ?_, fun b c hb hc heq => ?_, fun b hb it hit => ?_⟩
  · rw [(hblock b ((howns b).mp hb)).1]
    exact h.label b ((howns b).mp hb)
  · rw [(hblock b ((howns b).mp hb)).1, (hblock c ((howns c).mp hc)).1] at heq
    exact h.labels b c ((howns b).mp hb) ((howns c).mp hc) heq
  · rcases (hblock b ((howns b).mp hb)).2 it hit with hit | hit
    · exact hit
    · exact (h.items b ((howns b).mp hb) it hit).mono hvalues fun c => (howns c).mpr

theorem Mentions.mem_values (h : Mentions d d') (hv : v ∈ d.func.values) : v ∈ d'.func.values := by
  induction h with
  | refl => exact hv
  | enter _ _ _ _ ih => exact mem_values_enter.mpr (Or.inl ih)

theorem Marks.mem_values {o : Option Value} (h : Marks d o d') (hv : v ∈ d.func.values) :
    v ∈ d'.func.values := by
  cases h with
  | nothing h => exact h.mem_values hv
  | value h _ _ h' => exact h'.mem_values (h.mem_values hv)

theorem Resolved.marks {o : Option Value} (h : Marks d o d') (hd : Resolved d.func) :
    Resolved d'.func :=
  hd.of_blocks (fun _ => h.mem_values) h.ids fun _ _ => by
    rw [h.block]
    exact ⟨rfl, fun _ => Or.inr⟩

/-- A line that is added to a block. -/
theorem Resolved.modify (h : Resolved fn) (hb : fn.owns b) (it : Item) (hit : it.Resolved fn) :
    Resolved (fn.modify b it.addTo) := by
  have hlive : ∀ bb, (it.addTo bb).live = bb.live := fun bb => by cases it <;> rfl
  have hlabel : ∀ bb, (it.addTo bb).label = bb.label := fun bb => by cases it <;> rfl
  refine h.of_blocks (by simp) (Func.ids_modify hlive) fun c _ => ?_
  rw [Func.block_modify hb]
  split
  · next hc =>
    subst hc
    refine ⟨hlabel _, fun x hx => (it.mem_items_addTo hx).imp_left ?_⟩
    rintro rfl
    exact hit.mono (by simp) fun c hc => by rwa [Func.owns_modify hlive]
  · exact ⟨rfl, fun _ => Or.inr⟩

theorem Resolved.terminate (h : Resolved fn) (hb : fn.owns b) {t : Terminator}
    (ht : Item.Resolved fn (.term t)) : Resolved (fn.terminate b t) := by
  have hvalues : (fn.terminate b t).values = fn.values := by
    rw [Func.terminate_eq, Func.values_modifyAll]
  have hids : (fn.terminate b t).ids = fn.ids := by
    rw [Func.terminate_eq, Func.ids_modifyAll Func.live_termEdits]
  refine h.of_blocks (by simp [hvalues]) hids fun c _ => ?_
  rw [Func.block_terminate hb ht.target]
  refine ⟨rfl, fun x hx => ?_⟩
  by_cases hc : c = b
  · rw [if_pos hc] at hx
    refine (Item.mem_items_addTo (.term t) hx).imp_left ?_
    rintro rfl
    refine ht.mono (by simp [hvalues]) fun c hc => ?_
    rwa [← Func.mem_ids, hids, Func.mem_ids]
  · rw [if_neg hc] at hx
    exact Or.inr hx

theorem Resolved.effect (h : Effect b d d') (hb : d.func.owns b) (hd : Resolved d.func) :
    Resolved d'.func := by
  cases h with
  | instr i h hoperands hcallee =>
    refine (hd.marks h).modify (by rwa [h.owns]) (.instr i) ⟨fun u hu => ?_, ?_, ?_, ?_⟩
    · obtain ⟨v, hv, rfl⟩ := List.mem_map.mp hu
      exact ⟨v, hoperands v hv, rfl⟩
    · simp [Item.targets]
    · rintro _ ⟨⟩
      exact hcallee
    · rintro _ ⟨⟩
  | phi p h hinputs hne =>
    refine (hd.marks h).modify (by rwa [h.owns]) (.phi p) ⟨fun u hu => ?_, fun c hc => ?_, ?_, ?_⟩
    · obtain ⟨e, he, rfl⟩ := List.mem_map.mp hu
      exact (hinputs.entry e he).2
    · obtain ⟨e, he, rfl⟩ := List.mem_map.mp hc
      exact (hinputs.entry e he).1
    · rintro _ ⟨⟩
    · rintro _ ⟨⟩
      exact hne
  | term t h htargets hoperands =>
    have hmarks := Marks.nothing h
    refine (hd.marks hmarks).terminate (by rwa [hmarks.owns]) ⟨fun u hu => ?_, htargets.owned, ?_,
      ?_⟩
    · obtain ⟨v, hv, rfl⟩ := List.mem_map.mp hu
      exact ⟨v, hoperands v hv, rfl⟩
    · rintro _ ⟨⟩
    · rintro _ ⟨⟩

/-- A new block has no lines yet. -/
theorem Resolved.createBlock (h : Resolved fn) {label : String}
    (hlabel : isLabel label.toList = true ∧ ';' ∉ label.toList)
    (hnew : ∀ b, fn.owns b → (fn.block b).label ≠ label) :
    Resolved (fn.createBlock label).2 := by
  have hold : ∀ {c}, fn.owns c → (fn.createBlock label).2.block c = fn.block c := fun hc => by
    rw [Func.block_createBlock, if_neg fun heq => Func.not_owns_createBlock label (heq ▸ hc)]
  have hself : (fn.createBlock label).2.block (fn.createBlock label).1 = { label := label } := by
    rw [Func.block_createBlock, if_pos rfl]
  refine ⟨fun b hb => ?_, fun b c hb hc heq => ?_, fun b hb it hit => ?_⟩
  all_goals rcases (Func.owns_createBlock label).mp hb with hb | rfl
  · rw [hold hb]
    exact h.label b hb
  · rw [hself]
    exact hlabel
  · rcases (Func.owns_createBlock label).mp hc with hc | rfl
    · rw [hold hb, hold hc] at heq
      exact h.labels b c hb hc heq
    · rw [hold hb, hself] at heq
      exact absurd heq (hnew b hb)
  · rcases (Func.owns_createBlock label).mp hc with hc | rfl
    · rw [hold hc, hself] at heq
      exact absurd heq.symm (hnew c hc)
    · rfl
  · rw [hold hb] at hit
    exact (h.items b hb it hit).mono (fun _ hv => hv) fun c hc =>
      (Func.owns_createBlock label).mpr (Or.inl hc)
  · rw [hself] at hit
    exact absurd hit (by simp [Block.items])

theorem Drafted.resolved (h : Drafted d) : Resolved d.func := by
  induction h with
  | start serial name _ =>
    refine ⟨fun b hb => ?_, fun b c hb => ?_, fun b hb => ?_⟩
    all_goals exact absurd hb (by simp [Func.owns, Func.liveAt?])
  | param _ hmarks ih =>
    exact (ih.marks hmarks).of_blocks (fun _ hv => hv) rfl fun _ _ => ⟨rfl, fun _ => Or.inr⟩
  | block _ label hlabel hnew ih => exact ih.createBlock hlabel hnew
  | line _ hb _ heffect ih => exact ih.effect heffect hb

/-! ### Functions that were read -/

/-- **The table of values is the list of definitions**, up to order. -/
theorem Finished.definedValues_perm (h : Finished d) :
    d.func.definedValues.Perm d.func.values.toList := by
  have haccounted := h.drafted.accounted
  have hnamed := h.drafted.named
  have hnodup : d.func.values.toList.Nodup := by
    refine List.Nodup.of_map Value.id ?_
    rw [hnamed.numbers]
    exact List.nodup_range
  refine haccounted.perm.trans
    ((List.perm_ext_iff_of_nodup haccounted.nodup hnodup).mpr fun v => ?_)
  rw [Array.mem_toList_iff]
  refine ⟨haccounted.known v, fun hv => ?_⟩
  -- what was entered was mentioned, and what was mentioned is defined in the end
  obtain ⟨e, he, rfl⟩ := List.mem_map.mp (hnamed.mentioned v hv)
  exact h.defined e he

theorem Finished.defined_iff (h : Finished d) : d.func.Defined v ↔ v ∈ d.func.values := by
  rw [← Func.mem_definedValues, h.definedValues_perm.mem_iff, Array.mem_toList_iff]

/-- Every value that is used was entered. -/
theorem Finished.mem_values_of_use (h : Finished d) (hb : d.func.owns b) {u : Option Value}
    (hu : u ∈ (d.func.block b).uses) : ∃ v ∈ d.func.values, u = some v := by
  rw [Block.uses_eq] at hu
  obtain ⟨it, hit, hu⟩ := List.mem_flatMap.mp hu
  exact (h.drafted.resolved.items b hb it hit).operand u hu

/-- A label that was read is written as it is. -/
theorem Resolved.label_eq (h : Resolved fn) (hb : fn.owns b) : fn.label b = (fn.block b).label := by
  have hne : (fn.block b).label ≠ "" := by
    intro hempty
    have hlabel := (h.label b hb).1
    rw [hempty] at hlabel
    exact absurd hlabel (by decide)
  exact if_neg hne

/-- **What was read is spellable.** -/
theorem Finished.spellable (h : Finished d) : d.func.Spellable := by
  have hwell := h.wellBuilt
  have hnamed := h.drafted.named
  have hresolved := h.drafted.resolved
  have hphi : ∀ {b p}, p ∈ (d.func.block b).phis → Item.phi p ∈ (d.func.block b).items :=
    fun hp => by simpa [Block.items] using hp
  refine
    { hwell.toWired with
      first := h.drafted.connected.root, sorted := hwell.sorted, nodup := hwell.nodup
      name := hnamed.func, valueName := fun v hv => hnamed.word v (h.defined_iff.mp hv)
      nonempty := fun b hb p hp => (hresolved.items b hb _ (hphi hp)).nonempty p rfl
      inputs := ?inputs, used := ?used, values := ?values, labels := ?labels, label := ?label
      callee := ?callee }
  case inputs =>
    intro b hb p hp e he
    have hitem := hresolved.items b hb _ (hphi hp)
    obtain ⟨v, -, hv⟩ := hitem.operand e.2 (List.mem_map_of_mem he)
    exact ⟨hitem.target e.1 (List.mem_map_of_mem he), by simp [hv]⟩
  case used =>
    intro b hb v hv
    obtain ⟨w, hw, heq⟩ := h.mem_values_of_use hb hv
    exact h.defined_iff.mpr (Option.some.inj heq ▸ hw)
  case values =>
    intro v w hv hw
    exact hnamed.unique v (h.defined_iff.mp hv) w (h.defined_iff.mp hw)
  case labels =>
    intro b c hb hc heq
    rw [hresolved.label_eq hb, hresolved.label_eq hc] at heq
    exact hresolved.labels b c hb hc heq
  case label =>
    intro b hb
    rw [hresolved.label_eq hb]
    exact hresolved.label b hb
  case callee =>
    intro b hb i hi
    exact (hresolved.items b hb (.instr i) (by simpa [Block.items] using hi)).callee i rfl

/-- The verifier finds no value that is defined twice, or used and not defined. -/
theorem Finished.valueDefects_eq_nil (h : Finished d) : d.func.valueDefects = [] := by
  have hnodup := h.wellBuilt.nodup
  rw [Func.definedValues, List.nodup_append] at hnodup
  refine Func.valueDefects_eq_nil_iff_values.mpr ⟨⟨hnodup.2.1, fun b v hb hv hparam => ?_⟩,
    fun b hb u hu => ?_⟩
  · exact hnodup.2.2 v hparam v (List.mem_flatMap.mpr ⟨b, Func.mem_ids.mpr hb, hv⟩) rfl
  · obtain ⟨v, hv, heq⟩ := h.mem_values_of_use hb hu
    exact ⟨v, heq, h.defined_iff.mpr hv⟩

variable {src : String} {serial : Nat} {m : Module}

/-- **A function that was read is spellable.** -/
theorem spellable_of_parse (h : Module.parse src serial = .ok m) :
    ∀ fn ∈ m.funcs, fn.Spellable := by
  intro fn hfn
  obtain ⟨d, hd, rfl⟩ := (listed_of_parse h).finished fn hfn
  exact hd.spellable

end Source

/-- **What reading establishes.** No two functions of a module that was read have the same name, and
in each of them

* the predecessor lists are the edges, counted, and every block is terminated and leads to blocks of
  the function;
* no two blocks have the same label;
* every value that is used was entered, every value that was entered is defined once, by a
  parameter or an instruction, and nothing else is defined;
* the values are numbered upwards from zero.

So all that the verifier can find are blocks that are not reached, and phis whose inputs are not
those of the predecessors. -/
theorem Module.parse_establishes {src : String} {serial : Nat} {m : Module}
    (h : Module.parse src serial = .ok m) :
    (m.funcs.map Func.name).Nodup ∧ ∀ fn ∈ m.funcs,
      (∀ b, fn.owns b → ∀ p, (fn.block b).preds.count p =
        if fn.owns p then (fn.successors p).count b else 0) ∧
      (∀ b, fn.owns b → (∃ t, (fn.block b).term = some t) ∧ ∀ c ∈ fn.successors b, fn.owns c) ∧
      (fn.ids.map fun b => (fn.block b).label).Nodup ∧
      (∀ b, fn.owns b → ∀ u ∈ (fn.block b).uses, ∃ v ∈ fn.values, u = some v) ∧
      (∀ v ∈ fn.values, fn.definedValues.count v = 1) ∧
      (∀ v ∈ fn.definedValues, v ∈ fn.values) ∧
      fn.values.toList.map Value.id = List.range fn.values.size ∧
      ∀ d ∈ fn.defects, (∃ b, d = .unreachable b) ∨ (∃ b r p, d = .strayInput b (some r) p) ∨
        ∃ b r p, d = .missingInput b (some r) p := by
  have hlisted := Source.listed_of_parse h
  refine ⟨hlisted.names, fun fn hfn => ?_⟩
  obtain ⟨draft, hdraft, rfl⟩ := hlisted.finished fn hfn
  have hwell := hdraft.wellBuilt
  have hmem : ∀ v, v ∈ draft.func.definedValues ↔ v ∈ draft.func.values := fun v =>
    Func.mem_definedValues.trans hdraft.defined_iff
  refine ⟨hwell.preds, fun b hb => ⟨Option.isSome_iff_exists.mp (hwell.terminated b hb),
    fun c hc => hwell.successors b c hb hc⟩, ?labels, fun b hb u => hdraft.mem_values_of_use hb,
    fun v hv => List.count_eq_one_of_mem hwell.nodup ((hmem v).mpr hv), fun v => (hmem v).mp,
    hdraft.drafted.named.numbers, ?defects⟩
  case labels =>
    refine (List.nodup_map_iff_inj_on Func.nodup_ids).mpr fun b hb c hc heq => ?_
    exact hdraft.drafted.resolved.labels b c (Func.mem_ids.mp hb) (Func.mem_ids.mp hc) heq
  case defects =>
    intro d hd
    rw [Func.defects_of_wired hwell.toWired hdraft.valueDefects_eq_nil, List.mem_append] at hd
    rcases hd with hd | hd
    · obtain ⟨b, r, p, hstray | hmissing⟩ := Func.kind_of_mem_phiDefects hd
      · exact Or.inr (Or.inl ⟨b, r, p, hstray⟩)
      · exact Or.inr (Or.inr ⟨b, r, p, hmissing⟩)
    · obtain ⟨b, -, rfl⟩ := List.mem_map.mp hd
      exact Or.inl ⟨b, rfl⟩

/-- So it is with the program that the verifier rejects. -/
theorem tangled_established :
    tangled.definedValues.count ⟨0, 2, "x"⟩ = 1 ∧
      ∀ d ∈ tangled.defects, (∃ b, d = .unreachable b) ∨ (∃ b r p, d = .strayInput b (some r) p) ∨
        ∃ b r p, d = .missingInput b (some r) p := by
  obtain ⟨-, -, -, -, hcount, -, -, hkinds⟩ :=
    (Module.parse_establishes parse_tangledText).2 tangled (by simp)
  exact ⟨hcount _ (by simp [tangled]), hkinds⟩

end BranchFusion
