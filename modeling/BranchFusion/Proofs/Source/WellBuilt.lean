import BranchFusion.Proofs.Source.Draft
import BranchFusion.Proofs.WellBuilt
import BranchFusion.Verifier

/-!
# What is read is well built

Three facts hold of every draft, from the first step of reading on: the values that are marked as
defined are those that parameters and instructions define (`BranchFusion.Source.Accounted`), the
predecessor lists count the edges there are so far (`BranchFusion.Source.Connected`), and the tables
are sorted. They are proved by induction on the history of the draft. A block gets its edges all at
once, when it is terminated, and until then it has none; this is why no edge is counted twice.

In a finished draft all blocks are terminated, so the function is well built
(`BranchFusion.Source.wellBuilt_of_parse`). It need not be valid: `BranchFusion.tangled` was read,
and the verifier rejects it.
-/

namespace BranchFusion

namespace Source

variable {d d' : Draft} {b : BlockId} {pending : List Value}

/-! ### Values -/

/-- **The values of a draft are accounted for**: those marked as defined are different, were
entered, and are the ones that the function defines, but for those whose definition is still
pending. -/
structure Accounted (pending : List Value) (d : Draft) : Prop where
  numbered : ∀ v ∈ d.func.values, v.id < d.func.values.size
  known : ∀ v ∈ d.defined, v ∈ d.func.values
  nodup : d.defined.Nodup
  perm : (pending ++ d.func.definedValues).Perm d.defined

theorem Accounted.mentions (h : Mentions d d') (hd : Accounted pending d) :
    Accounted pending d' := by
  induction h with
  | refl => exact hd
  | @enter d' name _ _ _ line ih =>
    refine ⟨fun v hv => ?_, fun v hv => ?_, ih.nodup, ih.perm⟩
    · have hsize : (d'.enter line name).func.values.size = d'.func.values.size + 1 :=
        Array.size_push ..
      rw [hsize]
      rcases mem_values_enter.mp hv with hv | rfl
      · exact Nat.lt_succ_of_lt (ih.numbered v hv)
      · exact Nat.lt_succ_self _
    · exact mem_values_enter.mpr (Or.inl (ih.known v hv))

/-- A value that is marked is pending. -/
theorem Accounted.marks {o : Option Value} (h : Marks d o d') (hd : Accounted [] d) :
    Accounted o.toList d' := by
  cases h with
  | nothing h => exact hd.mentions h
  | @value d₁ _ r h hr hnew h' =>
    have hd₁ := hd.mentions h
    refine Accounted.mentions h' ⟨hd₁.numbered, fun v hv => ?_, ?_, hd₁.perm.cons r⟩
    · rcases List.mem_cons.mp hv with rfl | hv
      · exact hr
      · exact hd₁.known v hv
    · exact List.nodup_cons.mpr ⟨hnew, hd₁.nodup⟩

/-- A pending definition that an edit adds is pending no more. -/
theorem Accounted.add {fn : Func} (hd : Accounted pending d) (hvalues : fn.values = d.func.values)
    (hperm : fn.definedValues.Perm (pending ++ d.func.definedValues)) :
    Accounted [] { d with func := fn } := by
  refine ⟨?_, ?_, hd.nodup, hperm.trans hd.perm⟩
  · rw [hvalues]
    exact hd.numbered
  · rw [hvalues]
    exact hd.known

/-- An edit of one block adds the definitions that the block gets. -/
theorem Accounted.modify (hd : Accounted pending d) (hb : d.func.owns b) {f : Block → Block}
    (hlive : ∀ bb, (f bb).live = bb.live)
    (hf : ∀ bb, (f bb).definitions.Perm (pending ++ bb.definitions)) :
    Accounted [] { d with func := d.func.modify b f } := by
  refine hd.add Func.values_modify (Func.definedValues_perm_of_block
    (Func.ids_modify hlive) Func.params_modify hb ?_ fun x _ hx => ?_)
  · rw [Func.block_modify hb, if_pos rfl]
    exact hf _
  · rw [Func.block_modify hb, if_neg hx]

theorem Accounted.effect (h : Effect b d d') (hb : d.func.owns b) (hd : Accounted [] d) :
    Accounted [] d' := by
  cases h with
  | instr i h _ _ =>
    refine (hd.marks h).modify (by rwa [h.owns]) (fun _ => rfl) fun bb => ?_
    have hadd : (bb.append i).definitions = bb.definitions ++ i.result?.toList := by
      cases hr : i.result? with
      | none => simp [Block.definitions, Block.append, hr]
      | some r => simp [Block.definitions, Block.append, hr]
    rw [hadd]
    exact List.perm_append_comm
  | phi p h _ _ =>
    refine (hd.marks h).modify (by rwa [h.owns]) (fun _ => rfl) fun bb => ?_
    simp only [Block.definitions, List.map_append, List.map_singleton, List.append_assoc,
      List.singleton_append, Option.toList]
    exact List.perm_middle
  | @term d₁ t h htargets _ =>
    have hb' : d₁.func.owns b := by rwa [(Marks.nothing h).owns]
    refine (hd.mentions h).add (by rw [Func.terminate_eq, Func.values_modifyAll]) ?_
    refine Func.definedValues_perm_of_block ?_ ?_ hb' ?_ fun x _ _ => ?_
    · rw [Func.terminate_eq, Func.ids_modifyAll Func.live_termEdits]
    · rw [Func.terminate_eq, Func.params_modifyAll]
    all_goals rw [Func.block_terminate hb' htargets.owned]
    · exact List.Perm.refl _
    · rfl

theorem Drafted.accounted (h : Drafted d) : Accounted [] d := by
  induction h with
  | start serial name _ => exact ⟨by simp, by simp, List.nodup_nil, List.Perm.refl _⟩
  | @param _ d' r _ hmarks ih =>
    refine (ih.marks hmarks).add rfl ?_
    simp only [Func.definedValues, List.append_assoc, List.singleton_append, Option.toList]
    exact List.perm_middle
  | @block d _ label _ _ ih =>
    refine ih.add rfl (List.Perm.of_eq ?_)
    rw [List.nil_append, Func.definedValues, Func.definedValues, Func.ids_createBlock,
      List.flatMap_append, List.flatMap_singleton, Func.block_createBlock, if_pos rfl]
    -- the new block defines nothing, and the old ones are as they were
    simp only [Block.definitions, List.map_nil, List.filterMap_nil, List.append_nil]
    refine congrArg _ (List.flatMap_congr fun x hx => ?_)
    have hne : x ≠ (d.func.createBlock label).1 :=
      fun h => Func.not_owns_createBlock label (h ▸ Func.mem_ids.mp hx)
    rw [Func.block_createBlock, if_neg hne]
  | line _ hb _ heffect ih => exact ih.effect heffect hb

/-! ### Edges -/

/-- **The edges of a draft are connected**: the entry is the first block, branches lead to live
blocks, and the predecessor lists count the edges there are so far. -/
structure Connected (fn : Func) : Prop where
  root : fn.root = fn.ids.head?
  successors : ∀ a b, fn.owns a → fn.Edge a b → fn.owns b
  preds : ∀ b, fn.owns b → ∀ p, (fn.block b).preds.count p =
    if fn.owns p then (fn.successors p).count b else 0

/-- What a function is connected by is the blocks, their branches and their predecessors. -/
theorem Connected.congr {fn fn' : Func} (h : Connected fn) (hroot : fn'.root = fn.root)
    (hids : fn'.ids = fn.ids)
    (hblock : ∀ c, fn.owns c → (fn'.block c).preds = (fn.block c).preds ∧
      (fn'.block c).term = (fn.block c).term) : Connected fn' := by
  have howns : ∀ c, fn'.owns c ↔ fn.owns c := fun c => by
    rw [← Func.mem_ids, hids, Func.mem_ids]
  have hsucc : ∀ c, fn.owns c → fn'.successors c = fn.successors c := fun c hc => by
    rw [Func.successors, Block.successors, Block.edges, (hblock c hc).2]
    rfl
  refine ⟨by rw [hroot, hids, h.root], fun a c ha he => ?_, fun c hc p => ?_⟩
  · rw [Func.Edge, hsucc a ((howns a).mp ha)] at he
    exact (howns c).mpr (h.successors a c ((howns a).mp ha) he)
  · rw [(hblock c ((howns c).mp hc)).1, h.preds c ((howns c).mp hc)]
    by_cases hp : fn.owns p
    · rw [if_pos hp, if_pos ((howns p).mpr hp), hsucc p hp]
    · rw [if_neg hp, if_neg fun h' => hp ((howns p).mp h')]

theorem Connected.marks {o : Option Value} (h : Marks d o d') (hd : Connected d.func) :
    Connected d'.func :=
  hd.congr (by rw [h.func_eq]) h.ids fun c _ => by rw [h.block]; exact ⟨rfl, rfl⟩

/-- An edit of a block that leaves its terminator and its predecessors alone. -/
theorem Connected.modify {fn : Func} (h : Connected fn) (hb : fn.owns b) {f : Block → Block}
    (hf : ∀ bb, (f bb).live = bb.live ∧ (f bb).preds = bb.preds ∧ (f bb).term = bb.term) :
    Connected (fn.modify b f) := by
  refine h.congr Func.root_modify (Func.ids_modify fun bb => (hf bb).1) fun c _ => ?_
  rw [Func.block_modify hb]
  split
  · next hc =>
    subst hc
    exact (hf _).2
  · exact ⟨rfl, rfl⟩

/-- A new block has no edges, and no edge leads to it. -/
theorem Connected.createBlock {fn : Func} (h : Connected fn) (label : String) :
    Connected (fn.createBlock label).2 := by
  have hnew := fn.not_owns_createBlock label
  have hsucc : ∀ c, (fn.createBlock label).2.successors c =
      if c = (fn.createBlock label).1 then [] else fn.successors c := by
    intro c
    rw [Func.successors, Func.block_createBlock]
    split
    · rfl
    · rfl
  constructor
  case root =>
    rw [Func.ids_createBlock]
    have hroot : (fn.createBlock label).2.root = fn.root.or (some (fn.createBlock label).1) := rfl
    rw [hroot, h.root]
    cases fn.ids <;> rfl
  case successors =>
    intro a c ha he
    rw [Func.Edge, hsucc] at he
    split at he
    · exact absurd he (by simp)
    · next hne =>
      rw [Func.owns_createBlock] at ha ⊢
      exact Or.inl (h.successors a c (ha.resolve_right hne) he)
  case preds =>
    intro c hc p
    rw [Func.owns_createBlock] at hc
    rw [Func.block_createBlock, hsucc]
    simp only [Func.owns_createBlock]
    by_cases hcn : c = (fn.createBlock label).1
    · -- the old blocks do not know of the new one
      subst hcn
      rw [if_pos rfl]
      by_cases hp : fn.owns p
      · have hpn : p ≠ (fn.createBlock label).1 := fun h' => hnew (h' ▸ hp)
        have hzero : (fn.successors p).count (fn.createBlock label).1 = 0 :=
          List.count_eq_zero.mpr fun hmem => hnew (h.successors p _ hp hmem)
        simp [hp, hpn, hzero]
      · by_cases hpn : p = (fn.createBlock label).1 <;> simp [hp, hpn]
    · rw [if_neg hcn, h.preds c (hc.resolve_right hcn)]
      by_cases hpn : p = (fn.createBlock label).1
      · subst hpn
        simp [hnew]
      · simp [hpn]

/-- **A block that is terminated gets its edges**, and had none before. -/
theorem Connected.terminate {fn : Func} (h : Connected fn) (hb : fn.owns b)
    (hopen : (fn.block b).term = none) {t : Terminator} (ht : ∀ s ∈ t.successors, fn.owns s) :
    Connected (fn.terminate b t) := by
  have hids : (fn.terminate b t).ids = fn.ids := by
    rw [Func.terminate_eq, Func.ids_modifyAll Func.live_termEdits]
  have howns : ∀ c, (fn.terminate b t).owns c ↔ fn.owns c := fun c => by
    rw [← Func.mem_ids, hids, Func.mem_ids]
  have hsucc : ∀ c, (fn.terminate b t).successors c =
      if c = b then t.successors else fn.successors c := by
    intro c
    rw [Func.successors, Func.block_terminate hb ht]
    split <;> rfl
  have hnone : fn.successors b = [] := by
    rw [Func.successors, Block.successors, Block.edges, hopen]
    rfl
  constructor
  case root => rw [hids, ← h.root, Func.terminate_eq, Func.root_modifyAll]
  case successors =>
    intro a c ha he
    rw [howns] at ha ⊢
    rw [Func.Edge, hsucc] at he
    split at he
    · exact ht c he
    · exact h.successors a c ha he
  case preds =>
    intro c hc p
    rw [howns] at hc
    simp only [Func.block_terminate hb ht, howns, hsucc, List.count_append, List.count_replicate,
      h.preds c hc p, beq_iff_eq]
    by_cases hp : p = b
    · -- all edges from `b` are new
      subst hp
      simp [hb, hnone]
    · simp [hp, Ne.symm hp]

theorem Connected.effect (h : Effect b d d') (hb : d.func.owns b)
    (hopen : (d.func.block b).term = none) (hd : Connected d.func) : Connected d'.func := by
  cases h with
  | instr i h _ _ =>
    dsimp only
    refine (hd.marks h).modify ?_ fun _ => ?_
    · rwa [h.owns]
    · exact ⟨rfl, rfl, rfl⟩
  | phi p h _ _ =>
    dsimp only
    refine (hd.marks h).modify ?_ fun _ => ?_
    · rwa [h.owns]
    · exact ⟨rfl, rfl, rfl⟩
  | term t h htargets _ =>
    have hmarks := Marks.nothing h
    refine (hd.marks hmarks).terminate (by rwa [hmarks.owns]) ?_ htargets.owned
    rwa [hmarks.block]

theorem Drafted.connected (h : Drafted d) : Connected d.func := by
  induction h with
  | start serial name _ =>
    refine ⟨rfl, fun a c ha => ?_, fun c hc => ?_⟩
    · exact absurd ha (by simp [Func.owns, Func.liveAt?])
    · exact absurd hc (by simp [Func.owns, Func.liveAt?])
  | param _ hmarks ih => exact (ih.marks hmarks).congr rfl rfl fun _ _ => ⟨rfl, rfl⟩
  | block _ label _ _ ih => exact ih.createBlock label
  | line _ hb hopen heffect ih => exact ih.effect heffect hb hopen

/-! ### Tables -/

theorem sorted_marks {o : Option Value} (h : Marks d o d') (hd : d.func.Sorted) :
    d'.func.Sorted := by
  rw [h.func_eq]
  exact ⟨hd.phi, hd.term⟩

/-- An edit of a block that puts in sorted tables only. -/
theorem sorted_modify {fn : Func} (h : fn.Sorted) (hb : fn.owns b) {f : Block → Block}
    (hlive : ∀ bb, (f bb).live = bb.live)
    (hf : ∀ bb, (∀ p ∈ (f bb).phis, p.Ordered ∨ p ∈ bb.phis) ∧ (f bb).term = bb.term) :
    (fn.modify b f).Sorted := by
  refine h.of_blocks (fun c hc p hp => ?_) fun c hc t ht => ?_
  all_goals rw [Func.owns_modify hlive] at hc
  · rw [Func.block_modify hb] at hp
    split at hp
    · next hcb =>
      subst hcb
      exact ((hf _).1 p hp).imp_right fun hp => ⟨hc, hp⟩
    · exact Or.inr ⟨hc, hp⟩
  · rw [Func.block_modify hb] at ht
    split at ht
    · next hcb =>
      subst hcb
      exact Or.inr ⟨hc, (hf _).2 ▸ ht⟩
    · exact Or.inr ⟨hc, ht⟩

theorem sorted_effect (h : Effect b d d') (hb : d.func.owns b) (hd : d.func.Sorted) :
    d'.func.Sorted := by
  cases h with
  | instr i h _ _ =>
    dsimp only
    refine sorted_modify (sorted_marks h hd) ?_ (fun _ => rfl) fun bb => ?_
    · rwa [h.owns]
    · exact ⟨fun _ => Or.inr, rfl⟩
  | phi p h hinputs _ =>
    dsimp only
    refine sorted_modify (sorted_marks h hd) ?_ (fun _ => rfl) fun bb => ⟨fun q hq => ?_, rfl⟩
    · rwa [h.owns]
    · rcases List.mem_append.mp hq with hq | hq
      · exact Or.inr hq
      · rw [List.mem_singleton.mp hq]
        exact Or.inl hinputs.ordered
  | @term d₁ t h htargets _ =>
    have hmarks := Marks.nothing h
    have hb' : d₁.func.owns b := by rwa [hmarks.owns]
    refine (sorted_marks hmarks hd).of_blocks (fun c hc p hp => ?_) fun c hc t' ht => ?_
    all_goals
      rw [Func.terminate_eq, Func.owns_modifyAll Func.live_termEdits] at hc
    · rw [Func.block_terminate hb' htargets.owned] at hp
      exact Or.inr ⟨hc, hp⟩
    · rw [Func.block_terminate hb' htargets.owned] at ht
      dsimp only at ht
      split at ht
      · rw [← Option.some.inj ht]
        exact Or.inl htargets.ordered
      · exact Or.inr ⟨hc, ht⟩

theorem Drafted.sorted (h : Drafted d) : d.func.Sorted := by
  induction h with
  | start serial name _ =>
    refine ⟨fun c hc => ?_, fun c hc => ?_⟩
    all_goals exact absurd hc (by simp [Func.owns, Func.liveAt?])
  | param _ hmarks ih => exact ⟨(sorted_marks hmarks ih).phi, (sorted_marks hmarks ih).term⟩
  | block _ label _ _ ih =>
    refine ih.of_blocks (fun c hc p hp => ?_) fun c hc t ht => ?_
    all_goals rw [Func.owns_createBlock] at hc
    · rw [Func.block_createBlock] at hp
      split at hp
      · exact absurd hp (by simp)
      · next hne => exact Or.inr ⟨hc.resolve_right hne, hp⟩
    · rw [Func.block_createBlock] at ht
      split at ht
      · exact absurd ht (by simp)
      · next hne => exact Or.inr ⟨hc.resolve_right hne, ht⟩
  | line _ hb _ heffect ih => exact sorted_effect heffect hb ih

/-! ### Functions that were read -/

/-- **A finished draft is well built.** -/
theorem Finished.wellBuilt (h : Finished d) : d.func.WellBuilt := by
  have hconnected := h.drafted.connected
  have haccounted := h.drafted.accounted
  have hperm : d.func.definedValues.Perm d.defined := haccounted.perm
  refine
    { entry := ?entry, terminated := h.terminated, successors := hconnected.successors
      preds := hconnected.preds, nodup := hperm.nodup_iff.mpr haccounted.nodup
      entered := fun v hv _ => ?entered, sorted := h.drafted.sorted }
  case entry =>
    obtain ⟨r, rest, hids⟩ := List.exists_cons_of_ne_nil h.nonempty
    refine ⟨r, by rw [hconnected.root, hids]; rfl, ?_⟩
    rw [← Func.mem_ids, hids]
    exact List.mem_cons_self ..
  case entered =>
    rw [← Func.mem_definedValues, hperm.mem_iff] at hv
    exact haccounted.numbered v (haccounted.known v hv)

variable {src : String} {serial : Nat} {m : Module}

/-- **A function that was read is well built.** -/
theorem wellBuilt_of_parse (h : Module.parse src serial = .ok m) :
    ∀ fn ∈ m.funcs, fn.WellBuilt := by
  intro fn hfn
  obtain ⟨d, hd, rfl⟩ := (listed_of_parse h).finished fn hfn
  exact hd.wellBuilt

/-- **A function that was read has entered its values.** -/
theorem entered_of_parse (h : Module.parse src serial = .ok m) :
    ∀ fn ∈ m.funcs, fn.Entered :=
  fun fn hfn => (wellBuilt_of_parse h fn hfn).entered

end Source

/-! ### A program that the verifier rejects -/

/-- A program with a phi that disagrees with the predecessors of its block, and with two blocks that
jump to each other and are out of reach. -/
def tangledText : String :=
  "func @f(%a, %b) \x7b\n" ++
  "entry:\n  br %a, mid, else\n" ++
  "mid:\n  br %b, then, else\n" ++
  "then:\n  %x = phi [%a, entry]\n  ret %x\n" ++
  "else:\n  ret %b\n" ++
  "one:\n  jmp two\n" ++
  "two:\n  jmp one\n\x7d\n"

/-- The function of this program. -/
def tangled : Func where
  serial := 0
  name := "f"
  root := some ⟨0, 0⟩
  params := [⟨0, 0, "a"⟩, ⟨0, 1, "b"⟩]
  values := #[⟨0, 0, "a"⟩, ⟨0, 1, "b"⟩, ⟨0, 2, "x"⟩]
  blocks := #[
    { label := "entry", term := some (.branch ⟨0, 0, "a"⟩ ⟨0, 1⟩ ⟨0, 3⟩) },
    { label := "mid", preds := [⟨0, 0⟩], term := some (.branch ⟨0, 1, "b"⟩ ⟨0, 2⟩ ⟨0, 3⟩) },
    { label := "then", preds := [⟨0, 1⟩],
      phis := [⟨⟨0, 2, "x"⟩, [(⟨0, 0⟩, some ⟨0, 0, "a"⟩)]⟩],
      term := some (.ret [⟨0, 2, "x"⟩]) },
    { label := "else", preds := [⟨0, 0⟩, ⟨0, 1⟩], term := some (.ret [⟨0, 1, "b"⟩]) },
    { label := "one", preds := [⟨0, 5⟩], term := some (.jump ⟨0, 5⟩) },
    { label := "two", preds := [⟨0, 4⟩], term := some (.jump ⟨0, 4⟩) }]

theorem parse_tangledText : Module.parse tangledText = .ok ⟨[tangled]⟩ := by
  decide +kernel

theorem defects_tangled : tangled.defects ≠ [] := by
  decide +kernel

end BranchFusion
