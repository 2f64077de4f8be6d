import BranchFusion.Pass.DeadCode
import BranchFusion.Proofs.Contraction
import BranchFusion.Proofs.Emulation.Simulation

/-!
# Removing unused definitions

A round leaves the graph alone and makes the blocks smaller. What it removes is not used anywhere,
so every use still finds its definition, and the function stays valid and in strict form.

A run of the new function agrees with one of the old on all values that are *used*
(`BranchFusion.DeadCode.Needed`). It may not raise an error that the old one raises, since the
operands of what was removed are not read any more; so only results are kept. But the runs go in
step, block by block, so it runs out of blocks where the old one does
(`BranchFusion.DeadCode.run_refines`).
-/

namespace BranchFusion

namespace DeadCode

open Emulator

variable {fn : Func} {b d : BlockId} {v : Value} {uses : List (Option Value)}

/-- A value is used in a live block. -/
def Needed (fn : Func) (v : Value) : Prop := some v ∈ used fn

theorem needed_iff : Needed fn v ↔ ∃ b, fn.owns b ∧ some v ∈ (fn.block b).uses := by
  simp [Needed, used]

theorem needed_of_input (hb : fn.owns b) {p : Phi} (hp : p ∈ (fn.block b).phis) {q : BlockId}
    (hq : p.input? q = some (some v)) : Needed fn v :=
  needed_iff.mpr ⟨b, hb, Block.mem_uses_of_input hp hq⟩

theorem needed_of_instr (hb : fn.owns b) {i : Instr} (hi : i ∈ (fn.block b).instrs)
    (hv : v ∈ i.operands) : Needed fn v :=
  needed_iff.mpr ⟨b, hb, Block.mem_uses_of_instr hi hv⟩

theorem needed_of_term (hb : fn.owns b) {t : Terminator} (ht : (fn.block b).term = some t)
    (hv : v ∈ t.operands) : Needed fn v :=
  needed_iff.mpr ⟨b, hb, Block.mem_uses_of_term ht hv⟩

/-! ### One round -/

@[simp] theorem name_round : (round fn).name = fn.name := rfl

@[simp] theorem root_round : (round fn).root = fn.root := rfl

theorem block?_round : (round fn).block? b =
    if b.func = fn.serial then
      (fn.block? b).map fun bb => if bb.live then prune (used fn) bb else bb
    else fn.block? b := by
  by_cases hb : b.func = fn.serial
  · simp [Func.block?, round, hb]
  · simp [Func.block?, round, hb]

theorem block_round (hb : fn.owns b) : (round fn).block b = prune (used fn) (fn.block b) := by
  rw [Func.block, block?_round, if_pos (Func.func_of_owns hb), Func.block?_of_owns hb,
    Option.map_some, Func.live_of_owns hb]
  rfl

@[simp] theorem owns_round : (round fn).owns b = fn.owns b := by
  rw [Bool.eq_iff_iff, Func.owns_iff, Func.owns_iff]
  refine and_congr_right fun _ => ?_
  simp only [round, Array.getElem?_map]
  cases fn.blocks[b.index]? with
  | none => simp
  | some bb => by_cases hl : bb.live <;> simp [hl, prune]

theorem ids_round : (round fn).ids = fn.ids :=
  Func.ids_congr (Array.size_map ..) fun _ => owns_round

/-- Removed blocks and guests are left alone. -/
theorem block_round_of_not_owns (hb : ¬fn.owns b) : (round fn).block b = fn.block b := by
  rw [Func.block, Func.block, block?_round]
  split
  · next hfunc =>
    cases hbb : fn.block? b with
    | none => rfl
    | some bb =>
      have hlive : bb.live = false := by
        rw [Func.block?, if_pos hfunc] at hbb
        by_contra hlive
        exact hb (Func.owns_iff.mpr ⟨hfunc, bb, hbb, by simpa using hlive⟩)
      simp [hlive]
  · rfl

/-- A part of a block that pruning does not touch is the same in all blocks, removed ones and
guests included. -/
theorem round_field {α : Type} (f : Block → α)
    (hf : ∀ bb, f (prune (used fn) bb) = f bb) : f ((round fn).block b) = f (fn.block b) := by
  rw [Func.block, Func.block, block?_round]
  split
  · cases fn.block? b with
    | none => rfl
    | some bb =>
      simp only [Option.map_some, Option.getD_some]
      split
      · exact hf bb
      · rfl
  · rfl

theorem term_round : ((round fn).block b).term = (fn.block b).term :=
  round_field Block.term fun _ => rfl

theorem preds_round : ((round fn).block b).preds = (fn.block b).preds :=
  round_field Block.preds fun _ => rfl

theorem edge_round : (round fn).Edge = fn.Edge := by
  funext a b
  exact propext (Func.edge_congr term_round)

theorem dominates_round : (round fn).Dominates d b ↔ fn.Dominates d b := by
  rw [Func.Dominates, Func.Dominates, edge_round, root_round]

theorem reaches_round : (round fn).Reaches b ↔ fn.Reaches b := by
  rw [Func.Reaches, Func.Reaches, edge_round, root_round]

/-- A round removes definitions and keeps the order of the others. -/
theorem definitions_round (hb : fn.owns b) :
    ((round fn).block b).definitions.Sublist (fn.block b).definitions := by
  rw [block_round hb]
  exact (List.filter_sublist.map Phi.result).append (List.filter_sublist.filterMap Instr.result?)

theorem mem_results_of_needed {ps : List Phi} (hv : Needed fn v) (h : v ∈ ps.map Phi.result) :
    v ∈ (ps.filter (keepsPhi (used fn))).map Phi.result := by
  obtain ⟨p, hp, rfl⟩ := List.mem_map.mp h
  refine List.mem_map.mpr ⟨p, List.mem_filter.mpr ⟨hp, ?_⟩, rfl⟩
  exact List.contains_iff_mem.mpr hv

theorem mem_result_of_needed {is : List Instr} (hv : Needed fn v)
    (h : v ∈ is.filterMap Instr.result?) :
    v ∈ (is.filter (keepsInstr (used fn))).filterMap Instr.result? := by
  obtain ⟨i, hi, hiv⟩ := List.mem_filterMap.mp h
  refine List.mem_filterMap.mpr ⟨i, List.mem_filter.mpr ⟨hi, ?_⟩, hiv⟩
  rw [keepsInstr, hiv, Bool.or_eq_true]
  exact Or.inr (List.contains_iff_mem.mpr hv)

/-- **What is used stays defined**, in the same block. -/
theorem mem_definitions_of_needed (hb : fn.owns b) (hv : Needed fn v)
    (h : v ∈ (fn.block b).definitions) : v ∈ ((round fn).block b).definitions := by
  rw [block_round hb]
  rcases List.mem_append.mp h with h | h
  · exact List.mem_append_left _ (mem_results_of_needed hv h)
  · exact List.mem_append_right _ (mem_result_of_needed hv h)

theorem uses_round (hb : fn.owns b) {w : Option Value} (h : w ∈ ((round fn).block b).uses) :
    w ∈ (fn.block b).uses := by
  rw [block_round hb, Block.mem_uses_iff] at h
  rw [Block.mem_uses_iff]
  rcases h with ⟨p, hp, hw⟩ | ⟨v, rfl, ⟨i, hi, hvi⟩ | h⟩
  · exact Or.inl ⟨p, (List.mem_filter.mp hp).1, hw⟩
  · exact Or.inr ⟨v, rfl, Or.inl ⟨i, (List.mem_filter.mp hi).1, hvi⟩⟩
  · exact Or.inr ⟨v, rfl, Or.inr h⟩

theorem wired_round (hw : fn.Wired) : (round fn).Wired := by
  refine ⟨?_, fun x hx => ?_, fun x y hx he => ?_, fun x hx q => ?_⟩
  · simpa using hw.entry
  · rw [term_round]
    exact hw.terminated x (by simpa using hx)
  · rw [edge_round] at he
    simpa using hw.successors x y (by simpa using hx) he
  · have hsucc : (round fn).successors q = fn.successors q := by
      rw [Func.successors, Func.successors, Block.successors, Block.successors, Block.edges,
        Block.edges, term_round]
    rw [preds_round, owns_round, hsucc]
    exact hw.preds x (by simpa using hx) q

/-- **A round keeps a function valid.** -/
theorem valid_round (hv : fn.Valid) : (round fn).Valid := by
  refine { wired_round hv.toWired with
    inputs := fun x hx p hp q => ?inputs
    nodup_definitions := fun x hx => ?nodup
    unique_site := fun x y v hx hy hvx hvy => ?site
    not_param := fun x v hx hvx => ?param
    defined := fun x hx w hw => ?defined
    reached := fun x hx => ?reached }
  all_goals rw [owns_round] at hx
  case inputs =>
    rw [block_round hx] at hp
    rw [preds_round]
    exact hv.inputs x hx p (List.mem_filter.mp hp).1 q
  case nodup => exact (hv.nodup_definitions x hx).sublist (definitions_round hx)
  case site =>
    rw [owns_round] at hy
    exact hv.unique_site x y v hx hy ((definitions_round hx).subset hvx)
      ((definitions_round hy).subset hvy)
  case param => exact hv.not_param x v hx ((definitions_round hx).subset hvx)
  case defined =>
    -- what is still used was used before the round, so its definition was kept
    have hmem := uses_round hx hw
    obtain ⟨v, rfl, hdef⟩ := hv.defined x hx w hmem
    refine ⟨v, rfl, ?_⟩
    rcases hdef with hp | ⟨d, hd, hvd⟩
    · exact Or.inl hp
    · have hneeded : Needed fn v := needed_iff.mpr ⟨x, hx, hmem⟩
      exact Or.inr ⟨d, by simpa using hd, mem_definitions_of_needed hd hneeded hvd⟩
  case reached => exact reaches_round.mpr (hv.reached x hx)

theorem entered_round (hentered : fn.Entered) : (round fn).Entered := by
  intro v hdef hfunc
  refine hentered v ?_ hfunc
  rcases hdef with hp | ⟨d, hd, hvd⟩
  · exact Or.inl hp
  · rw [owns_round] at hd
    exact Or.inr ⟨d, hd, (definitions_round hd).subset hvd⟩

/-! ### Strict form -/

theorem available_round (hv : Needed fn v) (h : fn.Available b v) : (round fn).Available b v := by
  rcases h with hp | ⟨d, hd, hvd, hdom⟩
  · exact Or.inl hp
  · exact Or.inr ⟨d, by simpa using hd, mem_definitions_of_needed hd hv hvd,
      dominates_round.mpr hdom⟩

theorem known_round {earlier earlier' : List Value} (hv : Needed fn v)
    (h : fn.Known b earlier v) (hkept : v ∈ earlier → v ∈ earlier') :
    (round fn).Known b earlier' v := by
  rcases h with hp | he | ⟨d, hne, hd, hvd, hdom⟩
  · exact Or.inl hp
  · exact Or.inr (Or.inl (hkept he))
  · exact Or.inr (Or.inr ⟨d, hne, by simpa using hd, mem_definitions_of_needed hd hv hvd,
      dominates_round.mpr hdom⟩)

/-- An instruction that is kept stands after what is kept of the instructions before it. -/
theorem split_of_filter {p : Instr → Bool} {is before after : List Instr} {i : Instr}
    (h : is.filter p = before ++ i :: after) :
    ∃ before' after', is = before' ++ i :: after' ∧ before'.filter p = before := by
  obtain ⟨l₁, l₂, rfl, rfl, h₂⟩ := List.filter_eq_append_iff.mp h
  obtain ⟨l₃, l₄, rfl, hnone, -, -⟩ := List.filter_eq_cons_iff.mp h₂
  refine ⟨l₁ ++ l₃, l₄, by simp, ?_⟩
  rw [List.filter_append, List.filter_eq_nil_iff.mpr hnone, List.append_nil]

/-- **A round keeps strict form.** -/
theorem strict_round (hs : fn.Strict) : (round fn).Strict := by
  refine ⟨fun x hx before i after hi v hvi => ?_, fun x hx t ht v hvt => ?_,
    fun x hx p hp q v hq => ?_⟩
  all_goals rw [owns_round] at hx
  · rw [block_round hx] at hi ⊢
    obtain ⟨before', after', hinstrs, rfl⟩ := split_of_filter hi
    have hneeded : Needed fn v := needed_of_instr hx (by simp [hinstrs]) hvi
    refine known_round hneeded (hs.instr x hx before' i after' hinstrs v hvi) fun hmem => ?_
    rcases List.mem_append.mp hmem with hmem | hmem
    · exact List.mem_append_left _ (mem_results_of_needed hneeded hmem)
    · exact List.mem_append_right _ (mem_result_of_needed hneeded hmem)
  · rw [term_round] at ht
    have hneeded : Needed fn v := needed_of_term hx ht hvt
    exact known_round hneeded (hs.term x hx t ht v hvt)
      fun hmem => mem_definitions_of_needed hx hneeded hmem
  · rw [block_round hx] at hp
    have hp := (List.mem_filter.mp hp).1
    exact available_round (needed_of_input hx hp hq) (hs.phi x hx p hp q v hq)

/-! ### What a round keeps of a run -/

variable {handler : CallHandler} {prev : Option BlockId} {s s' t : State}

/-- The phis that are kept read what they read before. -/
theorem readPhis_filter {env env' : Env} : ∀ {ps : List Phi} {ws : List (Value × Int64)},
    (∀ p ∈ ps, ∀ v, prev.bind p.input? = some (some v) → env.get? v = env'.get? v) →
    readPhis fn env prev ps = .ok ws →
      readPhis (round fn) env' prev (ps.filter (keepsPhi (used fn))) =
        .ok (ws.filter fun e => (used fn).contains (some e.1))
  | [], ws, _, h => by
    obtain rfl : [] = ws := by simpa [readPhis] using h
    rfl
  | p :: ps, ws, henv, h => by
    rw [readPhis] at h
    cases hp : prev.bind p.input? with
    | none => simp [hp] at h
    | some o =>
      simp only [hp] at h
      obtain ⟨w, hw, h⟩ := ok_of_bind h
      obtain ⟨us, hus, h⟩ := ok_of_bind h
      obtain rfl : (p.result, w) :: us = ws := Except.ok.inj h
      have ih := readPhis_filter (fun q hq => henv q (List.mem_cons_of_mem p hq)) hus
      have hread : Emulator.read fn env o = Emulator.read (round fn) env' o := by
        refine read_eq name_round ?_
        cases o with
        | none => rfl
        | some v => exact henv p (by simp) v hp
      rw [hw] at hread
      by_cases hk : (used fn).contains (some p.result)
      · rw [List.filter_cons_of_pos (by simpa [keepsPhi] using hk),
          List.filter_cons_of_pos (by simpa using hk), readPhis, hp]
        simp only [← hread, ih]
        rfl
      · rw [List.filter_cons_of_neg (by simpa [keepsPhi] using hk),
          List.filter_cons_of_neg (by simpa using hk)]
        exact ih

/-- Leaving out assignments to values that are not used makes no difference. -/
theorem agrees_assign_filter : ∀ (ws : List (Value × Int64)) {s s' : State},
    s.Agrees (Needed fn) s' → State.Agrees (Needed fn) { s with env := assign s.env ws }
      { s' with env := assign s'.env (ws.filter fun e => (used fn).contains (some e.1)) }
  | [], _, _, h => h
  | (v, w) :: ws, _, _, h => by
    by_cases hk : (used fn).contains (some v)
    · rw [List.filter_cons_of_pos (by simpa using hk)]
      exact agrees_assign_filter ws (h.set v w)
    · rw [List.filter_cons_of_neg (by simpa using hk)]
      have hv : ¬Needed fn v := fun hv => hk (List.contains_iff_mem.mpr hv)
      exact agrees_assign_filter ws (h.set_left hv w)

/-- An instruction that is not kept sets a value that is not used, and nothing else. -/
theorem agrees_of_dropped {i : Instr} (hi : keepsInstr (used fn) i = false)
    (h : s.Agrees (Needed fn) s') (hrun : exec fn handler s i = .ok t) :
    t.Agrees (Needed fn) s' := by
  have hnot : ∀ r, i.result? = some r → ¬Needed fn r := by
    intro r hr hneeded
    rw [keepsInstr, hr, Bool.or_eq_false_iff] at hi
    have hunused : (used fn).contains (some r) = false := hi.2
    rw [List.contains_iff_mem.mpr hneeded] at hunused
    exact absurd hunused (by simp)
  cases i with
  | const r w =>
    obtain rfl := Except.ok.inj hrun
    exact h.set_left (hnot r rfl) w
  | binary r op x y =>
    obtain ⟨a, -, hrun⟩ := ok_of_bind hrun
    obtain ⟨c, -, hrun⟩ := ok_of_bind hrun
    obtain rfl := Except.ok.inj hrun
    exact h.set_left (hnot r rfl) _
  | call r callee args => simp [keepsInstr, Instr.isPure] at hi

theorem execAll_filter : ∀ {is : List Instr} {s s' : State},
    (∀ i ∈ is, ∀ v ∈ i.operands, Needed fn v) → s.Agrees (Needed fn) s' →
    execAll fn handler s is = .ok t →
      ∃ t', execAll (round fn) handler s' (is.filter (keepsInstr (used fn))) = .ok t' ∧
        t.Agrees (Needed fn) t'
  | [], s, s', _, h, hrun => by
    obtain rfl := Except.ok.inj hrun
    exact ⟨s', rfl, h⟩
  | i :: is, s, s', hneeded, h, hrun => by
    obtain ⟨u, hu, hrun⟩ := ok_of_bind hrun
    have hrest : ∀ j ∈ is, ∀ v ∈ j.operands, Needed fn v :=
      fun j hj => hneeded j (List.mem_cons_of_mem i hj)
    cases hk : keepsInstr (used fn) i with
    | true =>
      have halike : Alike (State.Agrees (Needed fn)) (exec fn handler s i)
          (exec (round fn) handler s' i) := exec_alike name_round h (hneeded i (by simp))
      rw [hu] at halike
      rw [List.filter_cons_of_pos hk, execAll]
      generalize exec (round fn) handler s' i = o at halike
      cases halike with
      | ok hu' => exact execAll_filter hrest hu' hrun
    | false =>
      rw [List.filter_cons_of_neg (by simp [hk])]
      exact execAll_filter hrest (agrees_of_dropped hk h hu) hrun

/-- **A block that runs to its end does so after a round**, and decides the same. -/
theorem block_round_ok (hb : fn.owns b) (h : s.Agrees (Needed fn) s') {next : Next}
    (hrun : block fn handler prev b s = .ok (next, t)) :
    ∃ t', block (round fn) handler prev b s' = .ok (next, t') ∧ t.Agrees (Needed fn) t' := by
  -- the run has read the phis, run the instructions and left
  rw [block_eq_finish] at hrun
  obtain ⟨ws, hws, hrun⟩ := ok_of_bind hrun
  obtain ⟨u, hu, hrun⟩ := ok_of_bind hrun
  obtain ⟨n, hn, hrun⟩ := ok_of_bind hrun
  obtain ⟨rfl, rfl⟩ : n = next ∧ u = t := Prod.mk.inj (Except.ok.inj hrun)
  have hinputs : ∀ p ∈ (fn.block b).phis, ∀ v, prev.bind p.input? = some (some v) →
      s.env.get? v = s'.env.get? v := by
    intro p hp v hin
    obtain ⟨q, -, hin⟩ := Option.bind_eq_some_iff.mp hin
    exact h.env v (needed_of_input hb hp hin)
  have hphis := readPhis_filter hinputs (ok_of_lift hws)
  obtain ⟨t', ht', hagree⟩ := execAll_filter (fun i hi v hvi => needed_of_instr hb hi hvi)
    (agrees_assign_filter ws h) hu
  have hleave : leave (round fn) b t'.env (fn.block b).term = .ok n := by
    rw [← ok_of_lift hn]
    cases hterm : (fn.block b).term with
    | none =>
      rw [hterm] at hn
      exact absurd (ok_of_lift hn) (by simp [leave])
    | some term =>
      exact (leave_eq name_round fun v hvt => hagree.env v (needed_of_term hb hterm hvt)).symm
  refine ⟨t', ?_, hagree⟩
  have hblock : (round fn).block b = prune (used fn) (fn.block b) := block_round hb
  rw [block_eq_finish, hblock]
  simp only [prune, hphis, State.lift_ok]
  simp only [finish, bind, Except.bind, ht', hleave, State.lift_ok, pure, Except.pure]

/-- **A round keeps the results of a function**, and how many blocks it enters. -/
theorem refines_round (hc : fn.Closed) : fn.Refines (· = .stepLimit) (round fn) := by
  -- the runs go in step, in states that agree on what is used
  refine refines_of_inStep (R := fun _ p p' => fn.owns p.block ∧ p'.prev = p.prev ∧
    p'.block = p.block ∧ p.state.Agrees (Needed fn) p'.state) rfl rfl rfl (fun handler => ?_)
    fun handler r args trace hr _ => ⟨hc.entry r hr, rfl, rfl, .refl _⟩
  have hstep : ∀ {p p' : Point} {next : Next} {t : State}, fn.owns p.block ∧ p'.prev = p.prev ∧
      p'.block = p.block ∧ p.state.Agrees (Needed fn) p'.state →
      p.enter fn handler = .ok (next, t) →
      ∃ t', p'.enter (round fn) handler = .ok (next, t') ∧ t.Agrees (Needed fn) t' := by
    rintro p p' next t ⟨hown, hprev, hblock, hagree⟩ hp
    rw [Point.enter, hprev, hblock]
    exact block_round_ok hown hagree hp
  refine ⟨fun hR => hR.2.2.2.trace.symm, fun hR hp => ?_, fun {p p' c t} hR hp => ?_⟩
  · obtain ⟨t', ht', hagree⟩ := hstep hR hp
    exact ⟨t', ht', hagree.trace.symm⟩
  · obtain ⟨t', ht', hagree⟩ := hstep hR hp
    refine ⟨c, t', ht', hc.edge _ _ hR.1 (edge_of_block hp), ?_, rfl, hagree⟩
    rw [Point.next, Point.next, hR.2.2.1]

/-! ### Whole runs -/

/-- What every round keeps, a run keeps. -/
theorem rounds_induction {I : Func → Prop} (hround : ∀ f, I f → I (round f)) :
    ∀ (fuel : Nat) (f : Func) (changed : Bool), I f → I (rounds fuel f changed).1
  | 0, _, _, hI => hI
  | fuel + 1, f, changed, hI => by
    rw [rounds]
    split
    · exact rounds_induction hround fuel (round f) true (hround f hI)
    · exact hI

/-- Rounds leave a function alone, or make it smaller and say so. -/
theorem rounds_measure : ∀ (fuel : Nat) (f : Func) (changed : Bool),
    rounds fuel f changed = (f, changed) ∨
      (rounds fuel f changed).1.measure < f.measure ∧ (rounds fuel f changed).2 = true
  | 0, _, _ => Or.inl rfl
  | fuel + 1, f, changed => by
    rw [rounds]
    split
    · next hless =>
      rcases rounds_measure fuel (round f) true with hrest | ⟨hrest, hc⟩
      · rw [hrest]
        exact Or.inr ⟨hless, rfl⟩
      · exact Or.inr ⟨hrest.trans hless, hc⟩
    · exact Or.inl rfl

/-- **A run keeps the results of a wired function**, and how many blocks it enters. -/
theorem run_refines (hw : fn.Wired) : fn.Refines (· = .stepLimit) (run fn).1 := by
  refine (rounds_induction (I := fun f => f.Wired ∧ fn.Refines (· = .stepLimit) f) ?_
    (fn.measure + 1) fn false ⟨hw, .refl fn⟩).2
  rintro f ⟨hfw, hrefines⟩
  exact ⟨wired_round hfw, hrefines.trans (refines_round hfw.closed)⟩

/-- **A run keeps a function valid and keeps its results**, and it keeps strict form. -/
theorem run_valid (hv : fn.Valid) (hentered : fn.Entered) :
    (run fn).1.Valid ∧ (run fn).1.Entered ∧ (fn.Strict → (run fn).1.Strict) ∧
      fn.Refines (fun _ => False) (run fn).1 := by
  have hkept : (run fn).1.Valid ∧ (run fn).1.Entered ∧ (fn.Strict → (run fn).1.Strict) := by
    refine rounds_induction (I := fun f => f.Valid ∧ f.Entered ∧ (fn.Strict → f.Strict)) ?_
      (fn.measure + 1) fn false ⟨hv, hentered, fun hs => hs⟩
    rintro f ⟨hfv, hfe, hfs⟩
    exact ⟨valid_round hfv, entered_round hfe, fun hs => strict_round (hfs hs)⟩
  obtain ⟨hfv, hfe, hfs⟩ := hkept
  exact ⟨hfv, hfe, hfs, (run_refines hv.toWired).mono fun _ => False.elim⟩

end DeadCode

end BranchFusion
