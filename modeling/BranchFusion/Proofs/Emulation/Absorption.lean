import BranchFusion.Proofs.Contraction
import BranchFusion.Proofs.Emulation.Simulation

/-!
# Running a function in which a block has absorbed another

When `b` has absorbed `m`, the new function does in one block what the old one does in two. Its run
waits at `b` while the old one goes on to `m`, and then makes up for both. All that has to be known
about the code of the two blocks is that it comes to the same
(`BranchFusion.Emulator.TakesOver`): either the old function leaves `b` and the new one does what it
does, or the old one goes on to `m` and the new one does what `m` does.

The environments agree but for the values that only the new function defines. Everywhere else the
two functions run the same code, and phis read for a predecessor what they now read for its heir.

The new run waits for one block at a time, so it never falls behind for good: a call that never ends
in the old function does not end in the new one (`BranchFusion.Emulator.diverges_of_absorbs`).
-/

namespace BranchFusion

namespace Emulator

variable {fn fn' : Func} {b m x : BlockId} {fresh : List Value} {handler : CallHandler}
  {prev : Option BlockId} {s s' t : State}

/-- Runs the instructions and the terminator of a block. -/
def code (fn : Func) (handler : CallHandler) (b : BlockId) (s : State) :
    Except Stop (Next × State) :=
  finish fn handler b (fn.block b).instrs (fn.block b).term s

/-- A block without phis runs its code. -/
theorem block_eq_code (h : (fn.block b).phis = []) :
    block fn handler prev b s = code fn handler b s := by
  rw [block_eq_finish, h]
  rfl

/-- **The code at the end of `b` does what that of `b` and `m` did.** What is available at the end
of `b` may be taken to be set once the instructions of `b` were run. -/
def TakesOver (fn fn' : Func) (b m : BlockId) (fresh : List Value) : Prop :=
  ∀ (handler : CallHandler) (s s' : State), s.Agrees (· ∉ fresh) s' →
    (∀ t, execAll fn handler s (fn.block b).instrs = .ok t → ∀ v, fn.Available b v → t.Holds v) →
    Alike (EndsAgree (· ∉ fresh)) (code fn handler b s) (code fn' handler b s') ∨
      ∃ t, code fn handler b s = .ok (.goto m, t) ∧
        Alike (EndsAgree (· ∉ fresh)) (code fn handler m t) (code fn' handler b s')

/-- What `b` did before its terminator it still does first; so it is enough to compare what comes
after that. -/
theorem takesOver_of_ends (hname : fn'.name = fn.name) {extra : List Instr}
    (hinstrs : (fn'.block b).instrs = (fn.block b).instrs ++ extra)
    (hreads : ∀ i ∈ (fn.block b).instrs, ∀ v ∈ i.operands, v ∉ fresh)
    (hends : ∀ (handler : CallHandler) (t t' : State), t.Agrees (· ∉ fresh) t' →
      (∀ v, fn.Available b v → t.Holds v) →
      Alike (EndsAgree (· ∉ fresh)) (finish fn handler b [] (fn.block b).term t)
          (finish fn' handler b extra (fn'.block b).term t') ∨
        ∃ u, finish fn handler b [] (fn.block b).term t = .ok (.goto m, u) ∧
          Alike (EndsAgree (· ∉ fresh)) (code fn handler m u)
            (finish fn' handler b extra (fn'.block b).term t')) :
    TakesOver fn fn' b m fresh := by
  intro handler s s' hs hready
  have hnew : code fn' handler b s' = execAll fn' handler s' (fn.block b).instrs >>= fun t' =>
      finish fn' handler b extra (fn'.block b).term t' := by
    rw [code, hinstrs, finish_append]
  have hold : code fn handler b s = execAll fn handler s (fn.block b).instrs >>= fun t =>
      finish fn handler b [] (fn.block b).term t := by
    rw [code, ← finish_append, List.append_nil]
  have halike : Alike (State.Agrees (· ∉ fresh)) (execAll fn handler s (fn.block b).instrs)
      (execAll fn' handler s' (fn.block b).instrs) := execAll_alike hname hs hreads
  rw [hnew, hold]
  cases hrun : execAll fn handler s (fn.block b).instrs with
  | error e =>
    rw [hrun] at halike
    rw [halike.eq_error]
    exact Or.inl (.error e)
  | ok t =>
    rw [hrun] at halike
    generalize execAll fn' handler s' (fn.block b).instrs = o at halike
    cases halike with
    | @ok _ t' ht => exact hends handler t t' ht (hready t hrun)

/-- Two points from which the runs go on side by side. -/
structure Aligned (fn : Func) (b m : BlockId) (fresh : List Value) (p p' : Point) : Prop where
  block : p'.block = p.block
  ne : p.block ≠ m
  prev : p'.prev = p.prev.map (heir b m)
  edge : ∀ q, p.prev = some q → fn.owns q ∧ fn.Edge q p.block
  state : p.state.Agrees (· ∉ fresh) p'.state
  ready : Ready fn p.block p.state

/-- The old run is about to enter `m`, and the new one waits at `b` to do the same. -/
structure Waiting (fn fn' : Func) (b m : BlockId) (fresh : List Value) (handler : CallHandler)
    (p p' : Point) : Prop where
  block : p.block = m
  waits : p'.block = b
  ready : Ready fn m p.state
  alike : Alike (EndsAgree (· ∉ fresh)) (p.enter fn handler) (p'.enter fn' handler)

variable {p p' : Point}

/-- Values that a live block uses are not fresh. -/
theorem not_fresh_of_reads (h : fn.Absorbs fn' b m fresh) (hv : fn.Valid) (hx : fn.owns x)
    {v : Value} (hr : (fn.block x).Reads v) : v ∉ fresh := by
  obtain ⟨w, hw, hdef⟩ := hv.defined x hx (some v) (Block.mem_uses_iff.mpr (Or.inr ⟨v, rfl, hr⟩))
  obtain rfl : v = w := by simpa using hw
  exact fun hf => h.not_defined v hf hdef

/-- Phis read the same words at aligned points. -/
theorem Aligned.readPhis (ha : Aligned fn b m fresh p p') (h : fn.Absorbs fn' b m fresh)
    (hv : fn.Valid) (hx : fn.owns p.block) :
    Emulator.readPhis fn p.state.env p.prev (fn.block p.block).phis =
      Emulator.readPhis fn' p'.state.env p'.prev (fn'.block p.block).phis := by
  have hsome : ∀ q, p.prev = some q → ∀ ph ∈ (fn.block p.block).phis, (ph.input? q).isSome :=
    fun q hq ph hph => (hv.inputs p.block hx ph hph q).mpr
      ((hv.mem_preds_iff hx).mpr (ha.edge q hq))
  refine readPhis_eq h.name ?_ ?_ fun ph hph v hin => ha.state.env v fun hf => ?_
  · refine (h.phis p.block hx ha.ne).imp fun ph ph' hr => ⟨hr.result, ?_⟩
    rw [ha.prev]
    cases hq : p.prev with
    | none => rfl
    | some q => exact hr.input q (ha.edge q hq).1 (ha.edge q hq).2
  · cases hq : p.prev with
    | none => exact Or.inl ⟨rfl, by rw [ha.prev, hq]; rfl⟩
    | some q => exact Or.inr fun ph hph => hsome q hq ph hph
  · -- an input that is read is used, so it is defined and not fresh
    obtain ⟨q, -, hin⟩ := Option.bind_eq_some_iff.mp hin
    obtain ⟨w, hw, hdef⟩ :=
      hv.defined p.block hx (some v) (Block.mem_uses_of_input hph hin)
    obtain rfl : v = w := by simpa using hw
    exact h.not_defined v hf hdef

/-- After its phis, a block runs its code in states that agree. -/
theorem Aligned.enter (handler : CallHandler) (ha : Aligned fn b m fresh p p')
    (h : fn.Absorbs fn' b m fresh) (hv : fn.Valid) (hx : fn.owns p.block) :
    (∃ e, p.enter fn handler = .error e ∧ p'.enter fn' handler = .error e) ∨
      ∃ s s' : State, s.Agrees (· ∉ fresh) s' ∧ p.enter fn handler = code fn handler p.block s ∧
        p'.enter fn' handler = code fn' handler p.block s' ∧
        ∀ v, p.state.Holds v ∨ v ∈ (fn.block p.block).phis.map Phi.result → s.Holds v := by
  have hphis := ha.readPhis h hv hx
  rw [Point.enter, Point.enter, block_eq_finish, block_eq_finish, ha.block, ← hphis]
  cases hr : Emulator.readPhis fn p.state.env p.prev (fn.block p.block).phis with
  | error e =>
    refine Or.inl ⟨⟨e, p.state.trace⟩, rfl, ?_⟩
    rw [State.lift, ha.state.trace]
    rfl
  | ok ws =>
    refine Or.inr ⟨_, _, agrees_assign ws ha.state, rfl, rfl, fun v hv => ?_⟩
    rw [← map_fst_of_readPhis hr] at hv
    exact holds_assign ws hv

/-- At aligned points the two runs do the same, or the old one goes on to `m` and the new one does
what `m` does. -/
theorem Aligned.step (ha : Aligned fn b m fresh p p') (h : fn.Absorbs fn' b m fresh)
    (hv : fn.Valid) (htake : TakesOver fn fn' b m fresh) :
    Alike (EndsAgree (· ∉ fresh)) (p.enter fn handler) (p'.enter fn' handler) ∨
      ∃ t, p.enter fn handler = .ok (.goto m, t) ∧ p.block = b ∧
        Alike (EndsAgree (· ∉ fresh)) ((p.next m t).enter fn handler) (p'.enter fn' handler) := by
  have hx := hv.closed.owns_of_reaches ha.ready.reaches
  rcases ha.enter handler h hv hx with ⟨e, he, he'⟩ | ⟨s, s', hs, hp, hp', hholds⟩
  · rw [he, he']
    exact Or.inl (.error e)
  rw [hp, hp']
  by_cases hb : p.block = b
  · -- what is available at the end of `b` is set when the code that was taken over begins
    rw [hb] at hholds ⊢
    have hready : ∀ t, execAll fn handler s (fn.block b).instrs = .ok t →
        ∀ v, fn.Available b v → t.Holds v := by
      intro t ht v hav
      refine (hb ▸ ha.ready).holds_of_available hav fun w hw => holds_of_execAll ht ?_
      rcases hw with hw | hw
      · exact Or.inl (hholds w (Or.inl hw))
      · exact (List.mem_append.mp hw).imp_left fun hw => hholds w (Or.inr hw)
    rcases htake handler s s' hs hready with halike | ⟨t, ht, halike⟩
    · exact Or.inl halike
    · refine Or.inr ⟨t, ht, rfl, ?_⟩
      have hm : (p.next m t).enter fn handler = code fn handler m t := block_eq_code h.no_phis
      rwa [hm]
  · -- another block has kept its code
    refine Or.inl ?_
    obtain ⟨term, hterm⟩ := Option.isSome_iff_exists.mp (hv.terminated p.block hx)
    rw [code, code, h.instrs p.block hx hb ha.ne, h.term p.block hx hb ha.ne, hterm]
    refine finish_alike h.name hs (fun i hi v hvi => ?_) fun v hvt => ?_
    · exact not_fresh_of_reads h hv hx (Or.inl ⟨i, hi, hvi⟩)
    · exact not_fresh_of_reads h hv hx (Or.inr ⟨term, hterm, hvt⟩)

/-- The points of the two runs: side by side, or the new one waiting. -/
def Related (fn fn' : Func) (b m : BlockId) (fresh : List Value) (handler : CallHandler)
    (p p' : Point) : Prop :=
  Aligned fn b m fresh p p' ∨ Waiting fn fn' b m fresh handler p p'

theorem Related.heir (hR : Related fn fn' b m fresh handler p p') :
    heir b m p.block = p'.block := by
  rcases hR with ha | hw
  · rw [heir_of_ne ha.ne, ha.block]
  · rw [hw.block, heir_self, hw.waits]

theorem Related.ready (hR : Related fn fn' b m fresh handler p p') :
    Ready fn p.block p.state := by
  rcases hR with ha | hw
  · exact ha.ready
  · exact hw.block ▸ hw.ready

theorem Related.step (hR : Related fn fn' b m fresh handler p p')
    (h : fn.Absorbs fn' b m fresh) (hv : fn.Valid) (htake : TakesOver fn fn' b m fresh) :
    Alike (EndsAgree (· ∉ fresh)) (p.enter fn handler) (p'.enter fn' handler) ∨
      ∃ t, p.enter fn handler = .ok (.goto m, t) ∧
        Waiting fn fn' b m fresh handler (p.next m t) p' := by
  rcases hR with ha | hw
  · refine (ha.step h hv htake).imp_right ?_
    rintro ⟨t, ht, hb, halike⟩
    exact ⟨t, ht, rfl, ha.block.trans hb, ha.ready.goto ht, halike⟩
  · exact Or.inl hw.alike

/-- Where a matched step goes on, the runs are side by side again. -/
theorem Related.next (hR : Related fn fn' b m fresh handler p p') (h : fn.Absorbs fn' b m fresh)
    (hv : fn.Valid) {c : BlockId} {t t' : State} (hp : p.enter fn handler = .ok (.goto c, t))
    (hp' : p'.enter fn' handler = .ok (.goto c, t')) (ht : t.Agrees (· ∉ fresh) t') :
    Aligned fn b m fresh (p.next c t) (p'.next c t') := by
  have hown := hv.closed.owns_of_reaches hR.ready.reaches
  have hown' : fn'.owns p'.block := hR.heir ▸ h.owns_heir hown
  refine ⟨rfl, ((h.edge_iff hown').mp (edge_of_block hp')).1, ?_, ?_, ht, hR.ready.goto hp⟩
  · simp [Point.next, hR.heir]
  · intro q hq
    obtain rfl : p.block = q := by simpa [Point.next] using hq
    exact ⟨hown, edge_of_block hp⟩

/-- Where the runs do the same, a run that goes on is followed by one that goes on. -/
theorem Related.goto (hR : Related fn fn' b m fresh handler p p') (h : fn.Absorbs fn' b m fresh)
    (hv : fn.Valid) (halike : Alike (EndsAgree (· ∉ fresh)) (p.enter fn handler)
      (p'.enter fn' handler)) {c : BlockId} {t : State}
    (hp : p.enter fn handler = .ok (.goto c, t)) :
    ∃ t', p'.enter fn' handler = .ok (.goto c, t') ∧
      Related fn fn' b m fresh handler (p.next c t) (p'.next c t') := by
  obtain ⟨t', ht', hagree⟩ := (hp ▸ halike).exists_of_ok
  exact ⟨t', ht', Or.inl (hR.next h hv hp ht' hagree)⟩

/-- **The runs simulate each other up to waiting.** -/
theorem simulates_of_absorbs (h : fn.Absorbs fn' b m fresh) (hv : fn.Valid)
    (htake : TakesOver fn fn' b m fresh) (handler : CallHandler) :
    Simulates fn fn' handler (· ≠ .stepLimit) (Related fn fn' b m fresh handler) := by
  refine ⟨fun {p p' e} hR hp _ => ?_, fun {p p' ws t} hR hp => ?_, fun {p p' c t} hR hp => ?_⟩
  · rcases hR.step h hv htake with halike | ⟨t, ht, -⟩
    · exact (hp ▸ halike).eq_error
    · rw [hp] at ht
      exact absurd ht (by simp)
  · rcases hR.step h hv htake with halike | ⟨t, ht, -⟩
    · obtain ⟨t', ht', hagree⟩ := (hp ▸ halike).exists_of_ok
      exact ⟨t', ht', hagree.trace.symm⟩
    · rw [hp] at ht
      exact absurd ht (by simp)
  · rcases hR.step h hv htake with halike | ⟨u, hu, hw⟩
    · obtain ⟨t', ht', hR'⟩ := hR.goto h hv halike hp
      exact Or.inr ⟨c, t', ht', hR'⟩
    · -- the old run enters `m`, and the new one waits
      rw [hp] at hu
      obtain ⟨rfl, rfl⟩ : c = m ∧ t = u := by simpa using hu
      exact Or.inl (Or.inr hw)

/-- Calls of the two functions begin side by side. -/
theorem related_initial (h : fn.Absorbs fn' b m fresh) {r : BlockId} (hr : fn.root = some r)
    {args : List Int64} (hlen : args.length = fn.params.length) (trace : Array CallRecord) :
    Related fn fn' b m fresh handler (Point.initial fn r args trace)
      (Point.initial fn r args trace) := by
  refine Or.inl ⟨rfl, fun hm => h.entry (hm ▸ hr), rfl, fun q hq => absurd hq nofun, .refl _, ?_⟩
  exact ready_initial hr hlen

/-- **A function in which a block has absorbed another refines the function**, errors included. -/
theorem refines_of_absorbs (h : fn.Absorbs fn' b m fresh) (hv : fn.Valid)
    (htake : TakesOver fn fn' b m fresh) : fn.Refines (· ≠ .stepLimit) fn' :=
  refines_of_simulates h.name h.root h.params (fun hne => hne rfl)
    (simulates_of_absorbs h hv htake) fun _ _ _ trace hr hlen => related_initial h hr hlen trace

/-! ### Calls that never end -/

/-- **The new run waits for one block at most**, so it gets through half as many blocks as the old
one. -/
theorem Related.exhausted (h : fn.Absorbs fn' b m fresh) (hv : fn.Valid)
    (htake : TakesOver fn fn' b m fresh) : ∀ (n k : Nat) {p p' : Point}, 2 * n ≤ k →
      Related fn fn' b m fresh handler p p' → Exhausted (p.run fn handler k) →
        Exhausted (p'.run fn' handler n) := by
  intro n
  induction n with
  | zero => exact fun _ _ _ _ _ _ => Point.exhausted_zero _
  | succ n ih =>
    intro k p p' hle hR hrun
    obtain ⟨k, rfl⟩ : ∃ j, k = j + 2 := ⟨k - 2, by omega⟩
    obtain ⟨c, t, hp, hrest⟩ := Point.exists_goto_of_exhausted hrun
    rcases hR.step h hv htake with halike | ⟨u, hu, hw⟩
    · obtain ⟨t', ht', hR'⟩ := hR.goto h hv halike hp
      rw [Point.run_succ, ht']
      exact ih (k + 1) (by omega) hR' hrest
    · -- the old run goes through `m` before the new one leaves `b`
      rw [hp] at hu
      obtain ⟨rfl, rfl⟩ : c = m ∧ t = u := by simpa using hu
      obtain ⟨d, u', hm, hrest⟩ := Point.exists_goto_of_exhausted hrest
      obtain ⟨t', ht', hR'⟩ := Related.goto (Or.inr hw) h hv hw.alike hm
      rw [Point.run_succ, ht']
      exact ih k (by omega) hR' hrest

/-- **A function in which a block has absorbed another diverges where the function does.** -/
theorem diverges_of_absorbs (h : fn.Absorbs fn' b m fresh) (hv : fn.Valid)
    (htake : TakesOver fn fn' b m fresh) {args : List Int64} {trace : Array CallRecord}
    (hdiv : fn.Diverges handler args trace) : fn'.Diverges handler args trace := by
  obtain ⟨hlen, r, hr, hrun⟩ := Func.diverges_iff.mp hdiv
  refine Func.diverges_iff.mpr ⟨h.params ▸ hlen, r, h.root.trans hr, fun n => ?_⟩
  have hstart : Point.initial fn' r args trace = Point.initial fn r args trace := by
    rw [Point.initial, initial, h.params]
    rfl
  rw [hstart]
  exact Related.exhausted h hv htake n (2 * n) (Nat.le_refl _)
    (related_initial h hr hlen trace) (hrun (2 * n))

end Emulator

end BranchFusion
