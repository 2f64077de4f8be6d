import BranchFusion.Proofs.Contraction
import BranchFusion.Proofs.Emulation.Simulation

/-!
# Well-formed functions do not go wrong

The verifier checks that what is used is defined *somewhere*; strict form says that it is defined
*on the way*. Together they leave a run nothing to stumble over: every read finds a word, every phi
an input for the block that control came from, and every block a terminator. Such a run has
results, or was allowed too few blocks (`BranchFusion.Emulator.strict_runs_do_not_go_wrong`).

The argument has the two usual halves.

* **Progress.** Code whose operands are held runs: a read (`BranchFusion.Emulator.exists_read`), an
  instruction (`BranchFusion.Emulator.exists_exec`), a terminator
  (`BranchFusion.Emulator.exists_leave`), and so a whole block
  (`BranchFusion.Emulator.Arrives.exists_block`).
* **Preservation.** `BranchFusion.Emulator.Arrives` is the invariant between blocks. To
  `BranchFusion.Emulator.Ready`, which speaks of the strict dominators of the block that control is
  about to enter, it adds what the phis need: control came along an edge, and whatever is available
  at the end of that edge's source is held.

Dominators alone would not do for the phis. The input of a phi need not dominate the block of the
phi, and is held only because control has just left the predecessor that it stands for.
-/

namespace BranchFusion

namespace Emulator

variable {fn : Func} {handler : CallHandler} {s t : State} {prev : Option BlockId}
  {b c : BlockId} {v : Value}

/-! ### Progress of the pieces -/

section Pieces

variable (fn handler)

theorem exists_read (h : s.Holds v) : ∃ w, read fn s.env (some v) = .ok w := by
  obtain ⟨w, hw⟩ := Option.isSome_iff_exists.mp h
  exact ⟨w, read_of_some hw⟩

theorem exists_readAll : ∀ vs : List Value, (∀ v ∈ vs, s.Holds v) →
    ∃ ws, readAll fn s.env vs = .ok ws
  | [], _ => ⟨[], rfl⟩
  | v :: vs, h => by
    obtain ⟨w, hw⟩ := exists_read fn (h v (by simp))
    obtain ⟨ws, hws⟩ := exists_readAll vs fun x hx => h x (List.mem_cons_of_mem v hx)
    exact ⟨w :: ws, by rw [readAll, hw, hws]; rfl⟩

theorem exists_exec {i : Instr} (h : ∀ v ∈ i.operands, s.Holds v) :
    ∃ t, exec fn handler s i = .ok t := by
  cases i with
  | const r w => exact ⟨_, rfl⟩
  | binary r op x y =>
    obtain ⟨a, ha⟩ := exists_read fn (h x (by simp [Instr.operands]))
    obtain ⟨b, hb⟩ := exists_read fn (h y (by simp [Instr.operands]))
    exact ⟨_, by rw [exec, ha, hb]; rfl⟩
  | call r callee args =>
    obtain ⟨ws, hws⟩ := exists_readAll fn args h
    exact ⟨_, by rw [exec, hws]; rfl⟩

theorem exists_leave (b : BlockId) {term : Terminator} (h : ∀ v ∈ term.operands, s.Holds v) :
    ∃ next, leave fn b s.env (some term) = .ok next := by
  cases term with
  | jump target => exact ⟨_, rfl⟩
  | branch v x y =>
    obtain ⟨w, hw⟩ := exists_read fn (h v (by simp [Terminator.operands]))
    exact ⟨_, by rw [leave, hw]; rfl⟩
  | switch v d cases =>
    obtain ⟨w, hw⟩ := exists_read fn (h v (by simp [Terminator.operands]))
    exact ⟨_, by rw [leave, hw]; rfl⟩
  | ret vs =>
    obtain ⟨ws, hws⟩ := exists_readAll fn vs h
    exact ⟨_, by rw [leave, hws]; rfl⟩

/-- Phis can be read if each has an input for where control came from, and its value is held. -/
theorem exists_readPhis : ∀ ps : List Phi,
    (∀ p ∈ ps, ∃ v, prev.bind p.input? = some (some v) ∧ s.Holds v) →
      ∃ ws, readPhis fn s.env prev ps = .ok ws
  | [], _ => ⟨[], rfl⟩
  | p :: ps, h => by
    obtain ⟨v, hin, hv⟩ := h p (by simp)
    obtain ⟨w, hw⟩ := exists_read fn hv
    obtain ⟨ws, hws⟩ := exists_readPhis ps fun x hx => h x (List.mem_cons_of_mem p hx)
    refine ⟨(p.result, w) :: ws, ?_⟩
    simp only [readPhis, hin, hw, hws]
    rfl

end Pieces

/-- **The instructions of a block run**, from any place in it, if all that is known there is held.
In the end all that is known at the terminator is held. -/
theorem exists_execAll (hstrict : fn.Strict) (hb : fn.owns b) : ∀ (before after : List Instr)
    {s : State}, (fn.block b).instrs = before ++ after →
    (∀ v, fn.Known b ((fn.block b).phis.map Phi.result ++ before.filterMap Instr.result?) v →
      s.Holds v) →
    ∃ t, execAll fn handler s after = .ok t ∧
      ∀ v, fn.Known b (fn.block b).definitions v → t.Holds v
  | before, [], s, hcode, hknown => by
    refine ⟨s, rfl, fun v hv => hknown v ?_⟩
    rwa [Block.definitions, hcode, List.append_nil] at hv
  | before, i :: after, s, hcode, hknown => by
    obtain ⟨u, hu⟩ := exists_exec fn handler fun v hv =>
      hknown v (hstrict.instr b hb before i after hcode v hv)
    have hknown' : ∀ v, fn.Known b ((fn.block b).phis.map Phi.result ++
        (before ++ [i]).filterMap Instr.result?) v → u.Holds v := by
      intro v hv
      rw [List.filterMap_append, ← List.append_assoc, Func.known_append_iff] at hv
      exact holds_of_exec hu (hv.imp (hknown v) fun hv => by simpa using hv)
    obtain ⟨t, ht, hend⟩ := exists_execAll hstrict hb (before ++ [i]) after
      (by simpa using hcode) hknown'
    exact ⟨t, by rw [execAll, hu]; exact ht, hend⟩

/-! ### The invariant between blocks -/

/-- **Control arrives at a block**: at the entry, which has no phis, or along an edge, with all that
is available at the end of the block it came from. -/
structure Arrives (fn : Func) (prev : Option BlockId) (b : BlockId) (s : State) : Prop
    extends Ready fn b s where
  entry : prev = none → (fn.block b).phis = []
  edge : ∀ q, prev = some q → fn.owns q ∧ fn.Edge q b
  available : ∀ q, prev = some q → ∀ v, fn.Available q v → s.Holds v

/-- A phi of a valid function has a value for each predecessor. -/
theorem exists_input (hvalid : fn.Valid) (hb : fn.owns b) {p : Phi} (hp : p ∈ (fn.block b).phis)
    {q : BlockId} (hq : q ∈ (fn.block b).preds) : ∃ v, p.input? q = some (some v) := by
  obtain ⟨o, ho⟩ := Option.isSome_iff_exists.mp ((hvalid.inputs b hb p hp q).mpr hq)
  obtain ⟨v, rfl, -⟩ := hvalid.defined b hb o (Block.mem_uses_of_input hp ho)
  exact ⟨v, ho⟩

/-- The phis of a valid function in strict form find what they look for. -/
theorem Arrives.input (h : Arrives fn prev b s) (hvalid : fn.Valid) (hstrict : fn.Strict)
    {p : Phi} (hp : p ∈ (fn.block b).phis) :
    ∃ v, prev.bind p.input? = some (some v) ∧ s.Holds v := by
  have hb := hvalid.closed.owns_of_reaches h.reaches
  cases prev with
  | none => simp [h.entry rfl] at hp
  | some q =>
    have hpred : q ∈ (fn.block b).preds := (hvalid.mem_preds_iff hb).mpr (h.edge q rfl)
    obtain ⟨v, ho⟩ := exists_input hvalid hb hp hpred
    exact ⟨v, ho, h.available q rfl v (hstrict.phi b hb p hp q v ho)⟩

/-- **Progress**: a block that control arrives at is run to its end. -/
theorem Arrives.exists_block (h : Arrives fn prev b s) (handler : CallHandler)
    (hvalid : fn.Valid) (hstrict : fn.Strict) :
    ∃ next t, block fn handler prev b s = .ok (next, t) := by
  have hb := hvalid.closed.owns_of_reaches h.reaches
  obtain ⟨ws, hws⟩ := exists_readPhis fn (fn.block b).phis fun p => h.input hvalid hstrict
  have hstart : ∀ v, fn.Known b ((fn.block b).phis.map Phi.result ++ []) v →
      State.Holds { s with env := assign s.env ws } v := by
    intro v hv
    refine holds_assign ws ?_
    rw [map_fst_of_readPhis hws]
    rcases hv with hv | hv | ⟨d, hne, -, hv, hdom⟩
    · exact Or.inl (h.params v hv)
    · exact Or.inr (by simpa using hv)
    · exact Or.inl (h.dominated d v hne hv hdom)
  obtain ⟨t, ht, hknown⟩ := exists_execAll hstrict hb [] _ rfl hstart
  obtain ⟨term, hterm⟩ := Option.isSome_iff_exists.mp (hvalid.terminated b hb)
  obtain ⟨next, hnext⟩ := exists_leave fn b fun v hv =>
    hknown v (hstrict.term b hb term hterm v hv)
  refine ⟨next, t, ?_⟩
  rw [block_eq_finish, hws, State.lift_ok]
  change finish fn handler b _ _ _ = _
  rw [finish, ht, hterm]
  change t.lift (leave fn b t.env (some term)) >>= _ = _
  rw [hnext]
  rfl

/-- **Preservation**: from a block that was run, control arrives at the next. -/
theorem Arrives.goto (h : Arrives fn prev b s) (hvalid : fn.Valid)
    (hrun : block fn handler prev b s = .ok (.goto c, t)) : Arrives fn (some b) c t := by
  refine ⟨h.toReady.goto hrun, fun hnone => absurd hnone (by simp), ?_, ?_⟩
  · rintro _ ⟨⟩
    exact ⟨hvalid.closed.owns_of_reaches h.reaches, edge_of_block hrun⟩
  · rintro _ ⟨⟩ v hv
    exact h.holds_of_available hv fun w => holds_of_block hrun

/-! ### Whole runs -/

/-- From where control arrives, a run does not go wrong. The induction is on the number of blocks
that the run may enter. -/
theorem Arrives.run_ends_well (hvalid : fn.Valid) (hstrict : fn.Strict) : ∀ (n : Nat)
    {prev : Option BlockId} {b : BlockId} {s : State}, Arrives fn prev b s →
      (∃ r, run fn handler n prev b s = .ok r) ∨
        ∃ calls, run fn handler n prev b s = .error ⟨.stepLimit, calls⟩
  | 0, _, _, s, _ => Or.inr ⟨s.trace, rfl⟩
  | n + 1, prev, b, s, h => by
    obtain ⟨next, t, hrun⟩ := h.exists_block handler hvalid hstrict
    rw [run, hrun]
    cases next with
    | results ws => exact Or.inl ⟨_, rfl⟩
    | goto c => exact Arrives.run_ends_well hvalid hstrict n (h.goto hvalid hrun)

/-- **Well-formed functions do not go wrong.** A function without defects, in strict form and
without phis at its entry, called with as many arguments as it has parameters, returns results or
runs out of blocks, whatever its calls are answered and however many blocks it may enter. -/
theorem strict_runs_do_not_go_wrong (hdefects : fn.defects = []) (hstrict : fn.Strict)
    (hentry : ∀ r, fn.root = some r → (fn.block r).phis = []) {args : List Int64}
    (hargs : args.length = fn.params.length) (handler : CallHandler) (limit : Int)
    (trace : Array CallRecord) :
    (∃ r, call fn handler limit args trace = .ok r) ∨
      ∃ calls, call fn handler limit args trace = .error ⟨.stepLimit, calls⟩ := by
  have hvalid := Func.defects_eq_nil_iff.mp hdefects
  obtain ⟨r, hr, -⟩ := hvalid.entry
  have hstart : Arrives fn none r (initial fn args trace) :=
    ⟨ready_initial hr hargs, fun _ => hentry r hr, fun _ h => absurd h (by simp),
      fun _ h => absurd h (by simp)⟩
  rw [call, if_neg (by simpa using hargs), hr]
  exact Arrives.run_ends_well hvalid hstrict (budget limit) hstart

/-- Counts down from its argument, and returns the last count before zero. -/
def countdown : Func where
  serial := 0
  name := "countdown"
  root := some ⟨0, 0⟩
  params := [⟨0, 0, "n"⟩]
  values := #[⟨0, 0, "n"⟩, ⟨0, 1, "one"⟩, ⟨0, 2, "i"⟩, ⟨0, 3, "j"⟩]
  blocks := #[
    { label := "entry", instrs := [.const ⟨0, 1, "one"⟩ 1], term := some (.jump ⟨0, 1⟩) },
    { label := "loop"
      phis := [⟨⟨0, 2, "i"⟩, [(⟨0, 0⟩, some ⟨0, 0, "n"⟩), (⟨0, 1⟩, some ⟨0, 3, "j"⟩)]⟩]
      instrs := [.binary ⟨0, 3, "j"⟩ .sub ⟨0, 2, "i"⟩ ⟨0, 1, "one"⟩]
      preds := [⟨0, 0⟩, ⟨0, 1⟩]
      term := some (.branch ⟨0, 3, "j"⟩ ⟨0, 1⟩ ⟨0, 2⟩) },
    { label := "done", preds := [⟨0, 1⟩], term := some (.ret [⟨0, 2, "i"⟩]) }]

theorem defects_countdown : countdown.defects = [] := by
  decide +kernel

/-- The new count does not dominate the loop, but it is available where the loop closes. -/
theorem strict_countdown : countdown.Strict := by
  refine (Func.defects_eq_nil_iff.mp defects_countdown).strict_of_places ?_ ?_ ?_ <;> decide +kernel

/-- However long it counts, it does not go wrong. -/
theorem countdown_does_not_go_wrong :
    (∃ r, call countdown defaultHandler 100 [7] #[] = .ok r) ∨
      ∃ calls, call countdown defaultHandler 100 [7] #[] = .error ⟨.stepLimit, calls⟩ :=
  strict_runs_do_not_go_wrong defects_countdown strict_countdown (by rintro _ ⟨⟩; decide) rfl
    defaultHandler 100 #[]

end Emulator

end BranchFusion
