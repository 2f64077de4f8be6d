import BranchFusion.Proofs.Availability
import BranchFusion.Proofs.Emulation.Agreement

/-!
# Refinement and simulation

A pass may change how a function computes, but not what comes of it. `BranchFusion.Func.Refines`
says so for the outcomes of a function that count: results with the calls made, and those errors
that are *kept*. Running out of blocks is not kept if a pass may shorten the way.

To show it, one gives a relation between the points of two runs and checks three things
(`BranchFusion.Emulator.Simulates`): errors and results are matched, and when the first run goes on
to a block then either the second one does too, or it waits. That the second run may wait, and the
first may not, is all the freedom there is, and it makes the second run end within the same number
of blocks (`BranchFusion.Emulator.Simulates.run`).

A pass that only leaves out instructions does not shorten the way. Its runs go *in step*
(`BranchFusion.Emulator.InStep`), and then the outcome is kept also where the blocks were used up.
A call that uses up any number of blocks *diverges* (`BranchFusion.Func.Diverges`).

Dominance comes in through `BranchFusion.Emulator.Ready`: at every point of a run, what is defined
in the strict dominators of the current block is set.
-/

namespace BranchFusion

namespace Emulator

/-- Whether the outcome of a run counts: it has results, or ends in an error that is kept. -/
def Counts {α : Type} (kept : EmulationError → Prop) : Except Stop α → Prop
  | .ok _ => True
  | .error e => kept e.error

end Emulator

open Emulator

/-- **Refinement**: whenever the outcome of `fn` counts, `fn'` has the same outcome, within the same
number of blocks. -/
def Func.Refines (kept : EmulationError → Prop) (fn fn' : Func) : Prop :=
  ∀ handler limit args trace, Counts kept (call fn handler limit args trace) →
    call fn' handler limit args trace = call fn handler limit args trace

namespace Func.Refines

variable {kept : EmulationError → Prop} {f g k : Func}

theorem refl (f : Func) : f.Refines kept f := fun _ _ _ _ _ => rfl

theorem trans (h : f.Refines kept g) (h' : g.Refines kept k) : f.Refines kept k := by
  intro handler limit args trace hc
  have hg := h handler limit args trace hc
  rw [h' handler limit args trace (hg ▸ hc), hg]

/-- A refinement that keeps more errors keeps fewer. -/
theorem mono {kept' : EmulationError → Prop} (hsub : ∀ e, kept' e → kept e)
    (h : f.Refines kept g) : f.Refines kept' g := by
  intro handler limit args trace hc
  refine h handler limit args trace ?_
  cases hcall : call f handler limit args trace with
  | ok r => exact trivial
  | error e =>
    rw [hcall] at hc
    exact hsub _ hc

end Func.Refines

namespace Emulator

variable {fn fn' : Func} {handler : CallHandler} {kept : EmulationError → Prop}

/-! ### Simulation -/

/-- A point of a run: where control came from, the block it is about to enter, and the state. -/
structure Point where
  prev : Option BlockId
  block : BlockId
  state : State

namespace Point

/-- Runs the block at a point. -/
def enter (fn : Func) (handler : CallHandler) (p : Point) : Except Stop (Next × State) :=
  Emulator.block fn handler p.prev p.block p.state

/-- The point after the block, when control goes on. -/
def next (p : Point) (c : BlockId) (t : State) : Point := ⟨some p.block, c, t⟩

/-- Runs a function from a point on. -/
def run (fn : Func) (handler : CallHandler) (n : Nat) (p : Point) :
    Except Stop (List Int64 × Array CallRecord) :=
  Emulator.run fn handler n p.prev p.block p.state

theorem run_succ (n : Nat) (p : Point) : p.run fn handler (n + 1) =
    match p.enter fn handler with
    | .error e => .error e
    | .ok (.results ws, t) => .ok (ws, t.trace)
    | .ok (.goto c, t) => (p.next c t).run fn handler n := rfl

end Point

/-- **A simulation** of the runs of `fn` by runs of `fn'`. When the run of `fn` goes on to a block,
the run of `fn'` may do so too or stay where it is. -/
structure Simulates (fn fn' : Func) (handler : CallHandler) (kept : EmulationError → Prop)
    (R : Point → Point → Prop) : Prop where
  error : ∀ {p p' e}, R p p' → p.enter fn handler = .error e → kept e.error →
    p'.enter fn' handler = .error e
  results : ∀ {p p' ws t}, R p p' → p.enter fn handler = .ok (.results ws, t) →
    ∃ t', p'.enter fn' handler = .ok (.results ws, t') ∧ t'.trace = t.trace
  goto : ∀ {p p' c t}, R p p' → p.enter fn handler = .ok (.goto c, t) →
    R (p.next c t) p' ∨
      ∃ c' t', p'.enter fn' handler = .ok (.goto c', t') ∧ R (p.next c t) (p'.next c' t')

/-- **Simulated runs have the same outcome.** The second run never needs more blocks. -/
theorem Simulates.run {R : Point → Point → Prop} (h : Simulates fn fn' handler kept R)
    (hlimit : ¬kept .stepLimit) : ∀ (n n' : Nat) {p p' : Point}, n ≤ n' → R p p' →
      Counts kept (p.run fn handler n) → p'.run fn' handler n' = p.run fn handler n := by
  intro n
  induction n with
  | zero => exact fun _ _ _ _ _ hc => absurd hc hlimit
  | succ n ih =>
    intro n' p p' hle hR hc
    obtain ⟨m, rfl⟩ : ∃ m, n' = m + 1 := ⟨n' - 1, by omega⟩
    rw [Point.run_succ n p] at hc ⊢
    cases hp : p.enter fn handler with
    | error e =>
      rw [hp] at hc
      rw [Point.run_succ, h.error hR hp hc]
    | ok r =>
      obtain ⟨next, t⟩ := r
      rw [hp] at hc
      cases next with
      | results ws =>
        obtain ⟨t', ht', htrace⟩ := h.results hR hp
        rw [Point.run_succ, ht']
        simp only [htrace]
      | goto c =>
        rcases h.goto hR hp with hwait | ⟨c', t', ht', hR'⟩
        · -- the second run has used up no block, and has more left than the first
          exact ih (m + 1) (by omega) hwait hc
        · rw [Point.run_succ, ht']
          exact ih m (by omega) hR' hc

/-- The state in which a function is called. -/
def initial (fn : Func) (args : List Int64) (trace : Array CallRecord) : State :=
  ⟨assign [] (fn.params.zip args), trace⟩

/-- The point at which a call begins. -/
def Point.initial (fn : Func) (r : BlockId) (args : List Int64) (trace : Array CallRecord) :
    Point :=
  ⟨none, r, Emulator.initial fn args trace⟩

/-- **Runs with the same outcomes make a refinement.** -/
theorem refines_of_runs (hname : fn'.name = fn.name) (hroot : fn'.root = fn.root)
    (hparams : fn'.params = fn.params)
    (h : ∀ handler n r args trace, fn.root = some r → args.length = fn.params.length →
      Counts kept ((Point.initial fn r args trace).run fn handler n) →
        (Point.initial fn r args trace).run fn' handler n =
          (Point.initial fn r args trace).run fn handler n) : fn.Refines kept fn' := by
  intro handler limit args trace hc
  rw [call] at hc ⊢
  rw [call, hname, hroot, hparams]
  split
  · rfl
  · next hlen =>
    rw [if_neg hlen] at hc
    cases hr : fn.root with
    | none => rfl
    | some r =>
      rw [hr] at hc
      exact h handler (budget limit) r args trace hr (by simpa using hlen) hc

/-- **A simulation from the entry is a refinement.** -/
theorem refines_of_simulates {R : CallHandler → Point → Point → Prop}
    (hname : fn'.name = fn.name) (hroot : fn'.root = fn.root) (hparams : fn'.params = fn.params)
    (hlimit : ¬kept .stepLimit) (h : ∀ handler, Simulates fn fn' handler kept (R handler))
    (hstart : ∀ handler r args trace, fn.root = some r → args.length = fn.params.length →
      R handler (Point.initial fn r args trace) (Point.initial fn r args trace)) :
    fn.Refines kept fn' :=
  refines_of_runs hname hroot hparams fun handler n r args trace hr hlen hc =>
    (h handler).run hlimit n n (Nat.le_refl n) (hstart handler r args trace hr hlen) hc

/-! ### Running out of blocks -/

/-- A run was stopped, since it had used up its blocks. -/
def Exhausted {α : Type} (x : Except Stop α) : Prop :=
  ∃ calls, x = .error ⟨.stepLimit, calls⟩

theorem exhausted_of_counts {α : Type} {e : Stop}
    (h : Counts (α := α) (· = .stepLimit) (.error e)) : Exhausted (α := α) (.error e) := by
  obtain ⟨error, calls⟩ := e
  obtain rfl : error = .stepLimit := h
  exact ⟨calls, rfl⟩

/-- An outcome counts if errors are, unless it is that of a run which was stopped. -/
theorem counts_of_not_exhausted {α : Type} {x : Except Stop α} (h : ¬Exhausted x) :
    Counts (· ≠ .stepLimit) x := by
  cases x with
  | ok a => exact trivial
  | error e =>
    rintro (he : e.error = .stepLimit)
    exact h (exhausted_of_counts he)

/-- **A run that is not stopped ends as it does with every greater limit.** This is how a run
without a limit ends. -/
theorem exists_limit {limit : Int} {args : List Int64} {trace : Array CallRecord}
    (h : ¬Exhausted (call fn handler limit args trace)) :
    ∃ n : Int, 0 < n ∧ ∀ limit', n ≤ limit' →
      call fn handler limit' args trace = call fn handler limit args trace := by
  have hpos : 0 < budget limit := by
    rw [budget]
    split
    · omega
    · decide
  refine ⟨budget limit, by omega, fun limit' hle => ?_⟩
  have hbudget : budget limit ≤ budget limit' := by
    rw [budget.eq_def limit', if_pos (by omega)]
    omega
  have hself : Simulates fn fn handler (· ≠ .stepLimit) Eq :=
    ⟨fun hp he _ => hp ▸ he, fun hp he => ⟨_, hp ▸ he, rfl⟩,
      fun hp he => .inr ⟨_, _, hp ▸ he, hp ▸ rfl⟩⟩
  rw [call] at h ⊢
  rw [call]
  split
  · rfl
  · next hlen =>
    rw [if_neg hlen] at h
    cases hr : fn.root with
    | none => rfl
    | some r =>
      rw [hr] at h
      exact hself.run (by simp) _ _ (p := Point.initial fn r args trace) hbudget rfl
        (counts_of_not_exhausted h)

theorem Point.exhausted_zero (p : Point) : Exhausted (p.run fn handler 0) := ⟨p.state.trace, rfl⟩

/-- A run that was stopped has gone on from every block that it entered. -/
theorem Point.exists_goto_of_exhausted {n : Nat} {p : Point}
    (h : Exhausted (p.run fn handler (n + 1))) :
    ∃ c t, p.enter fn handler = .ok (.goto c, t) ∧
      Exhausted ((p.next c t).run fn handler n) := by
  obtain ⟨calls, hrun⟩ := h
  rw [Point.run_succ] at hrun
  cases hp : p.enter fn handler with
  | error e =>
    rw [hp] at hrun
    obtain rfl := Except.error.inj hrun
    exact absurd rfl (failsWith_block _ hp)
  | ok r =>
    obtain ⟨next, t⟩ := r
    rw [hp] at hrun
    cases next with
    | results ws => exact absurd hrun (by simp)
    | goto c => exact ⟨c, t, rfl, calls, hrun⟩

/-- **Runs in step**: whenever the run of `fn` gets through a block, that of `fn'` gets through a
block, too, and both have made the same calls. -/
structure InStep (fn fn' : Func) (handler : CallHandler) (R : Point → Point → Prop) : Prop where
  trace : ∀ {p p'}, R p p' → p'.state.trace = p.state.trace
  results : ∀ {p p' ws t}, R p p' → p.enter fn handler = .ok (.results ws, t) →
    ∃ t', p'.enter fn' handler = .ok (.results ws, t') ∧ t'.trace = t.trace
  goto : ∀ {p p' c t}, R p p' → p.enter fn handler = .ok (.goto c, t) →
    ∃ c' t', p'.enter fn' handler = .ok (.goto c', t') ∧ R (p.next c t) (p'.next c' t')

/-- **Runs in step have the same results, and use up their blocks together.** -/
theorem InStep.run {R : Point → Point → Prop} (h : InStep fn fn' handler R) :
    ∀ (n : Nat) {p p' : Point}, R p p' → Counts (· = .stepLimit) (p.run fn handler n) →
      p'.run fn' handler n = p.run fn handler n := by
  intro n
  induction n with
  | zero =>
    intro p p' hR _
    have htrace := h.trace hR
    simp only [Point.run, Emulator.run, htrace]
  | succ n ih =>
    intro p p' hR hc
    cases hp : p.enter fn handler with
    | error e =>
      -- the run did not get through the block, so it was not stopped by the limit
      rw [Point.run_succ, hp] at hc
      exact absurd hc (failsWith_block e hp)
    | ok r =>
      obtain ⟨next, t⟩ := r
      rw [Point.run_succ n p, hp] at hc ⊢
      cases next with
      | results ws =>
        obtain ⟨t', ht', htrace⟩ := h.results hR hp
        rw [Point.run_succ, ht']
        simp only [htrace]
      | goto c =>
        obtain ⟨c', t', ht', hR'⟩ := h.goto hR hp
        rw [Point.run_succ, ht']
        exact ih hR' hc

/-- **Runs that go in step from the entry make a refinement**, in which running out of blocks is
kept. -/
theorem refines_of_inStep {R : CallHandler → Point → Point → Prop}
    (hname : fn'.name = fn.name) (hroot : fn'.root = fn.root) (hparams : fn'.params = fn.params)
    (h : ∀ handler, InStep fn fn' handler (R handler))
    (hstart : ∀ handler r args trace, fn.root = some r → args.length = fn.params.length →
      R handler (Point.initial fn r args trace) (Point.initial fn r args trace)) :
    fn.Refines (· = .stepLimit) fn' :=
  refines_of_runs hname hroot hparams fun handler n r args trace hr hlen hc =>
    (h handler).run n (hstart handler r args trace hr hlen) hc

end Emulator

/-- **A call that never ends**: whatever the limit, it is stopped by it. -/
def Func.Diverges (fn : Func) (handler : CallHandler) (args : List Int64)
    (trace : Array CallRecord) : Prop :=
  ∀ limit : Int, 0 < limit → Exhausted (call fn handler limit args trace)

/-- A call diverges if its run gets through any number of blocks. -/
theorem Func.diverges_iff {fn : Func} {handler : CallHandler} {args : List Int64}
    {trace : Array CallRecord} : fn.Diverges handler args trace ↔
      args.length = fn.params.length ∧ ∃ r, fn.root = some r ∧
        ∀ n, Exhausted ((Point.initial fn r args trace).run fn handler n) := by
  constructor
  · intro h
    have hlen : args.length = fn.params.length := by
      by_contra hlen
      obtain ⟨calls, hcall⟩ := h 1 (by decide)
      rw [call, if_pos hlen] at hcall
      exact absurd hcall (by simp)
    cases hr : fn.root with
    | none =>
      obtain ⟨calls, hcall⟩ := h 1 (by decide)
      rw [call, if_neg (by simpa using hlen), hr] at hcall
      exact absurd hcall (by simp)
    | some r =>
      refine ⟨hlen, r, rfl, fun n => ?_⟩
      cases n with
      | zero => exact Point.exhausted_zero _
      | succ n =>
        have hcall := h (n + 1) (by omega)
        rw [call, if_neg (by simpa using hlen), hr, budget, if_pos (by omega)] at hcall
        exact hcall
  · rintro ⟨hlen, r, hr, hrun⟩ limit hlimit
    rw [call, if_neg (by simpa using hlen), hr]
    exact hrun (budget limit)

namespace Emulator

variable {fn fn' : Func} {handler : CallHandler}

/-! ### What is set at a point of a run -/

variable {prev : Option BlockId} {b c : BlockId} {s t : State} {v : Value}

/-- **The invariant of a run**: control is at a block that the entry reaches, and the parameters and
whatever is defined in the strict dominators of that block are set. -/
structure Ready (fn : Func) (b : BlockId) (s : State) : Prop where
  reaches : fn.Reaches b
  params : ∀ v ∈ fn.params, s.Holds v
  dominated : ∀ d v, d ≠ b → v ∈ (fn.block d).definitions → fn.Dominates d b → s.Holds v

theorem ready_initial {args : List Int64} {trace : Array CallRecord}
    (hr : fn.root = some b) (hlen : args.length = fn.params.length) :
    Ready fn b (initial fn args trace) := by
  refine ⟨⟨b, hr, .refl⟩, fun v hv => ?_, fun d v hne _ hdom => ?_⟩
  · have hmem : v ∈ (fn.params.zip args).map Prod.fst := by
      rwa [List.map_fst_zip (by omega)]
    exact holds_assign (s := ⟨[], trace⟩) (fn.params.zip args) (Or.inr hmem)
  · obtain ⟨r, hr', hdom⟩ := hdom
    obtain rfl : b = r := by simpa [hr] using hr'
    exact absurd hdom.eq_entry hne

/-- What is available at the end of a block is set once its phis and instructions were run. -/
theorem Ready.holds_of_available (h : Ready fn b s) (hv : fn.Available b v)
    (hkept : ∀ w, s.Holds w ∨ w ∈ (fn.block b).definitions → t.Holds w) : t.Holds v := by
  rcases hv with hv | ⟨d, -, hv, hdom⟩
  · exact hkept v (Or.inl (h.params v hv))
  · by_cases hdb : d = b
    · exact hkept v (Or.inr (hdb ▸ hv))
    · exact hkept v (Or.inl (h.dominated d v hdb hv hdom))

/-- **The invariant is kept** from block to block: a strict dominator of the next block dominates
this one. -/
theorem Ready.goto (h : Ready fn b s) (hrun : block fn handler prev b s = .ok (.goto c, t)) :
    Ready fn c t := by
  have he := edge_of_block hrun
  refine ⟨h.reaches.edge he, fun v hv => ?_, fun d v hne hv hdom => ?_⟩
  · exact holds_of_block hrun (Or.inl (h.params v hv))
  · have hdb := hdom.of_edge hne h.reaches he
    by_cases hd : d = b
    · exact holds_of_block hrun (Or.inr (hd ▸ hv))
    · exact holds_of_block hrun (Or.inl (h.dominated d v hd hv hdb))

end Emulator

end BranchFusion
