import BranchFusion.Proofs.Emulation.Progress

/-!
# What runs of valid functions can fail with

The verifier looks at a function, and the emulator looks at a run of it. What the one demands of
phis and terminators is what the other needs: between blocks a run of a valid function is always at
a live block whose phis have an input for where control came from (`BranchFusion.Emulator.Enters`).
This alone leaves few ways to go wrong, even if nothing is known about dominance: the function may
read a value that is defined elsewhere and was not set on the way
(`BranchFusion.Emulator.valid_runs_fail_only_in_reads`).

There is one way into a function that is no edge, and the verifier does not look at it: the call. No
phi has an input for it. A valid function whose entry is the target of a branch may have phis at its
entry, but every call of it fails at the first of them (`BranchFusion.Emulator.call_eq_noInput`).
-/

namespace BranchFusion

namespace Emulator

variable {fn : Func} {handler : CallHandler} {s t : State} {prev : Option BlockId}
  {b c : BlockId}

/-- The kinds of errors that are left: a value is read that was not set. -/
def IsRead (fn : Func) (e : EmulationError) : Prop := ∃ v, e = .undefinedRead fn.name (some v)

/-! ### The invariant between blocks -/

/-- **Control enters a block**: it is live, and its phis have a value to read for where control came
from. -/
structure Enters (fn : Func) (prev : Option BlockId) (b : BlockId) : Prop where
  owns : fn.owns b
  input : ∀ p ∈ (fn.block b).phis, ∃ v, prev.bind p.input? = some (some v)

/-- A block that control enters fails only when it reads. -/
theorem Enters.failsWith_block (h : Enters fn prev b) (hvalid : fn.Valid) :
    FailsWith (fun e => IsRead fn e.error) (block fn handler prev b s) := by
  refine failsWith_block_of (fun v => ⟨v, rfl⟩) (fun p hp hnone => ?_) (fun p hp o ho => ?_)
    fun hterm => ?_
  · obtain ⟨v, hv⟩ := h.input p hp
    exact absurd (hnone.symm.trans hv) (by simp)
  · obtain ⟨v, hv⟩ := h.input p hp
    obtain rfl : o = some v := Option.some.inj (ho.symm.trans hv)
    exact ⟨v, rfl⟩
  · exact absurd (hvalid.terminated b h.owns) (by simp [hterm])

/-- Where control goes on, it enters a block again. -/
theorem Enters.goto (h : Enters fn prev b) (hvalid : fn.Valid)
    (hrun : block fn handler prev b s = .ok (.goto c, t)) : Enters fn (some b) c := by
  have he := edge_of_block hrun
  have hc : fn.owns c := hvalid.successors b c h.owns he
  exact ⟨hc, fun p hp =>
    exists_input hvalid hc hp ((hvalid.mem_preds_iff hc).mpr ⟨h.owns, he⟩)⟩

/-! ### Whole runs -/

/-- From where control enters a block, a run fails only when it reads, or when it was allowed too
few blocks. The induction is on the number of blocks that it may enter. -/
theorem Enters.failsWith_run (hvalid : fn.Valid) : ∀ (n : Nat) {prev : Option BlockId}
    {b : BlockId} {s : State}, Enters fn prev b →
      FailsWith (fun e => e.error = .stepLimit ∨ IsRead fn e.error) (run fn handler n prev b s)
  | 0, _, _, _, _ => by
    rintro _ ⟨⟩
    exact .inl rfl
  | n + 1, prev, b, s, h => by
    intro e he
    rw [run] at he
    split at he
    · next e' hblock =>
      obtain rfl := Except.error.inj he
      exact .inr (h.failsWith_block hvalid _ hblock)
    · exact absurd he (by simp)
    · next target t hblock => exact Enters.failsWith_run hvalid n (h.goto hvalid hblock) e he

/-- **A phi at the entry has no input for a call.** -/
theorem call_eq_noInput {r : BlockId} {p : Phi} {ps : List Phi} {args : List Int64} {limit : Int}
    (hr : fn.root = some r) (hphis : (fn.block r).phis = p :: ps)
    (hargs : args.length = fn.params.length) (hlimit : 0 < limit) (trace : Array CallRecord) :
    call fn handler limit args trace = .error ⟨.noInput fn.name p.result none, trace⟩ := by
  obtain ⟨n, hn⟩ : ∃ n, budget limit = n + 1 := ⟨limit.toNat - 1, by
    rw [budget, if_pos hlimit]
    omega⟩
  rw [call, if_neg (by simpa using hargs), hr]
  simp only [hn, run, block, hphis, readPhis, Option.bind_none, Option.map_none]
  rfl

/-- **Runs of valid functions fail only when they read.** A function without defects, called with as
many arguments as it has parameters, returns results, runs out of blocks, or reads a value that was
not set, whatever its calls are answered and however many blocks it may enter. The only exception
are functions with phis at their entry: every call of such a function fails at the first of them,
before anything else is done. -/
theorem valid_runs_fail_only_in_reads (hdefects : fn.defects = []) {args : List Int64}
    (hargs : args.length = fn.params.length) (handler : CallHandler) {limit : Int}
    (hlimit : 0 < limit) (trace : Array CallRecord) :
    ∃ r, fn.root = some r ∧
      ((fn.block r).phis = [] →
        (∃ ws calls, call fn handler limit args trace = .ok (ws, calls)) ∨
        ∃ e calls, call fn handler limit args trace = .error ⟨e, calls⟩ ∧
          (e = .stepLimit ∨ ∃ v, e = .undefinedRead fn.name (some v))) ∧
      ∀ p ps, (fn.block r).phis = p :: ps →
        call fn handler limit args trace = .error ⟨.noInput fn.name p.result none, trace⟩ := by
  have hvalid := Func.defects_eq_nil_iff.mp hdefects
  obtain ⟨r, hr, hown⟩ := hvalid.entry
  refine ⟨r, hr, fun hphis => ?_, fun p ps hphis => call_eq_noInput hr hphis hargs hlimit trace⟩
  have henters : Enters fn none r := ⟨hown, by simp [hphis]⟩
  have hfails : FailsWith (fun e => e.error = .stepLimit ∨ IsRead fn e.error)
      (call fn handler limit args trace) := by
    rw [call, if_neg (by simpa using hargs), hr]
    exact henters.failsWith_run hvalid (budget limit)
  cases hcall : call fn handler limit args trace with
  | ok result => exact .inl ⟨_, _, rfl⟩
  | error e => exact .inr ⟨_, _, rfl, hfails e hcall⟩

/-- Goes round in its entry, where a phi has an input for this way round only. -/
def spin : Func where
  serial := 0
  name := "spin"
  root := some ⟨0, 0⟩
  params := [⟨0, 0, "a"⟩]
  values := #[⟨0, 0, "a"⟩, ⟨0, 1, "x"⟩]
  blocks := #[
    { label := "loop"
      phis := [⟨⟨0, 1, "x"⟩, [(⟨0, 0⟩, some ⟨0, 0, "a"⟩)]⟩]
      preds := [⟨0, 0⟩]
      term := some (.jump ⟨0, 0⟩) }]

/-- The verifier finds nothing wrong with it, but it cannot be called. -/
theorem spin_cannot_be_called :
    spin.defects = [] ∧ [(1 : Int64)].length = spin.params.length ∧
      call spin defaultHandler 5 [1] #[] = .error ⟨.noInput "spin" ⟨0, 1, "x"⟩ none, #[]⟩ ∧
      (EmulationError.noInput "spin" ⟨0, 1, "x"⟩ none).message =
        "ssa: @spin: %x has no incoming value from <nil>" := by
  decide +kernel

/-- Returns a value that is only set on one of two ways. -/
def detour : Func where
  serial := 0
  name := "detour"
  root := some ⟨0, 0⟩
  params := [⟨0, 0, "a"⟩]
  values := #[⟨0, 0, "a"⟩, ⟨0, 1, "x"⟩]
  blocks := #[
    { label := "entry", term := some (.branch ⟨0, 0, "a"⟩ ⟨0, 1⟩ ⟨0, 2⟩) },
    { label := "left"
      instrs := [.const ⟨0, 1, "x"⟩ 1]
      preds := [⟨0, 0⟩]
      term := some (.jump ⟨0, 2⟩) },
    { label := "join", preds := [⟨0, 0⟩, ⟨0, 1⟩], term := some (.ret [⟨0, 1, "x"⟩]) }]

theorem defects_detour : detour.defects = [] := by
  decide +kernel

/-- It is not in strict form, but whatever goes wrong on its ways is a read. -/
theorem detour_fails_only_in_reads :
    (∃ ws calls, call detour defaultHandler 10 [0] #[] = .ok (ws, calls)) ∨
      ∃ e calls, call detour defaultHandler 10 [0] #[] = .error ⟨e, calls⟩ ∧
        (e = .stepLimit ∨ ∃ v, e = .undefinedRead "detour" (some v)) := by
  have hargs : [(0 : Int64)].length = detour.params.length := by decide
  have hlimit : (0 : Int) < 10 := by decide
  obtain ⟨r, hr, hplain, -⟩ :=
    valid_runs_fail_only_in_reads defects_detour hargs defaultHandler hlimit #[]
  obtain rfl : ⟨0, 0⟩ = r := Option.some.inj hr
  exact hplain (by decide)

end Emulator

end BranchFusion
