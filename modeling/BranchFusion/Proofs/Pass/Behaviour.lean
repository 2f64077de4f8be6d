import BranchFusion.Proofs.Pass.BlockMerge
import BranchFusion.Proofs.Pass.DeadCode
import BranchFusion.Proofs.Source.WellBuilt

/-!
# Merging and removal keep what a function does

Two passes ask nothing about dominance, and still leave a function as it was for those who call it.

* `BranchFusion.BlockMerge.merging_keeps_calls`: if the verifier finds nothing, merging changes no
  outcome of a call, not even an error. It shortens the way, so a call that was stopped by its limit
  may come to its end; but only if it has one.
* `BranchFusion.DeadCode.removal_keeps_calls`: in any function that was read, removing unused
  definitions changes neither results nor where a call is stopped. An error may disappear with the
  definition that raised it.
-/

namespace BranchFusion

open Emulator

variable {fn : Func}

/-! ### Merging -/

namespace BlockMerge

/-- What every merge keeps of the calls of a function, a run keeps. -/
theorem run_refines (hv : fn.Valid) :
    ∃ fn' changed, run fn = .ok (fn', changed) ∧ fn.Refines (· ≠ .stepLimit) fn' ∧
      ∀ handler args trace, fn.Diverges handler args trace → fn'.Diverges handler args trace := by
  have hkept : ∃ fn' changed, run fn = .ok (fn', changed) ∧ fn'.Valid ∧
      fn.Refines (· ≠ .stepLimit) fn' ∧
      ∀ handler args trace, fn.Diverges handler args trace → fn'.Diverges handler args trace := by
    refine run_induction (fun f hI => hI.1.toWired) ?_ ⟨hv, .refl fn, fun _ _ _ hdiv => hdiv⟩
    rintro f f' b m ⟨hfv, hrefines, hdiverges⟩ hb hm hmerged
    exact ⟨hmerged.valid hm hfv hb, hrefines.trans (hmerged.refines hm hfv hb),
      fun handler args trace hdiv => hmerged.diverges hm hfv hb (hdiverges handler args trace hdiv)⟩
  obtain ⟨fn', changed, hrun, -, hrefines, hdiverges⟩ := hkept
  exact ⟨fn', changed, hrun, hrefines, hdiverges⟩

/-- **Merging keeps every call** of a function without defects: unless the call is stopped by its
limit, it ends as it did, with the same results or the same error and after the same calls. And if
it is stopped whatever its limit, it still is. -/
theorem merging_keeps_calls (hv : fn.defects = []) :
    ∃ fn' changed, run fn = .ok (fn', changed) ∧
      (∀ handler limit args trace, ¬Exhausted (call fn handler limit args trace) →
        call fn' handler limit args trace = call fn handler limit args trace) ∧
      ∀ handler args trace,
        (∀ limit : Int, 0 < limit → Exhausted (call fn handler limit args trace)) →
          ∀ limit : Int, 0 < limit → Exhausted (call fn' handler limit args trace) := by
  obtain ⟨fn', changed, hrun, hrefines, hdiverges⟩ := run_refines (Func.defects_eq_nil_iff.mp hv)
  refine ⟨fn', changed, hrun, fun handler limit args trace hends => ?_, hdiverges⟩
  exact hrefines handler limit args trace (counts_of_not_exhausted hends)

/-- Asks for a word, and then returns it or, if it is zero, goes round in a circle. -/
def relay : Func where
  serial := 0
  name := "relay"
  root := some ⟨0, 0⟩
  params := [⟨0, 0, "x"⟩]
  values := #[⟨0, 0, "x"⟩, ⟨0, 1, "y"⟩]
  blocks := #[
    { label := "entry", instrs := [.call (some ⟨0, 1, "y"⟩) "ask" [⟨0, 0, "x"⟩]]
      term := some (.jump ⟨0, 1⟩) },
    { label := "test", preds := [⟨0, 0⟩], term := some (.branch ⟨0, 1, "y"⟩ ⟨0, 2⟩ ⟨0, 3⟩) },
    { label := "out", preds := [⟨0, 1⟩], term := some (.ret [⟨0, 1, "y"⟩]) },
    { label := "turn", preds := [⟨0, 1⟩, ⟨0, 4⟩], term := some (.jump ⟨0, 4⟩) },
    { label := "back", preds := [⟨0, 3⟩], term := some (.jump ⟨0, 3⟩) }]

/-- Answers a call with its first argument. -/
def echo : CallHandler := fun _ args => args.headD 0

/-- In the circle any number of blocks is used up. -/
theorem relay_turns : ∀ (n : Nat) (prev : Option BlockId) (s : State),
    Exhausted (Emulator.run relay echo n prev ⟨0, 3⟩ s) ∧
      Exhausted (Emulator.run relay echo n prev ⟨0, 4⟩ s)
  | 0, _, s => ⟨⟨s.trace, rfl⟩, ⟨s.trace, rfl⟩⟩
  | n + 1, _, s => ⟨(relay_turns n (some ⟨0, 3⟩) s).2, (relay_turns n (some ⟨0, 4⟩) s).1⟩

theorem relay_diverges : relay.Diverges echo [0] #[] := by
  refine Func.diverges_iff.mpr ⟨rfl, ⟨0, 0⟩, rfl, fun n => ?_⟩
  match n with
  | 0 => exact ⟨_, rfl⟩
  | 1 => exact ⟨#[⟨"ask", [0]⟩], by decide +kernel⟩
  | n + 2 => exact (relay_turns n _ _).1

/-- Merging takes the first two blocks together, and the two of the circle. -/
theorem relay_keeps_calls :
    ∃ fn', run relay = .ok (fn', true) ∧ fn'.ids = [⟨0, 0⟩, ⟨0, 2⟩, ⟨0, 3⟩] ∧
      call fn' echo 3 [7] = .ok ([7], #[⟨"ask", [7]⟩]) ∧
      ∀ limit : Int, 0 < limit → Exhausted (call fn' echo limit [0] #[]) := by
  have hvalid : relay.defects = [] := by decide +kernel
  obtain ⟨fn', changed, hrun, hends, hdiverges⟩ := merging_keeps_calls hvalid
  have hcall : call relay echo 3 [7] = .ok ([7], #[⟨"ask", [7]⟩]) := by decide +kernel
  have hmerged : (run relay).map (fun r => (r.1.ids, r.2)) =
      .ok ([⟨0, 0⟩, ⟨0, 2⟩, ⟨0, 3⟩], true) := by decide +kernel
  rw [hrun] at hmerged
  obtain ⟨hids, rfl⟩ := Prod.mk.inj (Except.ok.inj hmerged)
  refine ⟨fn', hrun, hids, ?_, hdiverges echo [0] #[] relay_diverges⟩
  rw [hends echo 3 [7] #[] (by rw [hcall]; exact nofun), hcall]

end BlockMerge

/-! ### Removing unused definitions -/

namespace DeadCode

/-- **Removal keeps every call that does not go wrong**, for any function that was read: if it
returns results, or is stopped by its limit, then so it does after the pass, with the same results
and after the same calls. -/
theorem removal_keeps_calls {src : String} {serial : Nat} {m : Module}
    (hread : Module.parse src serial = .ok m) (hfn : fn ∈ m.funcs) (handler : CallHandler)
    (limit : Int) (args : List Int64) (trace : Array CallRecord)
    (hcall : (∃ r, call fn handler limit args trace = .ok r) ∨
      Exhausted (call fn handler limit args trace)) :
    call (run fn).1 handler limit args trace = call fn handler limit args trace := by
  have hw := (Source.wellBuilt_of_parse hread fn hfn).toWired
  refine run_refines hw handler limit args trace ?_
  rcases hcall with ⟨r, hr⟩ | ⟨calls, hstop⟩
  · rw [hr]
    exact trivial
  · rw [hstop]
    exact rfl

/-- A program that counts down with a call for every count. Squares and cubes are computed and not
used. -/
def drumText : String :=
  "func @f(%n, %one) \x7b\n" ++
  "a:\n  jmp b\n" ++
  "b:\n  %i = phi [%n, a], [%j, b]\n  %s = mul %i, %i\n  %c = mul %s, %i\n" ++
  "  %r = call @beat(%i)\n  %j = sub %i, %one\n  br %j, b, c\n" ++
  "c:\n  ret %i\n\x7d\n"

/-- The function of this program. -/
def drum : Func where
  serial := 0
  name := "f"
  root := some ⟨0, 0⟩
  params := [⟨0, 0, "n"⟩, ⟨0, 1, "one"⟩]
  values := #[⟨0, 0, "n"⟩, ⟨0, 1, "one"⟩, ⟨0, 2, "i"⟩, ⟨0, 3, "j"⟩, ⟨0, 4, "s"⟩, ⟨0, 5, "c"⟩,
    ⟨0, 6, "r"⟩]
  blocks := #[
    { label := "a", term := some (.jump ⟨0, 1⟩) },
    { label := "b"
      phis := [⟨⟨0, 2, "i"⟩, [(⟨0, 0⟩, some ⟨0, 0, "n"⟩), (⟨0, 1⟩, some ⟨0, 3, "j"⟩)]⟩]
      instrs := [
        .binary ⟨0, 4, "s"⟩ .mul ⟨0, 2, "i"⟩ ⟨0, 2, "i"⟩,
        .binary ⟨0, 5, "c"⟩ .mul ⟨0, 4, "s"⟩ ⟨0, 2, "i"⟩,
        .call (some ⟨0, 6, "r"⟩) "beat" [⟨0, 2, "i"⟩],
        .binary ⟨0, 3, "j"⟩ .sub ⟨0, 2, "i"⟩ ⟨0, 1, "one"⟩]
      preds := [⟨0, 0⟩, ⟨0, 1⟩]
      term := some (.branch ⟨0, 3, "j"⟩ ⟨0, 1⟩ ⟨0, 2⟩) },
    { label := "c", preds := [⟨0, 1⟩], term := some (.ret [⟨0, 2, "i"⟩]) }]

theorem parse_drumText : Module.parse drumText = .ok ⟨[drum]⟩ := by
  decide +kernel

/-- The drum beats as often as before, and it stops after as many blocks. -/
theorem drum_keeps_calls :
    (run drum).2 = true ∧
      call (run drum).1 defaultHandler 9 [3, 1] =
        .ok ([1], #[⟨"beat", [3]⟩, ⟨"beat", [2]⟩, ⟨"beat", [1]⟩]) ∧
      call (run drum).1 defaultHandler 3 [3, 1] =
        .error ⟨.stepLimit, #[⟨"beat", [3]⟩, ⟨"beat", [2]⟩]⟩ := by
  have hends : call drum defaultHandler 9 [3, 1] =
      .ok ([1], #[⟨"beat", [3]⟩, ⟨"beat", [2]⟩, ⟨"beat", [1]⟩]) := by decide +kernel
  have hstops : call drum defaultHandler 3 [3, 1] =
      .error ⟨.stepLimit, #[⟨"beat", [3]⟩, ⟨"beat", [2]⟩]⟩ := by decide +kernel
  refine ⟨by decide +kernel, ?_, ?_⟩
  · rw [← hends]
    exact removal_keeps_calls parse_drumText (by simp) _ _ _ _ (Or.inl ⟨_, hends⟩)
  · rw [← hstops]
    exact removal_keeps_calls parse_drumText (by simp) _ _ _ _ (Or.inr ⟨_, hstops⟩)

end DeadCode

end BranchFusion
