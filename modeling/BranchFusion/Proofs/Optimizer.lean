import BranchFusion.Optimizer
import BranchFusion.Proofs.Pipeline
import BranchFusion.Proofs.Source.WellBuilt

/-!
# An optimised program gives the same results

Here the results about passes and pipelines meet the programs that are read. A program that was read
has entered its values, so nothing is asked of it but that the verifier finds no defect.

* `BranchFusion.Pass.strict_fold_keeps_calls`: one fold in strict mode changes no outcome of a call,
  not even an error, unless the call runs out of blocks. Nothing is known about dominance here;
  strict mode looks after it.
* `BranchFusion.Optimizer.optimizeModule_keeps_results`: in a module of functions in strict form,
  whole pipelines leave every function with the results and the calls that it had.
-/

namespace BranchFusion

variable {src : String} {serial : Nat} {m : Module} {fn : Func}

/-- The text of `BranchFusion.nestedBranches`. -/
def nestedText : String :=
  "func @f(%a, %b) \x7b\n" ++
  "entry:\n  br %a, mid, else\n" ++
  "mid:\n  br %b, then, else\n" ++
  "then:\n  ret %a\n" ++
  "else:\n  ret %b\n\x7d\n"

theorem parse_nestedText : Module.parse nestedText = .ok ⟨[nestedBranches]⟩ := by
  decide +kernel

/-! ### One fold -/

/-- **Strict mode keeps the outcome of every call**, for a function that was read and has no
defects, with the dominators of this function. -/
theorem Pass.strict_fold_keeps_calls (hread : Module.parse src serial = .ok m)
    (hfn : fn ∈ m.funcs) (hv : fn.defects = []) {cache : Option AnalysisCache}
    (htree : (dominatorsWith fn cache).1 = DominatorTree.build fn) :
    (Pass.nestedIf.run true fn cache).fault = none ∧
      ∀ handler limit args trace,
        (∀ calls, Emulator.call fn handler limit args trace ≠ .error ⟨.stepLimit, calls⟩) →
          Emulator.call (Pass.nestedIf.run true fn cache).func handler limit args trace =
            Emulator.call fn handler limit args trace := by
  obtain ⟨p, hp, hrefines⟩ := NestedIf.run_refines (Func.defects_eq_nil_iff.mp hv)
    (Source.entered_of_parse hread fn hfn) htree
  rw [Pass.run_nestedIf hp]
  refine ⟨rfl, fun handler limit args trace hlimit => hrefines handler limit args trace ?_⟩
  cases hcall : Emulator.call fn handler limit args trace with
  | ok r => exact trivial
  | error e =>
    rintro (herror : e.error = .stepLimit)
    exact hlimit e.trace (by rw [hcall, ← herror])

/-- Folding the nested branches leaves the call that used to end in the common way out. -/
theorem nestedBranches_fold_keeps_call :
    Emulator.call (Pass.nestedIf.run true nestedBranches none).func Emulator.defaultHandler 3 [1, 0]
      = .ok ([0], #[]) := by
  have hcall : Emulator.call nestedBranches Emulator.defaultHandler 3 [1, 0] = .ok ([0], #[]) := by
    decide +kernel
  rw [(Pass.strict_fold_keeps_calls parse_nestedText (by simp) defects_nestedBranches rfl).2]
  · exact hcall
  · intro calls
    rw [hcall]
    exact nofun

/-! ### Whole modules -/

namespace Manager

/-- **A manager over functions** ends without a failure, and leaves each of them with the results
that it had. -/
theorem runFuncs_refines : ∀ (fns : List Func) (m : Manager) (changed : Bool),
    (∀ fn ∈ fns, (fn.Valid ∧ fn.Entered) ∧ fn.Strict) →
      (∃ c, (m.runFuncs changed fns).outcome = .ok c) ∧
        List.Forall₂ (Func.Refines fun _ => False) fns (m.runFuncs changed fns).funcs
  | [], _, changed, _ => ⟨⟨changed, rfl⟩, .nil⟩
  | fn :: fns, m, changed, h => by
    obtain ⟨hv, hs⟩ := h fn (by simp)
    obtain ⟨c, hc, -, -, hrefines⟩ := m.runFunc_keeps
      (Step.invariant_refines m.options.strict fn) ⟨hv, hs, .refl fn⟩
    obtain ⟨hrest, hforall⟩ := runFuncs_refines fns (m.runFunc fn).manager (changed || c)
      fun f hf => h f (List.mem_cons_of_mem fn hf)
    rw [runFuncs, hc]
    exact ⟨hrest, .cons hrefines hforall⟩

end Manager

namespace Optimizer

/-- **An optimised module gives the same results.** Whatever pipeline of passes is run over a module
that was read, with functions in strict form that have no defects: the optimisation succeeds, and a
call of a function that returned results still does, with the same calls on the way and within the
same number of blocks. -/
theorem optimizeModule_keeps_results (hread : Module.parse src serial = .ok m)
    (hv : ∀ fn ∈ m.funcs, fn.defects = [] ∧ fn.Strict) {o : Options}
    (hpipeline : (Pipeline.parse .builtin o.pipeline).isOk) :
    (∃ changed, (optimizeModule .builtin o m).outcome = .ok changed) ∧
      List.Forall₂ (fun fn fn' => ∀ handler limit args trace results,
          Emulator.call fn handler limit args trace = .ok results →
            Emulator.call fn' handler limit args trace = .ok results)
        m.funcs (optimizeModule .builtin o m).module.funcs := by
  cases hparse : Pipeline.parse .builtin o.pipeline with
  | error e =>
    rw [hparse] at hpipeline
    exact absurd hpipeline (by simp [Except.isOk, Except.toBool])
  | ok nodes =>
    obtain ⟨mgr, hmgr⟩ : ∃ mgr, Manager.create .builtin o = .ok mgr := by
      rw [Manager.create, hparse]
      exact ⟨_, rfl⟩
    obtain ⟨⟨c, hc⟩, hforall⟩ := mgr.runFuncs_refines m.funcs false fun fn hfn =>
      ⟨⟨Func.defects_eq_nil_iff.mp (hv fn hfn).1, Source.entered_of_parse hread fn hfn⟩,
        (hv fn hfn).2⟩
    rw [optimizeModule, hmgr]
    refine ⟨⟨c, by simp only [hc]; rfl⟩, hforall.imp fun fn fn' hrefines => ?_⟩
    intro handler limit args trace results hcall
    rw [← hcall]
    exact hrefines handler limit args trace (by rw [hcall]; exact trivial)

/-- A pipeline with a group, over the nested branches. -/
theorem nestedText_keeps_results :
    ∃ fn', (optimizeModule .builtin
        { pipeline := "fixpoint(nested-if-combine,tdce)", verify := true }
        ⟨[nestedBranches]⟩).module.funcs = [fn'] ∧
      Emulator.call fn' Emulator.defaultHandler 3 [1, 0] = .ok ([0], #[]) := by
  obtain ⟨-, hforall⟩ := optimizeModule_keeps_results parse_nestedText
    (fun fn hfn => by
      obtain rfl : fn = nestedBranches := by simpa using hfn
      exact ⟨defects_nestedBranches, strict_nestedBranches⟩)
    (o := { pipeline := "fixpoint(nested-if-combine,tdce)", verify := true }) (by decide +kernel)
  obtain ⟨fn', fns, hkept, hnil, hfuncs⟩ := List.forall₂_cons_left_iff.mp hforall
  rw [List.forall₂_nil_left_iff.mp hnil] at hfuncs
  exact ⟨fn', hfuncs, hkept _ _ _ _ _ (by decide +kernel)⟩

end Optimizer

end BranchFusion
