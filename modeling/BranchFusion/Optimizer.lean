import BranchFusion.Pipeline.Manager
import BranchFusion.Source.Parser

/-!
# Optimising program text

The whole way from text to text: a program is read, a pipeline runs over its functions, and the
result is printed. An optimisation can fail in the text of the program, in the text of the pipeline,
or when the verifier finds a defect.
-/

namespace BranchFusion

/-- Why an optimisation fails. -/
inductive OptimizeError
  | syntactic (error : Source.Error)
  | pipeline (error : Pipeline.Error)
  | run (failure : RunFailure)

/-- The message of an error. -/
def OptimizeError.message : OptimizeError → String
  | .syntactic e => e.message
  | .pipeline e => e.message
  | .run f => f.message

namespace Optimizer

/-- The result of an optimisation of a module that was run: the module as it was left, and what came
of it. -/
structure ModuleResult where
  module : Module
  counters : Counters := {}
  journal : Array JournalEntry := #[]
  outcome : Except OptimizeError Bool

/-- **Optimises a module.** -/
def optimizeModule (reg : Registry) (o : Options) (m : Module) : ModuleResult :=
  match Manager.create reg o with
  | .error e => { module := m, outcome := .error (.pipeline e) }
  | .ok mgr =>
    let r := mgr.runFuncs false m.funcs
    { module := ⟨r.funcs⟩, counters := r.counters, journal := r.journal
      outcome := r.outcome.mapError .run }

/-- The result of an optimisation of a text: the journal, and the new text with the counters and
whether anything changed. -/
structure TextResult where
  journal : Array JournalEntry := #[]
  outcome : Except OptimizeError (String × Bool × Counters)

/-- **Optimises a program text.** -/
def optimize (reg : Registry) (o : Options) (src : String) : TextResult :=
  match Module.parse src with
  | .error e => { outcome := .error (.syntactic e) }
  | .ok m =>
    let r := optimizeModule reg o m
    { journal := r.journal, outcome := r.outcome.map fun c => (r.module.text, c, r.counters) }

/-- Folds the nested branches of a function once, whatever the pipeline. -/
def combineFunc (o : Options) (fn : Func) : PassRun :=
  Pass.nestedIf.run o.strict fn (some {})

end Optimizer

end BranchFusion
