import BranchFusion.Pass.BlockMerge
import BranchFusion.Pass.DeadCode
import BranchFusion.Pass.NestedIf

/-!
# Passes

A pass transforms one function at a time. Whatever a run does apart from that is in its result: the
counters, the entries for the journal, and the analyses it asked the cache for. A run that meets a
fault stops where it is; the function stays as it was left, and its counters are lost.
-/

namespace BranchFusion

/-- The passes. -/
inductive Pass
  /-- Folds nested branches. -/
  | nestedIf
  /-- Merges chains of blocks. -/
  | blockMerge
  /-- Removes unused definitions. -/
  | deadCode
deriving DecidableEq, Repr, Inhabited

/-- The result of running a pass. -/
structure PassRun where
  func : Func
  cache : Option AnalysisCache
  changed : Bool := false
  counters : Counters := {}
  journal : List JournalEntry := []
  fault : Option Fault := none

namespace Pass

/-- **Runs a pass** over a function, with a cache of analyses or without one. -/
def run (p : Pass) (strict : Bool) (fn : Func) (cache : Option AnalysisCache) : PassRun :=
  match p with
  | .nestedIf =>
    let (result, cache) := NestedIf.run strict fn cache
    match result with
    | .ok p =>
      { func := p.func, cache, changed := p.counters.combined ≠ 0, counters := p.counters
        journal := p.journal }
    | .error e =>
      { func := e.progress.func, cache, journal := e.progress.journal, fault := some e.fault }
  | .blockMerge =>
    match BlockMerge.run fn with
    | .ok (fn, changed) => { func := fn, cache, changed }
    | .error h => { func := h.func, cache, fault := some h.fault }
  | .deadCode =>
    let (fn, changed) := DeadCode.run fn
    { func := fn, cache, changed }

end Pass

end BranchFusion
