import BranchFusion.Dominance.Tree
import BranchFusion.Flow.PostOrder

/-!
# Cached analyses

Dominators and post-orders are kept for each function until the function changes. The cache answers
from what it holds, and does not check that it is still true: whoever changes a function has to say
so. Answers from the cache are counted as hits, and computed ones as misses.
-/

namespace BranchFusion

/-- The analyses kept for a function. -/
structure Analyses where
  tree : Option DominatorTree := none
  order : Option (List BlockId) := none
deriving DecidableEq, Repr, Inhabited

/-- The cache: an entry for each function, by serial number. -/
structure AnalysisCache where
  hits : Nat := 0
  misses : Nat := 0
  entries : Table Nat Analyses := []
deriving DecidableEq, Repr, Inhabited

namespace AnalysisCache

/-- What is kept for a function; nothing at first. -/
def entry (c : AnalysisCache) (fn : Func) : Analyses :=
  (c.entries.get? fn.serial).getD {}

/-- Whether there is an entry for a function. -/
def cached (c : AnalysisCache) (fn : Func) : Bool :=
  c.entries.has fn.serial

/-- The dominator tree of a function, from the cache or computed. -/
def dominators (c : AnalysisCache) (fn : Func) : DominatorTree × AnalysisCache :=
  let e := c.entry fn
  match e.tree with
  | some t => (t, { c with hits := c.hits + 1 })
  | none =>
    let t := DominatorTree.build fn
    (t, { c with
      misses := c.misses + 1, entries := c.entries.set fn.serial { e with tree := some t } })

/-- The post-order of a function, from the cache or computed. -/
def postOrder (c : AnalysisCache) (fn : Func) : List BlockId × AnalysisCache :=
  let e := c.entry fn
  match e.order with
  | some o => (o, { c with hits := c.hits + 1 })
  | none =>
    let o := fn.postOrder
    (o, { c with
      misses := c.misses + 1, entries := c.entries.set fn.serial { e with order := some o } })

/-- Forgets a function, if it has changed. -/
def invalidate (c : AnalysisCache) (fn : Func) (changed : Bool) : AnalysisCache :=
  if changed then { c with entries := c.entries.erase fn.serial } else c

end AnalysisCache

/-- The dominator tree of a function, with a cache or without one. -/
def dominatorsWith (fn : Func) : Option AnalysisCache → DominatorTree × Option AnalysisCache
  | none => (DominatorTree.build fn, none)
  | some c => ((c.dominators fn).1, some (c.dominators fn).2)

/-- The post-order of a function, with a cache or without one. -/
def postOrderWith (fn : Func) : Option AnalysisCache → List BlockId × Option AnalysisCache
  | none => (fn.postOrder, none)
  | some c => ((c.postOrder fn).1, some (c.postOrder fn).2)

end BranchFusion
