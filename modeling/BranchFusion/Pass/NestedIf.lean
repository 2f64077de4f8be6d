import BranchFusion.Analyses
import BranchFusion.Counters
import BranchFusion.Journal
import BranchFusion.Source.Printer

/-!
# Folding nested branches

Two branches, one on the true side of the other and both with the same false side, become one branch
on the conjunction of their conditions:

```
outer:                        outer:
  br %a, middle, shared         %c = land %a, %b
middle:                  ⟶      br %c, target, shared
  br %b, target, shared
```

The middle block disappears, so nothing else may be in it or lead to it, and the phis of the shared
block must not tell the two false edges apart. The conjunction reads both conditions; in *strict*
mode branches are folded only where the inner condition is already known at the outer branch: it is
a parameter, or is defined in the outer block or in a block that dominates it.

`NestedIf.find` looks for the pattern at one block, `NestedIf.fold` folds it, and `NestedIf.run`
tries every branch of a function once. The branches are collected before the first one is folded;
one whose block is gone when its turn comes is *stale*.
-/

namespace BranchFusion.NestedIf

/-- What strict mode knows about definitions: the dominators before the first fold, and the block of
each definition. -/
structure Availability where
  tree : DominatorTree
  sites : Table Value BlockId
deriving DecidableEq, Repr

/-- Whether a value is known at the end of a block. -/
def Availability.knows (a : Availability) (fn : Func) (b : BlockId) (v : Value) : Bool :=
  fn.isParam v ||
    match a.sites.get? v with
    | some d => d = b || a.tree.dominates d b
    | none => false

/-- Two branches that can be folded. -/
structure Nest where
  middle : BlockId
  /-- The condition of the outer branch. -/
  outer : Value
  /-- The condition of the inner branch. -/
  inner : Value
  /-- Where control goes if both hold. -/
  target : BlockId
  /-- Where control goes otherwise. -/
  shared : BlockId
deriving DecidableEq, Repr

/-- **Looks for nested branches at a block**, or says what speaks against it. -/
def find (fn : Func) (avail : Option Availability) (b : BlockId) : Except Rejection Nest :=
  match (fn.block b).term with
  | some (.branch outer middle onFalse) =>
    let mid := fn.block middle
    if mid.size ≠ 1 then .error .thenNotTrivial
    else match mid.term with
      | some (.branch inner target shared) =>
        if shared ≠ onFalse then .error .elseMismatch
        else if middle = b ∨ target = middle ∨ shared = middle then .error .selfLoop
        else if fn.root = some middle then .error .thenIsEntry
        else if mid.preds ≠ [b] then .error .thenShared
        else if (fn.block shared).phis.any fun p => p.valueFrom b ≠ p.valueFrom middle then
          .error .phiConflict
        else if avail.any fun a => !a.knows fn b inner then .error .predicateUnavailable
        else .ok ⟨middle, outer, inner, target, shared⟩
      | _ => .error .innerNotConditional
  | _ => .error .notConditional

/-- **Folds two branches**: the conjunction and the new branch at the end of the outer block, the
true edge of the inner branch from the outer block, the false edge of the inner branch gone, and the
middle block removed. The value of the conjunction comes back. -/
def fold (fn : Func) (b : BlockId) (n : Nest) : Except Func.Halted (Value × Func) := do
  let (cond, fn) := fn.freshValue "nested.if.combined"
  let fn := fn.modify b fun bb =>
    { bb with
      instrs := bb.instrs ++ [.binary cond .land n.outer n.inner]
      term := some (.branch cond n.target n.shared) }
  let fn ← fn.replacePred n.target n.middle b
  let fn := fn.modify n.target fun bb =>
    { bb with phis := bb.phis.map fun p => p.moveInput n.middle b }
  let fn ← fn.removePred n.shared n.middle
  let fn := fn.modify n.shared fun bb =>
    { bb with phis := bb.phis.map fun p => p.dropInput n.middle }
  let fn := fn.modify n.middle fun bb => { bb with preds := [], term := none }
  let fn ← fn.removeBlock n.middle
  return (cond, fn)

/-- A branch to try: its block, and the branch as it was collected. -/
structure Candidate where
  block : BlockId
  branch : Terminator
deriving DecidableEq, Repr

/-- The branches of a function, in the order of its blocks. -/
def candidates (fn : Func) : List Candidate :=
  fn.ids.filterMap fun b =>
    match (fn.block b).term with
    | some (.branch v t f) => some ⟨b, .branch v t f⟩
    | _ => none

/-- A run that is under way. -/
structure Progress where
  func : Func
  avail : Option Availability
  counters : Counters := {}
  journal : List JournalEntry := []

/-- A run that met a fault. -/
structure Broken where
  fault : Fault
  progress : Progress

/-- Whether a branch is no longer there. -/
def isStale (fn : Func) (c : Candidate) : Bool :=
  (fn.liveAt? c.block.index).isNone || (fn.block c.block).term != some c.branch

/-- Folds the branches found at a block, and takes note of it. -/
def accept (p : Progress) (b : BlockId) (c : Counters) (n : Nest) : Except Broken Progress :=
  let text (t : Option Terminator) : String := (t.map (Terminator.text p.func.label)).getD ""
  let entry : JournalEntry := .nestedIfs p.func.name
    (text (p.func.block b).term) (text (p.func.block n.middle).term)
  let journal := p.journal ++ [entry]
  let counters := { c with combined := c.combined + 1 }
  match fold p.func b n with
  | .error h => .error ⟨h.fault, { p with func := h.func, counters, journal }⟩
  | .ok (cond, fn) =>
    .ok { func := fn, counters, journal
          avail := p.avail.map fun a => { a with sites := a.sites.set cond b } }

/-- Tries a branch. -/
def attempt (p : Progress) (c : Candidate) : Except Broken Progress :=
  if isStale p.func c then
    .ok { p with counters := { p.counters with stale := p.counters.stale + 1 } }
  else
    let counters := { p.counters with visited := p.counters.visited + 1 }
    match find p.func p.avail c.block with
    | .error r => .ok { p with counters := counters.reject r }
    | .ok n => accept p c.block counters n

/-- Tries branches one after the other. -/
def attemptAll : Progress → List Candidate → Except Broken Progress
  | p, [] => .ok p
  | p, c :: cs =>
    match attempt p c with
    | .error e => .error e
    | .ok p => attemptAll p cs

/-- The start of a run. Strict mode asks for the dominators of the function. -/
def start (strict : Bool) (fn : Func) (cache : Option AnalysisCache) :
    Progress × Option AnalysisCache :=
  if strict then
    let (tree, cache) := dominatorsWith fn cache
    ({ func := fn, avail := some ⟨tree, fn.definitions⟩ }, cache)
  else ({ func := fn, avail := none }, cache)

/-- **One run over a function**: how far it came, and the cache. -/
def run (strict : Bool) (fn : Func) (cache : Option AnalysisCache) :
    Except Broken Progress × Option AnalysisCache :=
  let (p, cache) := start strict fn cache
  (attemptAll p (candidates fn), cache)

end BranchFusion.NestedIf
