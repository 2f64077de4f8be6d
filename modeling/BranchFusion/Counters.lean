/-!
# Counters of the nested-branch pass

For every run the pass counts the branches it looked at, those it folded, those that an earlier fold
of the run had made stale, and the reasons for which it left the others alone. Counters add up over
runs. They are kept as integers and shown as 64-bit words.
-/

namespace BranchFusion

/-- Why a branch is not folded with the one below it, in the order in which the reasons are tried.
-/
inductive Rejection
  /-- The block does not end in a branch. -/
  | notConditional
  /-- The block on the true side holds more than its terminator. -/
  | thenNotTrivial
  /-- The block on the true side does not end in a branch. -/
  | innerNotConditional
  /-- The two branches have different false sides. -/
  | elseMismatch
  /-- The block on the true side is the block itself, or leads to itself. -/
  | selfLoop
  /-- The block on the true side is the entry. -/
  | thenIsEntry
  /-- The block on the true side can be reached in another way. -/
  | thenShared
  /-- A phi on the false side tells the two false edges apart. -/
  | phiConflict
  /-- The inner condition is not known at the outer branch. -/
  | predicateUnavailable
deriving DecidableEq, Repr, Inhabited

namespace Rejection

/-- All reasons. -/
def all : List Rejection :=
  [.notConditional, .thenNotTrivial, .innerNotConditional, .elseMismatch, .selfLoop, .thenIsEntry,
    .thenShared, .phiConflict, .predicateUnavailable]

/-- The name of a reason. -/
def name : Rejection → String
  | .notConditional => "not-conditional"
  | .thenNotTrivial => "then-not-trivial"
  | .innerNotConditional => "inner-not-conditional"
  | .elseMismatch => "else-mismatch"
  | .selfLoop => "self-loop"
  | .thenIsEntry => "then-is-entry"
  | .thenShared => "then-shared"
  | .phiConflict => "phi-conflict"
  | .predicateUnavailable => "predicate-unavailable"

end Rejection

/-- The counters. -/
structure Counters where
  visited : Int := 0
  combined : Int := 0
  stale : Int := 0
  rejected : Rejection → Int := fun _ => 0

namespace Counters

instance : Inhabited Counters := ⟨{}⟩

/-- Counts a rejection. -/
def reject (c : Counters) (r : Rejection) : Counters :=
  { c with rejected := fun s => if s = r then c.rejected s + 1 else c.rejected s }

/-- The sum of two countings. -/
def add (a b : Counters) : Counters :=
  ⟨a.visited + b.visited, a.combined + b.combined, a.stale + b.stale,
    fun r => a.rejected r + b.rejected r⟩

/-- A count as it is shown: a signed 64-bit word. -/
def shown (n : Int) : Int := (Int64.ofInt n).toInt

/-- The reasons that were counted, with their counts. -/
def reasons (c : Counters) : List (Rejection × Int) :=
  (Rejection.all.map fun r => (r, shown (c.rejected r))).filter fun e => e.2 ≠ 0

end Counters

end BranchFusion
