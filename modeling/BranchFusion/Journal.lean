/-!
# The journal

What happens during a run, for those who want to follow it: every pair of branches that is folded,
every pass that ends, and every group that is still changing when its rounds are used up.
-/

namespace BranchFusion

/-- An entry of the journal. -/
inductive JournalEntry
  /-- Two branches are about to be folded; both are given as written before. -/
  | nestedIfs (func outer inner : String)
  /-- A pass has ended. -/
  | passFinished (pass func : String) (changed : Bool)
  /-- A group has used up its rounds. -/
  | roundLimit (func : String) (rounds : Nat)
deriving DecidableEq, Repr

/-- The message of an entry. -/
def JournalEntry.message : JournalEntry → String
  | .nestedIfs .. => "found nested ifs"
  | .passFinished .. => "pass finished"
  | .roundLimit .. => "fixpoint round limit reached"

end BranchFusion
