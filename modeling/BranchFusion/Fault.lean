/-!
# Faults

An edit of a function may be asked for something that makes no sense: to remove the entry block, or
to redirect an edge that is not there. Such a request is a *fault* of the caller, not an error in
the program text, and it is reported by name.
-/

namespace BranchFusion

/-- A request that cannot be met. -/
inductive Fault
  /-- The entry block was to be removed. -/
  | removeEntry
  /-- A block was to be removed from a function that it is not a block of. -/
  | notMember (block func : String)
  /-- An entry of a predecessor list was to be changed, and there is none. -/
  | notPredecessor (block of : String)
  /-- An edge was to be redirected in a block without edges. -/
  | noSuccessors
deriving DecidableEq, Repr

/-- The wording of a fault. -/
def Fault.message : Fault → String
  | .removeEntry => "ssa: cannot remove the entry block"
  | .notMember b f => "ssa: " ++ b ++ " does not belong to function " ++ f
  | .notPredecessor b c => b ++ " is not a predecessor of " ++ c
  | .noSuccessors => "no successors to update"

end BranchFusion
