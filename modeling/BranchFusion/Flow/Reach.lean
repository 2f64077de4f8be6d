import BranchFusion.Func

/-!
# Reachability

The live blocks that cannot be reached from the entry by edges between live blocks. The search
spreads from the entry in breadth, and each index enters it at most once.
-/

namespace BranchFusion

/-- Spreads along edges: `work` are the indices whose edges have not been followed, `seen` all
indices met so far. -/
def spread (next : Nat → List Nat) : Nat → List Nat → List Nat → List Nat
  | 0, _, seen => seen
  | _ + 1, [], seen => seen
  | fuel + 1, i :: work, seen =>
    let new := ((next i).filter fun j => !seen.contains j).eraseDups
    spread next fuel (work ++ new) (seen ++ new)

namespace Func

variable {α : Type}

/-- The indices of the live blocks that a live block leads to. -/
def liveSuccessors (fn : Func α) (i : Nat) : List Nat :=
  match fn.liveAt? i with
  | some b => ((fn.successors b).filter fn.owns).map BlockId.index
  | none => []

/-- The indices that the entry reaches by edges between live blocks. -/
def reached (fn : Func α) : List Nat :=
  match fn.root with
  | some r => spread fn.liveSuccessors (fn.blocks.size + 1) [r.index] [r.index]
  | none => []

/-- **The live blocks that the entry does not reach**, in the order of their creation. -/
def unreachable (fn : Func α) : List BlockId :=
  fn.ids.filter fun b => !fn.reached.contains b.index

end Func

end BranchFusion
