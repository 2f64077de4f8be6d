import BranchFusion.Func

/-!
# Post-order

A walk through the blocks that the entry can reach, one block at a time. The walk keeps the path it
has gone down, and from its end goes on to the first successor it has not seen; a block without
such a successor is done, and leaves the path. So a block is done after everything that it can reach
by unseen blocks, and the entry is done last.

A block counts as seen from the moment it enters the path. Blocks are told apart by their index.
-/

namespace BranchFusion

/-- A walk that is under way: the path from its end back to the entry, and the indices seen. -/
structure Walk where
  path : List BlockId := []
  seen : List Nat := []
deriving DecidableEq, Repr, Inhabited

namespace Walk

/-- The walk at its start. -/
def start (fn : Func) : Walk :=
  match fn.root with
  | some r => ⟨[r], [r.index]⟩
  | none => {}

/-- **One step**: the next block that is done, and the walk that is left. The path grows at most
once for each block, which bounds the search. -/
def next? (fn : Func) : Nat → Walk → Option (BlockId × Walk)
  | 0, _ => none
  | fuel + 1, w =>
    match w.path with
    | [] => none
    | b :: path =>
      match (fn.successors b).find? fun s => !w.seen.contains s.index with
      | some s => next? fn fuel ⟨s :: b :: path, s.index :: w.seen⟩
      | none => some (b, { w with path })

/-- One step, with all the search it may need. -/
def step? (fn : Func) (w : Walk) : Option (BlockId × Walk) :=
  w.next? fn (fn.known + 1)

/-- A number of steps: the block that is done in each, or none once the walk has ended, and the walk
that is left. -/
def steps (fn : Func) : Nat → Walk → List (Option BlockId) × Walk
  | 0, w => ([], w)
  | n + 1, w =>
    match w.step? fn with
    | some (b, w) =>
      let (blocks, w) := steps fn n w
      (some b :: blocks, w)
    | none =>
      let (blocks, w) := steps fn n w
      (none :: blocks, w)

/-- The blocks that are still to come, at most `fuel` of them. -/
def take (fn : Func) : Nat → Walk → List BlockId
  | 0, _ => []
  | fuel + 1, w =>
    match w.step? fn with
    | some (b, w') => b :: take fn fuel w'
    | none => []

/-- The blocks that are still to come. -/
def rest (fn : Func) (w : Walk) : List BlockId :=
  w.take fn (fn.known + 1)

end Walk

/-- **The blocks that the entry can reach, in post-order.** -/
def Func.postOrder (fn : Func) : List BlockId :=
  (Walk.start fn).rest fn

/-- The blocks that the entry can reach, in reverse post-order. -/
def Func.reversePostOrder (fn : Func) : List BlockId :=
  fn.postOrder.reverse

end BranchFusion
