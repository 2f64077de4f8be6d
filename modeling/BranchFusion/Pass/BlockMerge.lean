import BranchFusion.Func

/-!
# Merging chains of blocks

A block that ends in a jump takes over the block it jumps to, if nothing else leads there: the
instructions of the target follow its own, and its terminator becomes that of the target. The target
must be another block, not the entry, with one predecessor and without phis.

`BlockMerge.target?` says what a block can take over and `BlockMerge.merge` does it. A sweep visits
the blocks in order, and each of them takes over at most one block; sweeps are repeated until one
finds nothing to do. Every merge removes a block, so there are no more sweeps than blocks.
-/

namespace BranchFusion.BlockMerge

/-- The block that a block can take over. -/
def target? (fn : Func) (b : BlockId) : Option BlockId :=
  match (fn.block b).term with
  | some (.jump target) =>
    let bb := fn.block target
    if target ≠ b ∧ fn.root ≠ some target ∧ bb.preds.length = 1 ∧ bb.phis = [] then
      some target
    else none
  | _ => none

/-- The edges from `old` to the given blocks now come from `new`. -/
def redirect (old new : BlockId) : Func → List BlockId → Func
  | fn, [] => fn
  | fn, s :: ss =>
    redirect old new
      (fn.modify s fun bb =>
        { bb with
          preds := bb.preds.map fun p => if p = old then new else p
          phis := bb.phis.map fun p => p.moveInput old new })
      ss

/-- **Merges** the block `to` into the block `b` that jumps to it. -/
def merge (fn : Func) (b target : BlockId) : Except Func.Halted Func :=
  let taken := fn.block target
  let fn := fn.modify b fun bb =>
    { bb with instrs := bb.instrs ++ taken.instrs, term := taken.term }
  let fn := redirect target b fn taken.successors.eraseDups
  let fn := fn.modify target fun bb => { bb with instrs := [], preds := [], term := none }
  fn.removeBlock target

/-- Visits blocks in order; the flag tells whether any of them took over another. -/
def sweep : Func → Bool → List BlockId → Except Func.Halted (Func × Bool)
  | fn, changed, [] => .ok (fn, changed)
  | fn, changed, b :: bs =>
    if (fn.liveAt? b.index).isNone then sweep fn changed bs
    else match target? fn b with
      | none => sweep fn changed bs
      | some target =>
        match merge fn b target with
        | .error h => .error h
        | .ok fn => sweep fn true bs

/-- Sweeps until nothing changes. -/
def sweeps : Nat → Func → Bool → Except Func.Halted (Func × Bool)
  | 0, fn, changed => .ok (fn, changed)
  | fuel + 1, fn, changed =>
    match sweep fn false fn.ids with
    | .error h => .error h
    | .ok (fn, again) => if again then sweeps fuel fn true else .ok (fn, changed)

/-- **One run over a function**, and whether it changed. -/
def run (fn : Func) : Except Func.Halted (Func × Bool) :=
  sweeps (fn.ids.length + 1) fn false

end BranchFusion.BlockMerge
