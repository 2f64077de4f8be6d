import BranchFusion.Func

/-!
# Removing unused definitions

A phi, a constant or a binary expression whose result nothing uses is removed; calls and terminators
are kept. A removal may leave other results unused, so rounds are repeated until one removes
nothing. In each round all uses are collected first, so definitions that use each other in a circle
stay.
-/

namespace BranchFusion.DeadCode

/-- The values used in live blocks. -/
def used (fn : Func) : List (Option Value) :=
  fn.ids.flatMap fun b => (fn.block b).uses

/-- Whether a phi is kept. -/
def keepsPhi (uses : List (Option Value)) (p : Phi) : Bool :=
  uses.contains (some p.result)

/-- Whether an instruction is kept: it has an effect, or its result is used. -/
def keepsInstr (uses : List (Option Value)) (i : Instr) : Bool :=
  !i.isPure || match i.result? with
    | some r => uses.contains (some r)
    | none => true

/-- A block without its unused definitions. -/
def prune (uses : List (Option Value)) (b : Block) : Block :=
  { b with
    phis := b.phis.filter (keepsPhi uses)
    instrs := b.instrs.filter (keepsInstr uses) }

/-- **One round**: all live blocks without the definitions that are unused now. -/
def round (fn : Func) : Func :=
  let uses := used fn
  { fn with blocks := fn.blocks.map fun b => if b.live then prune uses b else b }

/-- Rounds until nothing is removed; the flag tells whether anything was. Every other round makes
the function smaller. -/
def rounds : Nat → Func → Bool → Func × Bool
  | 0, fn, changed => (fn, changed)
  | fuel + 1, fn, changed =>
    if (round fn).measure < fn.measure then rounds fuel (round fn) true else (fn, changed)

/-- **One run over a function**, and whether it changed. -/
def run (fn : Func) : Func × Bool :=
  rounds (fn.measure + 1) fn false

end BranchFusion.DeadCode
