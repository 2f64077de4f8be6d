import BranchFusion.Instr
import BranchFusion.Terminator

/-!
# Basic blocks

A block holds its phis, its instructions and its terminator, and the list of its predecessors with
one entry for each edge that leads to it. A block that was removed from its function keeps its
place, so that its number is never used again, and is marked as no longer `live`.
-/

namespace BranchFusion

/-- A basic block. -/
structure Block (α : Type := Value) where
  /-- The label; an empty label is replaced by one made from the number of the block. -/
  label : String
  phis : List (Phi α) := []
  instrs : List (Instr α) := []
  /-- One entry for each incoming edge. -/
  preds : List BlockId := []
  term : Option (Terminator α) := none
  /-- Whether the block still belongs to its function. -/
  live : Bool := true
deriving DecidableEq, Repr, Inhabited

namespace Block

variable {α : Type}

/-- The number of instructions, with the phis and the terminator. -/
def size (b : Block α) : Nat :=
  b.phis.length + b.instrs.length + (if b.term.isSome then 1 else 0)

/-- The edges out of a block; none if it is not terminated. -/
def edges (b : Block α) : List (Terminator.Reason × BlockId) :=
  match b.term with
  | some t => t.edges
  | none => []

/-- The blocks where control may go, once for each edge. -/
def successors (b : Block α) : List BlockId :=
  b.edges.map Prod.snd

/-- Adds an instruction at the end. -/
def append (b : Block α) (i : Instr α) : Block α :=
  { b with instrs := b.instrs ++ [i] }

/-- The values defined by the phis and instructions, in order. -/
def definitions (b : Block) : List Value :=
  b.phis.map Phi.result ++ b.instrs.filterMap Instr.result?

/-- What the phis and instructions define, by reference, in order. -/
def defined [Reference α] (b : Block α) : List (Option Value) :=
  b.phis.map (fun p => Reference.value? p.result) ++ b.instrs.flatMap Instr.defined

/-- The values used by the phis, the instructions and the terminator, in order. -/
def uses [Reference α] (b : Block α) : List (Option Value) :=
  b.phis.flatMap Phi.operands ++ b.instrs.flatMap (fun i => i.operands.map Reference.value?) ++
    (match b.term with
      | some t => t.operands.map Reference.value?
      | none => [])

end Block

/-- Replaces the first entry that equals `old`; none if there is no such entry. -/
def replaceFirst {α : Type} [DecidableEq α] (old new : α) : List α → Option (List α)
  | [] => none
  | x :: xs => if x = old then some (new :: xs) else (replaceFirst old new xs).map (x :: ·)

/-- Removes the first entry that equals `old`; none if there is no such entry. -/
def removeFirst {α : Type} [DecidableEq α] (old : α) : List α → Option (List α)
  | [] => none
  | x :: xs => if x = old then some xs else (removeFirst old xs).map (x :: ·)

end BranchFusion
