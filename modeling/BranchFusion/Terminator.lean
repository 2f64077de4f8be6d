import BranchFusion.Table
import BranchFusion.Value

/-!
# Terminators

A block ends in a jump, a two-way branch, a switch or a return. `Terminator.edges` lists where
control may go, each edge with what it is taken for; the cases of a switch come in ascending order
and its default comes last. `Terminator.successors` are the targets of the edges, so a block that
is reached twice is listed twice.
-/

namespace BranchFusion

/-- How a block ends. -/
inductive Terminator (α : Type := Value)
  /-- Goes on in one block. -/
  | jump (target : BlockId)
  /-- Goes on in the first block if the value is not zero, and in the second if it is. -/
  | branch (cond : α) (onTrue onFalse : BlockId)
  /-- Goes on in the block of the case that equals the value, or in the default block. The cases
  are kept in ascending order. -/
  | switch (on : α) (default : BlockId) (cases : Table Int64 BlockId)
  /-- Ends the function with results. -/
  | ret (results : List α)
deriving DecidableEq, Repr, Inhabited

/-- What an edge is taken for. -/
inductive Terminator.Reason
  | always
  | whenTrue
  | whenFalse
  | case (word : Int64)
  | otherwise
deriving DecidableEq, Repr, Inhabited

namespace Terminator

variable {α : Type}

/-- The edges out of a block, in the order of its successors. -/
def edges : Terminator α → List (Reason × BlockId)
  | .jump target => [(.always, target)]
  | .branch _ t f => [(.whenTrue, t), (.whenFalse, f)]
  | .switch _ d cases => cases.map (fun e => (Reason.case e.1, e.2)) ++ [(.otherwise, d)]
  | .ret _ => []

/-- The blocks where control may go, once for each edge. -/
def successors (t : Terminator α) : List BlockId :=
  t.edges.map Prod.snd

/-- The values that a terminator uses. -/
def operands : Terminator α → List α
  | .jump _ => []
  | .branch v _ _ => [v]
  | .switch v _ _ => [v]
  | .ret vs => vs

/-- Leads one edge, given by its place among the successors, to another block. -/
def retarget (t : Terminator α) (place : Nat) (target : BlockId) : Terminator α :=
  match t with
  | .jump old => if place = 0 then .jump target else .jump old
  | .branch v a b =>
    if place = 0 then .branch v target b
    else if place = 1 then .branch v a target
    else .branch v a b
  | .switch v d cases =>
    if place = cases.length then .switch v target cases
    else .switch v d (cases.modify place fun e => (e.1, target))
  | .ret vs => .ret vs

/-- A switch from cases in any order; of two cases for one word the later counts. -/
def ofCases (on : α) (default : BlockId) (cases : List (Int64 × BlockId)) : Terminator α :=
  .switch on default
    (cases.foldl (fun t e => Table.insert (fun a b => decide (a < b)) e.1 e.2 t) [])

end Terminator

end BranchFusion
