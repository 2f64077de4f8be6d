import BranchFusion.Operator
import BranchFusion.Table
import BranchFusion.Value

/-!
# Instructions

A block starts with *phis*, which choose a value by the block that control came from, and goes on
with *instructions*: constants, binary expressions and calls. Calls are the only instructions with
an effect that can be seen from outside, and they may have no result.

What an instruction defines and uses is read off by `Instr.result?` and `Instr.operands`, and by
`Instr.defined` where values may be missing.
-/

namespace BranchFusion

/-- A phi: its result, and one input for each block that control may come from, in the order of the
blocks. An input without a value stands for one that was moved from where there was none. -/
structure Phi (α : Type := Value) where
  result : α
  inputs : Table BlockId (Option Value)
deriving DecidableEq, Repr, Inhabited

namespace Phi

variable {α : Type}

/-- The input for control that comes from `b`, if there is one. -/
def input? (p : Phi α) (b : BlockId) : Option (Option Value) :=
  p.inputs.get? b

/-- The value read when control comes from `b`; none if there is no input or it has no value. -/
def valueFrom (p : Phi α) (b : BlockId) : Option Value :=
  (p.input? b).join

/-- Sets the input for control that comes from `b`. -/
def setInput (p : Phi α) (b : BlockId) (v : Option Value) : Phi α :=
  { p with inputs := p.inputs.insert BlockId.precedes b v }

/-- Removes the input for control that comes from `b`. -/
def dropInput (p : Phi α) (b : BlockId) : Phi α :=
  { p with inputs := p.inputs.erase b }

/-- **Redirecting an edge**: what came from `old` now comes from `new`. An input that was missing
becomes an input without a value. -/
def moveInput (p : Phi α) (old new : BlockId) : Phi α :=
  (p.setInput new (p.valueFrom old)).dropInput old

/-- The values a phi uses. -/
def operands (p : Phi α) : List (Option Value) :=
  p.inputs.map Prod.snd

end Phi

/-- The instructions after the phis of a block. -/
inductive Instr (α : Type := Value)
  /-- Defines a constant. -/
  | const (result : α) (word : Int64)
  /-- Applies an operator to two values. -/
  | binary (result : α) (op : Operator) (left right : α)
  /-- Calls a function by name; the result may be dropped. -/
  | call (result : Option Value) (callee : String) (args : List α)
deriving DecidableEq, Repr, Inhabited

namespace Instr

variable {α : Type}

/-- The value that an instruction defines. -/
def result? : Instr → Option Value
  | .const r _ => some r
  | .binary r _ _ _ => some r
  | .call r _ _ => r

/-- What an instruction defines, by reference. A constant or an expression whose result is missing
defines the missing value; a call that drops its result defines nothing. -/
def defined [Reference α] : Instr α → List (Option Value)
  | .const r _ => [Reference.value? r]
  | .binary r _ _ _ => [Reference.value? r]
  | .call r _ _ => r.toList.map some

/-- The values that an instruction uses, in the order in which they are read. -/
def operands : Instr α → List α
  | .const _ _ => []
  | .binary _ _ x y => [x, y]
  | .call _ _ args => args

/-- Whether an instruction does nothing but define its result. -/
def isPure : Instr α → Bool
  | .const .. => true
  | .binary .. => true
  | .call .. => false

end Instr

end BranchFusion
