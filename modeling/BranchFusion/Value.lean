/-!
# Values and blocks as names

A program in single-assignment form speaks about two kinds of things by name: the *values* that
instructions define and use, and the *blocks* that branches lead to. Both belong to the function
that created them, which is recorded by the serial number of that function, so that the names of
two functions never meet.

Where a value is expected there may be none. What is read, optimised and run has its values in
place, except in phis, and speaks of them by `Value`. A function under construction may have gaps
anywhere, and speaks of them by `Option Value`; it can still be looked at and verified. So the
syntax is the same for any kind of *reference* to values (`BranchFusion.Reference`).
-/

namespace BranchFusion

/-- A value: the serial number of its function, its number within the function, and the name it is
written with. -/
structure Value where
  func : Nat
  id : Nat
  name : String
deriving DecidableEq, Repr, Inhabited

/-- Values are written with a percent sign. -/
def Value.text (v : Value) : String := "%" ++ v.name

/-- A value that may be missing: what a pass leaves behind when it moves an input that was not
there. -/
def Value.textOf? : Option Value → String
  | some v => v.text
  | none => "<nil>"

/-- **A kind of references to values**: what instructions, terminators and parameter lists have in
the places of values. -/
class Reference (α : Type) where
  /-- The value that is referred to, if it is there. -/
  value? : α → Option Value

instance : Reference Value := ⟨some⟩

instance : Reference (Option Value) := ⟨id⟩

@[simp] theorem Reference.value?_value : (value? : Value → Option Value) = some := rfl

/-- A block: the serial number of the function that created it, and its place among the blocks
that function created. -/
structure BlockId where
  func : Nat
  index : Nat
deriving DecidableEq, Repr, Inhabited

/-- Blocks are listed by their place; blocks of two functions by the serial numbers. -/
def BlockId.precedes (a b : BlockId) : Bool :=
  a.index < b.index || (a.index == b.index && a.func < b.func)

end BranchFusion
