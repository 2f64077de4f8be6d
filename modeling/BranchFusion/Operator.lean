/-!
# Binary operators

The thirteen operators on 64-bit words. Arithmetic wraps around, comparisons are signed and answer
`1` or `0`, and the conjunction `land` takes any word but zero for true and always reads both sides.
-/

namespace BranchFusion

/-- The binary operators. -/
inductive Operator
  | add | sub | mul | and | or | xor | land | eq | ne | lt | le | gt | ge
deriving DecidableEq, Repr, Inhabited

namespace Operator

/-- All operators; the place of an operator in this list is its number. -/
def all : List Operator :=
  [.add, .sub, .mul, .and, .or, .xor, .land, .eq, .ne, .lt, .le, .gt, .ge]

/-- The word an operator is written with. -/
def name : Operator → String
  | .add => "add"
  | .sub => "sub"
  | .mul => "mul"
  | .and => "and"
  | .or => "or"
  | .xor => "xor"
  | .land => "land"
  | .eq => "eq"
  | .ne => "ne"
  | .lt => "lt"
  | .le => "le"
  | .gt => "gt"
  | .ge => "ge"

/-- The operator written with a word. -/
def ofName? (s : String) : Option Operator :=
  all.find? fun op => op.name = s

/-- The number of an operator. -/
def code (op : Operator) : Nat :=
  all.idxOf op

/-- The operator with a number. -/
def ofCode? (n : Nat) : Option Operator :=
  all[n]?

/-- Truth as a word. -/
def truth (b : Bool) : Int64 := if b then 1 else 0

/-- **What an operator computes.** -/
def eval : Operator → Int64 → Int64 → Int64
  | .add, x, y => x + y
  | .sub, x, y => x - y
  | .mul, x, y => x * y
  | .and, x, y => x &&& y
  | .or, x, y => x ||| y
  | .xor, x, y => x ^^^ y
  | .land, x, y => truth (x != 0 && y != 0)
  | .eq, x, y => truth (x == y)
  | .ne, x, y => truth (x != y)
  | .lt, x, y => truth (decide (x < y))
  | .le, x, y => truth (decide (x ≤ y))
  | .gt, x, y => truth (decide (y < x))
  | .ge, x, y => truth (decide (y ≤ x))

theorem ofName?_name (op : Operator) : ofName? op.name = some op := by
  cases op <;> decide

theorem ofCode?_code (op : Operator) : ofCode? op.code = some op := by
  cases op <;> decide

end Operator

end BranchFusion
