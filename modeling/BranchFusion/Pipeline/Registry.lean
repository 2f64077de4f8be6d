import BranchFusion.Pass.Basic
import BranchFusion.Text.Quoted

/-!
# The registry of passes

Passes are known to pipelines by name. Three are there from the start, and more can be registered
under names of letters, digits, dashes and underscores that are not taken. The verifier, which is no
pass, is always there and keeps its name to itself.
-/

namespace BranchFusion

/-- The passes by name. -/
structure Registry where
  passes : Table String Pass
deriving DecidableEq, Repr

namespace Registry

/-- The name of the verifier. -/
def verifierName : String := "verify"

/-- The registry at the start. -/
def builtin : Registry :=
  ⟨[("nested-if-combine", .nestedIf), ("block-merge", .blockMerge), ("tdce", .deadCode)]⟩

instance : Inhabited Registry := ⟨builtin⟩

/-- The pass with a name. -/
def find? (r : Registry) (name : String) : Option Pass := r.passes.get? name

/-- Whether a pipeline may mention a name. -/
def knows (r : Registry) (name : String) : Bool :=
  (r.find? name).isSome || name = verifierName

/-- The characters of names. -/
def isNameChar (c : Char) : Bool :=
  c == '-' || c == '_' || ('a' ≤ c && c ≤ 'z') || ('A' ≤ c && c ≤ 'Z') || ('0' ≤ c && c ≤ '9')

/-- Whether a text can be the name of a pass. -/
def isName (s : String) : Bool :=
  !s.isEmpty && s.toList.all isNameChar

/-- Why a pass cannot be registered. -/
inductive Refusal
  | taken (name : String)
  | invalidName (name : String)
deriving DecidableEq, Repr

/-- The wording of a refusal. -/
def Refusal.message : Refusal → String
  | .taken n => "pipeline: pass " ++ Text.quote n ++ " already registered"
  | .invalidName n => "pipeline: invalid pass name " ++ Text.quote n

/-- **Registers a pass** under a name. -/
def register (r : Registry) (name : String) (p : Pass) : Except Refusal Registry :=
  if r.knows name then .error (.taken name)
  else if isName name then .ok ⟨r.passes.set name p⟩
  else .error (.invalidName name)

/-- All names that a pipeline may mention, in alphabetical order. -/
def names (r : Registry) : List String :=
  (r.passes.keys ++ [verifierName]).mergeSort fun a b => decide (a ≤ b)

end Registry

end BranchFusion
