import BranchFusion.Options
import BranchFusion.Text.Truth

/-!
# Settings from the environment

Defaults can be set by environment variables. A variable that is not set, or is set to the empty
text, leaves the default alone. Numbers are unsigned 64-bit literals that are then taken as signed
words, so a number from `2 ^ 63` on is negative, and too small for every bound that is not.
-/

namespace BranchFusion

namespace Environment

/-- A variable with its content, if it is set. -/
structure Entry where
  key : String
  content : Option String
deriving DecidableEq, Repr, Inhabited

/-- Why a variable cannot be used. -/
inductive Error
  | invalid (key : String)
  | tooSmall (key : String)
deriving DecidableEq, Repr

/-- The wording of an error. -/
def Error.message : Error → String
  | .invalid k => "nestedifcombine: invalid value for " ++ k
  | .tooSmall k => "nestedifcombine: value too small for " ++ k

/-- What is written in a variable; nothing if it is empty. -/
def Entry.given (e : Entry) : Option String :=
  e.content.filter fun s => s ≠ ""

/-- A text. -/
def Entry.text (e : Entry) (default : Text.Bytes) : Text.Bytes :=
  e.given.elim default Text.Bytes.ofString

/-- A number with a lower bound, which the default need not keep. -/
def Entry.number (e : Entry) (default min : Int) : Except Error Int :=
  match e.given with
  | none => .ok default
  | some s =>
    match Text.Numeral.readUnsigned s.toList with
    | .error _ => .error (.invalid e.key)
    | .ok n =>
      let w := (Int64.ofNat n).toInt
      if w < min then .error (.tooSmall e.key) else .ok w

/-- A truth value. -/
def Entry.truth (e : Entry) (default : Bool) : Except Error Bool :=
  match e.given with
  | none => .ok default
  | some s =>
    match Text.readTruth s with
    | .error _ => .error (.invalid e.key)
    | .ok b => .ok b

/-- **The default options**, as the environment has them. -/
def options (lookup : String → Option String) : Except Error Options := do
  let entry (key : String) : Entry := ⟨key, lookup key⟩
  let base : Options := {}
  let maxRounds ← (entry "NESTEDIF_MAX_ROUNDS").number base.maxRounds 0
  let strict ← (entry "NESTEDIF_STRICT").truth base.strict
  return { base with
    pipeline := (entry "NESTEDIF_PIPELINE").text base.pipeline, maxRounds, strict }

end Environment

end BranchFusion
