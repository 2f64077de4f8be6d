import BranchFusion.Config.Document
import BranchFusion.Config.Filling
import BranchFusion.Config.Writer

/-!
# Configuration files

A configuration file holds settings: a mapping with the keys `pipeline`, `strict`, `max_rounds` and
`verify`, each of which may be left out or left empty. Other keys are refused, and so are values of
the wrong kind; all that is wrong with the values is reported at once. The number of rounds must not
be negative.

Settings are written in the same form, with the keys in this order.
-/

namespace BranchFusion.Config

/-- Why a configuration is refused. -/
inductive Error
  | malformed (error : SyntaxError)
  | refused (reason : Refusal)
  | defects (ds : List Defect)
  | negativeRounds (rounds : Int)
deriving DecidableEq, Repr

/-- The wording of an error. -/
def Error.message : Error → String
  | .malformed e => e.message
  | .refused r => "yaml: " ++ r.message
  | .defects ds => "yaml: unmarshal errors:\n  " ++ Text.join "\n  " (ds.map Defect.message)
  | .negativeRounds n => "invalid max_rounds: " ++ toString n

/-- What makes settings of the text of a configuration. -/
abbrev Decoder := String → Except Error Settings

/-- The settings of a document, if it is without defects. -/
def settingsOf (doc : Document) : Except Error Settings := do
  let f ← (ofDocument doc).mapError .refused
  if !f.defects.isEmpty then throw (.defects f.defects)
  return f.settings

/-- The settings that a text holds, whatever they are. -/
def decode : Decoder := fun src => do
  match ← (Document.ofText src).mapError .malformed with
  | none => return {}
  | some doc => settingsOf doc

/-- Reads a configuration in a form that a decoder understands. -/
def parseWith (decode : Decoder) (src : String) : Except Error Settings := do
  let s ← decode src
  match s.maxRounds with
  | some r => if r < 0 then throw (.negativeRounds r)
  | none => pure ()
  return s

/-- **Reads a configuration.** -/
def parse (src : String) : Except Error Settings :=
  parseWith decode src

/-! ### Writing -/

/-- The written value of a key, if it is set. -/
def written? (s : Settings) : Key → Option String
  | .pipeline => s.pipeline.map Writer.written
  | .strict => s.strict.map toString
  | .maxRounds => s.maxRounds.map toString
  | .verify => s.verify.map toString

/-- The keys that are set. -/
def keysOf (s : Settings) : List Key :=
  Key.all.filter fun k => (written? s k).isSome

/-- **Writes a configuration.** -/
def render (s : Settings) : String :=
  match Key.all.filterMap fun k => (written? s k).map fun v => k.name ++ ": " ++ v with
  | [] => "\x7b\x7d\n"
  | ls => Text.join "" (ls.map Writer.endLine)

end BranchFusion.Config
