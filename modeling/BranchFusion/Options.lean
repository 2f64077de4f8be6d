import BranchFusion.Pipeline.Parser

/-!
# Options

What an optimisation is told: the pipeline, whether to be strict, how many rounds a group may run
before it is given up, and whether to verify at the end. `Settings` are options of which some may be
left open; they come from a caller, from a configuration file or from flags, and override a full set
of options.

A caller's settings are checked: the pipeline must be readable and the number of rounds must not be
negative.
-/

namespace BranchFusion

/-- A full set of options. -/
structure Options where
  pipeline : Text.Bytes := "nested-if-combine"
  strict : Bool := false
  /-- The rounds of a group; zero stands for no limit. -/
  maxRounds : Int := 16
  verify : Bool := false
deriving DecidableEq, Repr, Inhabited

/-- Whether a group may start the round with a number, counted from zero. -/
def Options.canRepeat (o : Options) (n : Int) : Bool :=
  o.maxRounds > n || o.maxRounds == 0

/-- Options that may be left open. -/
structure Settings where
  pipeline : Option Text.Bytes := none
  strict : Option Bool := none
  maxRounds : Option Int := none
  verify : Option Bool := none
deriving DecidableEq, Repr, Inhabited

/-- Why a setting is refused. -/
inductive SettingError
  | invalidPipeline (error : Pipeline.Error)
  | invalidMaxRounds (rounds : Int)
deriving DecidableEq, Repr

/-- The wording of a refusal. -/
def SettingError.message : SettingError → String
  | .invalidPipeline e => "nestedifcombine: invalid pipeline: " ++ e.message
  | .invalidMaxRounds n => "nestedifcombine: invalid max rounds: " ++ toString n

namespace Settings

/-- The options that settings override. -/
def apply (s : Settings) (o : Options) : Options :=
  { pipeline := s.pipeline.getD o.pipeline
    strict := s.strict.getD o.strict
    maxRounds := s.maxRounds.getD o.maxRounds
    verify := s.verify.getD o.verify }

/-- The settings that leave nothing open. -/
def ofOptions (o : Options) : Settings :=
  ⟨some o.pipeline, some o.strict, some o.maxRounds, some o.verify⟩

/-- Checks the text of a pipeline. -/
def checkPipeline (reg : Registry) (p : Text.Bytes) : Except SettingError Unit :=
  match Pipeline.parse reg p with
  | .ok _ => .ok ()
  | .error e => .error (.invalidPipeline e)

/-- Checks settings: the pipeline first, then the rounds. -/
def check (reg : Registry) (s : Settings) : Except SettingError Unit := do
  match s.pipeline with
  | some p => checkPipeline reg p
  | none => pure ()
  match s.maxRounds with
  | some n => if n < 0 then throw (.invalidMaxRounds n) else pure ()
  | none => pure ()

/-- **The options of a caller**: the defaults, overridden by settings that pass the check. -/
def options (reg : Registry) (defaults : Options) (s : Settings) : Except SettingError Options := do
  s.check reg
  return s.apply defaults

end Settings

/-! ### Changing the defaults

The pipeline is checked when it is set; the number of rounds is not. -/

namespace Options

/-- Sets the default number of rounds. -/
def setMaxRounds (o : Options) (n : Int) : Options := { o with maxRounds := n }

/-- Sets the default strictness. -/
def setStrict (o : Options) (b : Bool) : Options := { o with strict := b }

/-- Sets the default pipeline. -/
def setPipeline (reg : Registry) (o : Options) (p : Text.Bytes) :
    Except SettingError Options := do
  Settings.checkPipeline reg p
  return { o with pipeline := p }

end Options

end BranchFusion
