import BranchFusion.Text.Blank

/-!
# Pipelines

A pipeline is a list of passes and groups; a group runs its body a number of times, or until a round
of it changes nothing. `Pipeline.text` writes a pipeline in its canonical form, without blanks:

```
nested-if-combine,fixpoint(block-merge,tdce),repeat<2>(verify)
```
-/

namespace BranchFusion.Pipeline

/-- A part of a pipeline. -/
inductive Node
  /-- A pass, by name. -/
  | pass (name : String)
  /-- A body that runs a number of times. -/
  | times (count : Nat) (body : List Node)
  /-- A body that runs until a round changes nothing. -/
  | fixpoint (body : List Node)
deriving Repr, Inhabited

mutual

/-- The written form of a part. -/
def Node.text : Node → String
  | .pass name => name
  | .times n body => "repeat<" ++ toString n ++ ">(" ++ text body ++ ")"
  | .fixpoint body => "fixpoint(" ++ text body ++ ")"

/-- **The written form of a pipeline**: its parts, with commas between them. -/
def text : List Node → String
  | [] => ""
  | [n] => n.text
  | n :: m :: ns => n.text ++ "," ++ text (m :: ns)

end

end BranchFusion.Pipeline
