import BranchFusion.Pipeline.Node
import BranchFusion.Pipeline.Registry
import BranchFusion.Text.Bytes
import BranchFusion.Text.Numeral

/-!
# Reading pipelines

The text of a pipeline is a list of items with commas between them. An item is the name of a pass,
`repeat<n>(…)` or `fixpoint(…)`, where the dots are again such a list. Blanks, tabs and line ends
may stand between words and signs. A word is as long as it can be: `repeat` and `fixpoint` are
always taken for groups, and every other word must be a name that the registry knows.

The text is read byte by byte, and errors give the number of bytes in front of the place where
reading failed; a byte is shown as the character with its code.
-/

namespace BranchFusion.Pipeline

/-- Why a text is not a pipeline. -/
inductive Refusal
  /-- Something follows the pipeline. -/
  | unexpected (c : Char)
  /-- A sign is missing; what stands there instead, if anything. -/
  | expected (sign : Char) (got : Option Char)
  /-- A word is missing; what stands there instead, if anything. -/
  | expectedName (got : Option Char)
  | unknownPass (name : String)
  | invalidCount (word : String)
  | emptyGroup
deriving DecidableEq, Repr

/-- What stands at a place, in words. -/
def gotText : Option Char → String
  | some c => Text.quoteChar c
  | none => "end of pipeline"

/-- The wording of a refusal. -/
def Refusal.message : Refusal → String
  | .unexpected c => "unexpected character " ++ Text.quoteChar c
  | .expected sign got => "expected " ++ Text.quoteChar sign ++ ", got " ++ gotText got
  | .expectedName got => "expected pass name, got " ++ gotText got
  | .unknownPass n => "unknown pass " ++ Text.quote n
  | .invalidCount w => "invalid repeat count " ++ Text.quote w
  | .emptyGroup => "empty pass group"

/-- A refusal and the number of bytes in front of it. -/
structure Failure where
  pos : Nat
  reason : Refusal
deriving DecidableEq, Repr

/-- A place in a text: what was read, counted, and what is left. -/
structure Cursor where
  pos : Nat
  rest : List Char
deriving DecidableEq, Repr, Inhabited

namespace Cursor

/-- What may stand between words and signs. -/
def isGap (c : Char) : Bool := c == ' ' || c == '\t' || c == '\r' || c == '\n'

/-- Reads the characters that satisfy a predicate. -/
def span (p : Char → Bool) (c : Cursor) : List Char × Cursor :=
  let taken := c.rest.takeWhile p
  (taken, ⟨c.pos + taken.length, c.rest.dropWhile p⟩)

/-- Reads what may stand between words and signs. -/
def skip (c : Cursor) : Cursor := (c.span isGap).2

/-- Gives up at a place. -/
def fail {α : Type} (c : Cursor) (reason : Refusal) : Except Failure α :=
  .error ⟨c.pos, reason⟩

/-- Reads a sign, if it comes next. -/
def eat? (c : Cursor) (sign : Char) : Option Cursor :=
  match c.skip.rest with
  | d :: rest => if d = sign then some ⟨c.skip.pos + 1, rest⟩ else none
  | [] => none

/-- Reads a sign that has to come next. -/
def expect (c : Cursor) (sign : Char) : Except Failure Cursor :=
  match c.eat? sign with
  | some c => .ok c
  | none => c.skip.fail (.expected sign c.skip.rest.head?)

/-- Reads a word, which may be empty. -/
def word (c : Cursor) : String × Cursor :=
  let (w, c) := c.skip.span Registry.isNameChar
  (String.ofList w, c)

end Cursor

/-- The number that a word denotes as the count of a group: from one to `2 ^ 63 - 1`, in decimal. -/
def count? (w : String) : Option Nat :=
  match Text.Numeral.readDecimal w.toList with
  | .ok n => if 0 < n ∧ n < Text.Numeral.signedBound then some n else none
  | .error _ => none

mutual

/-- Reads an item. -/
def item (reg : Registry) : Nat → Cursor → Except Failure (Node × Cursor)
  | 0, c => c.fail (.expectedName none)
  | fuel + 1, c =>
    let (w, after) := c.word
    if w = "" then after.fail (.expectedName after.rest.head?)
    else if w = "repeat" then do
      let c ← after.expect '<'
      let (num, c') := c.word
      match count? num with
      | none => c.skip.fail (.invalidCount num)
      | some n => do
        let c ← c'.expect '>'
        let (nodes, c) ← body reg fuel c
        return (.times n nodes, c)
    else if w = "fixpoint" then do
      let (nodes, c) ← body reg fuel after
      return (.fixpoint nodes, c)
    else if reg.knows w then .ok (.pass w, after)
    else c.skip.fail (.unknownPass w)

/-- Reads the body of a group, which must not be empty. -/
def body (reg : Registry) : Nat → Cursor → Except Failure (List Node × Cursor)
  | 0, c => c.fail (.expectedName none)
  | fuel + 1, c => do
    let c ← c.expect '('
    match c.eat? ')' with
    | some c => c.fail .emptyGroup
    | none => do
      let (nodes, c) ← list reg fuel c
      let c ← c.expect ')'
      return (nodes, c)

/-- Reads items with commas between them. -/
def list (reg : Registry) : Nat → Cursor → Except Failure (List Node × Cursor)
  | 0, c => c.fail (.expectedName none)
  | fuel + 1, c => do
    let (n, c) ← item reg fuel c
    match c.eat? ',' with
    | none => return ([n], c.skip)
    | some c => do
      let (ns, c) ← list reg fuel c
      return (n :: ns, c)

end

/-- **Reads a pipeline** from the bytes of its text. Every call of a reader is made for a character
that no earlier call of that reader was made for, which bounds their number. -/
def read (reg : Registry) (src : List Char) : Except Failure (List Node) := do
  let (nodes, c) ← list reg (3 * src.length + 3) ⟨0, src⟩
  match c.skip.rest with
  | [] => return nodes
  | d :: _ => c.skip.fail (.unexpected d)

/-- An error in the text of a pipeline. -/
structure Error where
  pos : Nat
  src : Text.Bytes
  reason : Refusal
deriving DecidableEq, Repr

/-- The message of an error. -/
def Error.message (e : Error) : String :=
  "Pipeline error at position " ++ toString e.pos ++ ": " ++ e.reason.message

/-- **Reads a pipeline.** -/
def parse (reg : Registry) (src : Text.Bytes) : Except Error (List Node) :=
  match read reg src.chars with
  | .ok nodes => .ok nodes
  | .error e => .error ⟨e.pos, src, e.reason⟩

end BranchFusion.Pipeline
