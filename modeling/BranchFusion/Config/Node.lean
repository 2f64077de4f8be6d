import BranchFusion.Config.Meaning

/-!
# Nodes

A document is a *node*: a scalar, a sequence, a mapping, or an alias. Aliases stand for nodes with
an anchor, which come before them in the text. As a node may hold an alias for itself, aliases name
such nodes by number; a document comes with the list of them.
-/

namespace BranchFusion.Config

/-- A node, with its type and the number of the line where it begins, counted from one. -/
inductive Node
  | scalar (line : Nat) (tag : Tag) (text : String)
  | sequence (line : Nat) (tag : Tag) (items : List Node)
  | mapping (line : Nat) (tag : Tag) (entries : List (Node × Node))
  /-- An alias: its name, its own number, and the number of the node it stands for. -/
  | alias (line : Nat) (name : String) (number target : Nat)
deriving Repr, Inhabited

namespace Node

/-- The line where a node begins. -/
def line : Node → Nat
  | .scalar n _ _ => n
  | .sequence n _ _ => n
  | .mapping n _ _ => n
  | .alias n _ _ _ => n

/-- The text of a scalar, or the name of an alias. -/
def text : Node → String
  | .scalar _ _ s => s
  | .alias _ s _ _ => s
  | _ => ""

/-- The type of a scalar without a tag. -/
def impliedTag (plain : Bool) (s : String) : Tag :=
  if !plain then .text else if s = "<<" then .merge else (Meaning.ofPlain s).tag

/-- The type that a tag gives, if it gives one. The tag that is a mere exclamation mark does not. -/
def givenTag? (tag : Option String) : Option Tag :=
  (tag.filter (· ≠ "!")).map Tag.ofName

/-- Whether a node is the key whose value is merged into its mapping. -/
def isMerge : Node → Bool
  | .scalar _ tag s => tag = .merge && s = "<<"
  | _ => false

/-- Whether two keys count as the same: they are nodes of one kind, with one text. -/
def sameKey : Node → Node → Bool
  | .scalar _ _ s, .scalar _ _ t => s == t
  | .sequence _ _ _, .sequence _ _ _ => true
  | .mapping _ _ _, .mapping _ _ _ => true
  | .alias _ s _ _, .alias _ t _ _ => s == t
  | _, _ => false

end Node

/-- A document: its root, the nodes that aliases stand for, by number, and bounds on the number of
aliases and on the depth of nodes. -/
structure Document where
  root : Node
  anchored : List (Nat × Node) := []
  aliases : Nat := 0
  depth : Nat := 0
deriving Repr, Inhabited

namespace Document

/-- The node with a number. -/
def node? (d : Document) (number : Nat) : Option Node :=
  (d.anchored.find? fun e => e.1 = number).map Prod.snd

/-- The node that a node stands for: itself, unless it is an alias. -/
def resolve (d : Document) (n : Node) : Node :=
  match n with
  | .alias _ _ _ target => (d.node? target).getD n
  | n => n

end Document

end BranchFusion.Config
