import BranchFusion.Config.Property

/-!
# Tokens

What the characters of a document make up. Some tokens are written as signs or scalars; others only
show in the layout: where a block begins, where it ends, and that a scalar is a key.
-/

namespace BranchFusion.Config

/-- The kinds of tokens. -/
inductive TokenKind
  | textStart
  | textEnd
  | directive (d : Directive)
  /-- Three dashes, in front of a document. -/
  | documentStart
  /-- Three dots, after a document. -/
  | documentEnd
  | blockSequence
  | blockMapping
  /-- The end of a sequence or a mapping that the layout shows. -/
  | blockEnd
  | openBracket
  | closeBracket
  | openBrace
  | closeBrace
  | comma
  /-- The dash in front of an item. -/
  | entry
  /-- The sign of a key, or the beginning of a scalar that is one. -/
  | key
  /-- The colon in front of a value. -/
  | value
  | alias (name : String)
  | anchor (name : String)
  | tag (t : WrittenTag)
  | scalar (plain : Bool) (text : String)
deriving DecidableEq, Repr, Inhabited

/-- A token, with the line where it begins. -/
structure Token where
  kind : TokenKind
  line : Nat
deriving DecidableEq, Repr, Inhabited

end BranchFusion.Config
