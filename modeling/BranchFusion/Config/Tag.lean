import BranchFusion.Text.Blank

/-!
# Types of nodes

The type of a node is named by a *tag*. The tags of the types that documents are made of have short
names with two exclamation marks, which stand for long ones.
-/

namespace BranchFusion.Config

/-- The types of nodes. -/
inductive Tag
  | null
  | truth
  | integer
  | real
  | text
  | timestamp
  /-- Bytes, encoded as a text. -/
  | binary
  /-- The key whose value is merged into its mapping. -/
  | merge
  | sequence
  | mapping
  | other (name : String)
deriving DecidableEq, Repr, Inhabited

namespace Tag

/-- The tags with short names. -/
def known : List (String × Tag) :=
  [("!!null", .null), ("!!bool", .truth), ("!!int", .integer), ("!!float", .real),
    ("!!str", .text), ("!!timestamp", .timestamp), ("!!binary", .binary), ("!!merge", .merge),
    ("!!seq", .sequence), ("!!map", .mapping)]

/-- The name of a tag. -/
def name : Tag → String
  | .null => "!!null"
  | .truth => "!!bool"
  | .integer => "!!int"
  | .real => "!!float"
  | .text => "!!str"
  | .timestamp => "!!timestamp"
  | .binary => "!!binary"
  | .merge => "!!merge"
  | .sequence => "!!seq"
  | .mapping => "!!map"
  | .other n => n

/-- What the long names of types begin with. -/
def longFront : String := "tag:yaml.org,2002:"

/-- The short form of a name. -/
def shortName (n : String) : String :=
  if Text.startsWith longFront n then "!!" ++ Text.dropFront longFront n else n

/-- The tag with a name, short or long. -/
def ofName (n : String) : Tag :=
  match known.find? fun e => e.1 = shortName n with
  | some e => e.2
  | none => .other (shortName n)

/-- Whether the characters of a scalar have to be looked at to know what it means. -/
def isResolved : Tag → Bool
  | .null | .truth | .integer | .real | .timestamp => true
  | _ => false

/-- Whether a tag names a type of collections. -/
def isCollection (t : Tag) : Bool := t = .sequence || t = .mapping

theorem ofName_name_of_mem : ∀ e ∈ known, ofName e.2.name = e.2 := by decide

end Tag

end BranchFusion.Config
