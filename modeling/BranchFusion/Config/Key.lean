import BranchFusion.Config.Node
import BranchFusion.Text.Quoted

/-!
# Keys and defects

A configuration is a mapping with four keys, each of which takes a value of one kind. What is wrong
with the values is collected as *defects*, each with a line; they are reported together.
-/

namespace BranchFusion.Config

/-- The keys of a configuration. -/
inductive Key
  | pipeline
  | strict
  | maxRounds
  | verify
deriving DecidableEq, Repr, Inhabited

namespace Key

/-- All keys, in the order in which they are written. -/
def all : List Key := [.pipeline, .strict, .maxRounds, .verify]

/-- The name of a key. -/
def name : Key → String
  | .pipeline => "pipeline"
  | .strict => "strict"
  | .maxRounds => "max_rounds"
  | .verify => "verify"

/-- The key with a name. -/
def ofName? (s : Text.Bytes) : Option Key := all.find? fun k => Text.Bytes.ofString k.name = s

/-- What a key takes. -/
def typeName : Key → String
  | .pipeline => "string"
  | .strict => "bool"
  | .maxRounds => "int"
  | .verify => "bool"

theorem ofName?_name (k : Key) : ofName? k.name = some k := by
  cases k <;> decide

end Key

/-- What the whole document has to be. -/
def documentType : String := "opts.FileConfig"

/-- What is wrong with a value. -/
inductive Defect
  /-- A node is not of the type that is wanted. -/
  | mismatch (line : Nat) (tag : Tag) (text wanted : String)
  | unknownKey (line : Nat) (key : Text.Bytes)
  /-- Two keys of a mapping are the same. -/
  | repeatedKey (line : Nat) (key : String) (first : Nat)
  /-- Two keys of a mapping give the same name, though they are written differently. -/
  | repeatedName (line : Nat) (key : Text.Bytes)
deriving DecidableEq, Repr

/-- The first bytes of a text. A character that is cut in two shows as replacement characters, one
for each byte. -/
def firstBytes : Nat → List Char → List Char
  | _, [] => []
  | n, c :: cs =>
    if c.utf8Size ≤ n then c :: firstBytes (n - c.utf8Size) cs
    else List.replicate n '\ufffd'

/-- A scalar as it is shown: a long one is cut. -/
def shorten (s : String) : String :=
  if 10 < s.utf8ByteSize then String.ofList (firstBytes 7 s.toList) ++ "..." else s

/-- A node as it is shown: its type, and its text unless the type is one of collections. -/
def shown (tag : Tag) (s : String) : String :=
  tag.name ++ (if tag.isCollection then s else " \x60" ++ shorten s ++ "\x60")

/-- The wording of a defect. -/
def Defect.message : Defect → String
  | .mismatch n tag s wanted =>
    "line " ++ toString n ++ ": cannot unmarshal " ++ shown tag s ++ " into " ++ wanted
  | .unknownKey n k =>
    "line " ++ toString n ++ ": field " ++ k.shown ++ " not found in type " ++ documentType
  | .repeatedKey n k m =>
    "line " ++ toString n ++ ": mapping key " ++ Text.quote k ++ " already defined at line " ++
      toString m
  | .repeatedName n k =>
    "line " ++ toString n ++ ": field " ++ k.shown ++ " already set in type " ++ documentType

/-- The defects of keys that are given twice, pair by pair. -/
def repeatedKeys : List Node → List Defect
  | [] => []
  | k :: ks =>
    (ks.filter k.sameKey).map (fun l => .repeatedKey l.line l.text k.line) ++ repeatedKeys ks

/-- The defects of a node of another type than is wanted. Keys given twice go first and alone. -/
def Node.refuse (n : Node) (wanted : String) : List Defect :=
  match n with
  | .scalar line tag s => [.mismatch line tag s wanted]
  | .sequence line tag _ => [.mismatch line tag "" wanted]
  | .mapping line tag entries =>
    match repeatedKeys (entries.map Prod.fst) with
    | [] => [.mismatch line tag "" wanted]
    | ds => ds
  | .alias _ _ _ _ => []

end BranchFusion.Config
