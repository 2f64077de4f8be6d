import BranchFusion.Config.Key
import BranchFusion.Options

/-!
# From documents to settings

The entries of a mapping are gone through in order, and each fills in a setting or adds a defect.
The key `<<` is the exception: its value, a mapping or a sequence of mappings, is *merged* at the
end. Merged entries count only for keys that have not come before; the mapping itself comes first,
and the earlier mappings of a sequence before the later ones.

Some documents are refused at once, whatever defects there are: those with a scalar that is not what
its tag says, those whose merges are no mappings or go round in circles, and large ones in which
nearly everything comes from aliases.
-/

namespace BranchFusion.Config

/-- Why a document is refused at once. -/
inductive Refusal
  | tag (e : TagError)
  /-- What is to be merged is no mapping. -/
  | notMergeable
  /-- The node with an anchor is merged into itself. -/
  | circular (name : String)
  /-- A mapping with a merge has a collection as a key. -/
  | collectionKey (mapping : Bool)
  /-- Too much of the document comes from aliases. -/
  | aliasing
deriving DecidableEq, Repr

/-- The wording of a refusal. -/
def Refusal.message : Refusal → String
  | .tag e => e.message
  | .notMergeable => "map merge requires map or sequence of maps as the value"
  | .circular name => "anchor '" ++ name ++ "' value contains itself"
  | .collectionKey mapping =>
    "runtime error: hash of unhashable type " ++
      (if mapping then "map[string]interface \x7b\x7d" else "[]interface \x7b\x7d")
  | .aliasing => "document contains excessive aliasing"

/-! ### Values -/

/-- The least signed word: `-2 ^ 63`. -/
def leastWord : Int := -(Text.Numeral.signedBound : Int)

/-- A real number as an integer: cut towards zero. A number that no 64-bit word can hold becomes the
least word if it is not greater than `2 ^ 63`, and is refused otherwise. -/
def wordOfReal (negative : Bool) (x : Text.Binary) : Option Int :=
  let n := x.floor
  if negative then some (if n ≤ Text.Numeral.signedBound then -(n : Int) else leastWord)
  else if n < Text.Numeral.signedBound then some n
  else if n = Text.Numeral.signedBound then some leastWord
  else none

/-- The integer that a meaning gives. -/
def Meaning.integer? : Meaning → Option Int
  | .integer n => if n < (Text.Numeral.signedBound : Int) then some n else none
  | .real negative x => wordOfReal negative x
  | .infinite true => some leastWord
  | _ => none

/-- The truth value that a scalar gives. The old words count even in quotes. -/
def Meaning.truth? (m : Meaning) (s : Text.Bytes) : Option Bool :=
  match m with
  | .truth b => some b
  | .text =>
    if s.text?.any (· ∈ oldTrueWords) then some true
    else if s.text?.any (· ∈ oldFalseWords) then some false
    else none
  | _ => none

/-- What a scalar means, and its text. -/
def interpret (tag : Tag) (s : String) : Except Refusal (Meaning × Text.Bytes) :=
  (tag.interpret s).mapError .tag

/-- Sets a key to what a scalar means, if the key takes it. A null leaves the key open. -/
def setKey? (s : Settings) (k : Key) (m : Meaning) (text : Text.Bytes) : Option Settings :=
  if m = .null then some s
  else match k with
    | .pipeline => some { s with pipeline := some text }
    | .strict => (m.truth? text).map fun b => { s with strict := some b }
    | .maxRounds => m.integer?.map fun n => { s with maxRounds := some n }
    | .verify => (m.truth? text).map fun b => { s with verify := some b }

/-! ### Visits

A node is *visited* when its value is looked at, and an alias and the node it stands for are visited
one after the other. A small document with aliases in it can stand for a very large one. -/

/-- The number of visits so far, and of those that an alias has led to. -/
structure Visits where
  total : Nat := 0
  aliased : Nat := 0
deriving DecidableEq, Repr, Inhabited

namespace Visits

/-- The share of the visits that aliases may lead to, in parts of `360000000`: 99 in a hundred for
the first 400000 visits, 10 in a hundred from 4000000 on, and in proportion between. -/
def allowedShare (total : Nat) : Nat :=
  356400000 - 89 * (min (max total 400000) 4000000 - 400000)

/-- Whether aliases have led to too many visits. A small number of visits never is. -/
def excessive (v : Visits) : Bool :=
  100 < v.aliased && 1000 < v.total && allowedShare v.total * v.total < 360000000 * v.aliased

/-- One more visit. -/
def next (v : Visits) (aliased : Bool) : Visits :=
  ⟨v.total + 1, if aliased then v.aliased + 1 else v.aliased⟩

end Visits

/-! ### Mappings -/

/-- The settings so far, with their defects and the visits that were made. -/
structure Filling where
  settings : Settings := {}
  defects : List Defect := []
  visits : Visits := {}
deriving DecidableEq, Repr, Inhabited

namespace Filling

/-- Adds defects. -/
def refuse (f : Filling) (ds : List Defect) : Filling := { f with defects := f.defects ++ ds }

/-- Makes a visit; `aliased` tells whether an alias has led to it. -/
def visit (f : Filling) (aliased : Bool) : Except Refusal Filling :=
  let visits := f.visits.next aliased
  if visits.excessive then .error .aliasing else .ok { f with visits }

/-- Visits a node, and what it stands for if it is an alias. -/
def visitNode (f : Filling) (aliased : Bool) (n : Node) : Except Refusal Filling := do
  let f ← f.visit aliased
  match n with
  | .alias _ _ _ _ => f.visit true
  | _ => return f

/-- Sets a key to the value of a node. A collection that is said to be null is refused as a value
that may be left out. -/
def setKey (doc : Document) (f : Filling) (k : Key) (n : Node) : Except Refusal Filling := do
  match doc.resolve n with
  | .scalar line tag s =>
    let (m, text) ← interpret tag s
    match setKey? f.settings k m text with
    | some settings => return { f with settings }
    | none => return f.refuse ((Node.scalar line tag s).refuse k.typeName)
  | .sequence line tag items =>
    return f.refuse ((Node.sequence line tag items).refuse (wanted tag))
  | .mapping line tag entries =>
    return f.refuse ((Node.mapping line tag entries).refuse (wanted tag))
  | .alias _ _ _ _ => return f
where
  wanted (tag : Tag) : String := if tag = .null then "*" ++ k.typeName else k.typeName

/-- The text of a key, if it has one. A null is passed over, a collection is a defect. -/
def keyText (doc : Document) (f : Filling) (key : Node) :
    Except Refusal (Option Text.Bytes × Filling) := do
  match doc.resolve key with
  | .scalar _ tag s =>
    let (m, text) ← interpret tag s
    return (if m = .null then none else some text, f)
  | n => return (none, f.refuse (n.refuse "string"))

end Filling

/-- How far a mapping has been gone through: the settings, the names that have come before if the
mapping is merged into another, the keys that have been set, and what is to be merged. -/
structure Progress where
  filling : Filling
  seen : Option (List Text.Bytes) := none
  done : List Key := []
  merge : Option Node := none
deriving Repr, Inhabited

namespace Progress

/-- Goes on to an entry whose key has a name. -/
def named (doc : Document) (aliased : Bool) (p : Progress) (line : Nat) (name : Text.Bytes)
    (value : Node) : Except Refusal Progress := do
  if p.seen.any (·.contains name) then return p
  let p := { p with seen := p.seen.map (name :: ·) }
  match Key.ofName? name with
  | none => return { p with filling := p.filling.refuse [.unknownKey line name] }
  | some k =>
    if p.done.contains k then
      return { p with filling := p.filling.refuse [.repeatedName line name] }
    let f ← p.filling.visitNode aliased value
    return { p with filling := ← f.setKey doc k value, done := k :: p.done }

/-- Goes on to an entry; `aliased` tells whether an alias has led to the mapping. -/
def entry (doc : Document) (aliased : Bool) (p : Progress) (e : Node × Node) :
    Except Refusal Progress := do
  if e.1.isMerge then return { p with merge := some e.2 }
  let f ← p.filling.visitNode aliased e.1
  let (name, filling) ← f.keyText doc e.1
  let p := { p with filling }
  match name with
  | none => return p
  | some name => p.named doc aliased e.1.line name e.2

end Progress

/-- The names of the keys of a mapping into which others are merged. A key that is a mapping with
repeated keys is a defect. -/
def keyNames (doc : Document) (aliased : Bool) : Filling → List (Node × Node) →
    Except Refusal (Filling × List Text.Bytes)
  | f, [] => .ok (f, [])
  | f, e :: es => do
    let f ← f.visitNode aliased e.1
    match doc.resolve e.1 with
    | .scalar _ tag s =>
      let (m, text) ← interpret tag s
      let (f, names) ← keyNames doc aliased f es
      return (f, if m = .text then text :: names else names)
    | .mapping _ _ entries =>
      match repeatedKeys (entries.map Prod.fst) with
      | [] => throw (.collectionKey true)
      | ds => keyNames doc aliased (f.refuse ds) es
    | _ => throw (.collectionKey false)

/-- The mapping that is to be merged, and the aliases that have led to it. -/
def mergeable (doc : Document) (f : Filling) (through : List Nat) (n : Node) :
    Except Refusal (Filling × List (Node × Node) × List Nat) := do
  match n, doc.resolve n with
  | .alias _ name number _, .mapping _ _ entries =>
    let f ← f.visit (!through.isEmpty)
    if through.contains number then throw (.circular name)
    return (← f.visit true, entries, number :: through)
  | _, .mapping _ _ entries => return (← f.visit (!through.isEmpty), entries, through)
  | _, _ => throw .notMergeable

mutual

/-- Fills in the entries of a mapping; `through` are the aliases that have led to it, and `seen` the
names that have come before if it is merged into another. -/
def fill (doc : Document) : Nat → (through : List Nat) → Filling →
    (seen : Option (List Text.Bytes)) → List (Node × Node) →
    Except Refusal (Filling × Option (List Text.Bytes))
  | 0, _, _, _, _ => .error .notMergeable
  | fuel + 1, through, f, seen, entries => do
    match repeatedKeys (entries.map Prod.fst) with
    | [] =>
      let aliased := !through.isEmpty
      let p ← entries.foldlM (Progress.entry doc aliased) { filling := f, seen }
      match p.merge with
      | none => return (p.filling, p.seen)
      | some n =>
        let (f, names) ← match p.seen with
          | some names => pure (p.filling, names)
          | none => keyNames doc aliased p.filling entries
        let (f, names) ← merge doc fuel through f names n
        return (f, p.seen.map fun _ => names)
    | ds => return (f.refuse ds, seen)

/-- Merges a mapping, or the mappings of a sequence. -/
def merge (doc : Document) : Nat → (through : List Nat) → Filling → (seen : List Text.Bytes) →
    Node → Except Refusal (Filling × List Text.Bytes)
  | 0, _, _, _, _ => .error .notMergeable
  | fuel + 1, through, f, seen, n =>
    match n with
    | .sequence _ _ items => mergeAll doc fuel through f seen items
    | n => do
      let (f, entries, through) ← mergeable doc f through n
      let (f, names) ← fill doc fuel through f (some seen) entries
      return (f, names.getD seen)

/-- Merges mappings one after the other. -/
def mergeAll (doc : Document) : Nat → (through : List Nat) → Filling → (seen : List Text.Bytes) →
    List Node → Except Refusal (Filling × List Text.Bytes)
  | 0, _, _, _, _ => .error .notMergeable
  | _, _, f, seen, [] => .ok (f, seen)
  | fuel + 1, through, f, seen, n :: ns => do
    let (f, entries, inner) ← mergeable doc f through n
    let (f, names) ← fill doc fuel inner f (some seen) entries
    mergeAll doc fuel through f (names.getD seen) ns

end

/-- **The settings of a document.** The document and its root are visited first. Aliases are
followed once each on a way down, which bounds the depth of merges. -/
def ofDocument (doc : Document) : Except Refusal Filling := do
  match doc.root with
  | .mapping _ _ entries =>
    let start : Filling := { visits := ⟨2, 0⟩ }
    let (f, _) ← fill doc ((doc.aliases + 1) * (doc.depth + 1)) [] start none entries
    return f
  | .scalar line tag s =>
    let (m, _) ← interpret tag s
    return if m = .null then {} else { defects := (Node.scalar line tag s).refuse documentType }
  | n => return { defects := n.refuse documentType }

end BranchFusion.Config
