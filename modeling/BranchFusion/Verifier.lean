import BranchFusion.Flow.Reach
import BranchFusion.Source.Printer

/-!
# The verifier

The structural invariants of a function, and every way in which a function can break them. The
verifier lists all *defects* it finds, each with the block where it was found:

* the entry is a live block, and every live block is terminated and reached from the entry;
* branches lead to live blocks, and the predecessor lists say so, edge for edge;
* a phi has exactly one input for each predecessor of its block;
* a value is defined once, and is defined if it is used.

If the entry is missing nothing else is looked at. The values of a function may be given by any kind
of references. One that is missing is treated like all others: it is defined where a result or a
parameter is missing, and where it is used it has to be defined.
-/

namespace BranchFusion

/-- A defect of a function. -/
inductive Defect
  /-- There is no entry, or it was removed. -/
  | missingEntry
  /-- The block has no terminator. -/
  | notTerminated (block : BlockId)
  /-- The block branches to a block that does not belong to the function. -/
  | foreignBranch (block target : BlockId)
  /-- The block has another number of edges from `pred` than entries for it. -/
  | edgeCount (block pred : BlockId) (edges entries : Nat)
  /-- The block has entries for a block without an edge to it. -/
  | stalePredecessor (block pred : BlockId) (entries : Nat)
  /-- A phi has an input for a block that is not a predecessor. -/
  | strayInput (block : BlockId) (result : Option Value) (pred : BlockId)
  /-- A phi has no input for a predecessor. -/
  | missingInput (block : BlockId) (result : Option Value) (pred : BlockId)
  /-- The value is defined a second time. -/
  | redefinition (block : BlockId) (value : Option Value)
  /-- The value is used, here for the last time, and nowhere defined. -/
  | undefinedUse (block : BlockId) (value : Option Value)
  /-- The block is not reached from the entry. -/
  | unreachable (block : BlockId)
deriving DecidableEq, Repr

namespace Defect

variable {α : Type}

/-- The block where a defect was found. -/
def block? : Defect → Option BlockId
  | .missingEntry => none
  | .notTerminated b => some b
  | .foreignBranch b _ => some b
  | .edgeCount b _ _ _ => some b
  | .stalePredecessor b _ _ => some b
  | .strayInput b _ _ => some b
  | .missingInput b _ _ => some b
  | .redefinition b _ => some b
  | .undefinedUse b _ => some b
  | .unreachable b => some b

/-- What is wrong, in words. -/
def reason (fn : Func α) : Defect → String
  | .missingEntry => "missing entry block"
  | .notTerminated _ => "block is not terminated"
  | .foreignBranch _ target => "branch to foreign or removed block " ++ fn.label target
  | .edgeCount _ p n m =>
    toString n ++ " edges from " ++ fn.label p ++ ", but " ++ toString m ++ " predecessor entries"
  | .stalePredecessor _ p n =>
    "stale predecessor " ++ fn.label p ++ " (" ++ toString n ++ " entries)"
  | .strayInput _ r p => Value.textOf? r ++ ": " ++ fn.label p ++ " is not a predecessor"
  | .missingInput _ r p => Value.textOf? r ++ ": missing incoming value from " ++ fn.label p
  | .redefinition _ v => "redefinition of " ++ Value.textOf? v
  | .undefinedUse _ v => "use of undefined value " ++ Value.textOf? v
  | .unreachable _ => "unreachable block"

/-- The message of a defect. -/
def message (fn : Func α) (d : Defect) : String :=
  "invalid function @" ++ fn.name ++ ": " ++
    (match d.block? with
      | some b => fn.label b ++ ": "
      | none => "") ++
    d.reason fn

end Defect

namespace Func

variable {α : Type}

/-- Defects of the terminators. -/
def termDefects (fn : Func α) : List Defect :=
  fn.ids.flatMap fun b =>
    if (fn.block b).term.isNone then [.notTerminated b]
    else ((fn.successors b).filter fun s => !fn.owns s).map (.foreignBranch b)

/-- The edges between live blocks, source first. -/
def liveEdges (fn : Func α) : List (BlockId × BlockId) :=
  fn.ids.flatMap fun b => ((fn.successors b).filter fn.owns).map fun s => (b, s)

/-- The entries of the predecessor lists of live blocks, as edges, source first. -/
def predEntries (fn : Func α) : List (BlockId × BlockId) :=
  fn.ids.flatMap fun b => (fn.block b).preds.map fun p => (p, b)

/-- Edges without the right number of entries, and entries without an edge. -/
def edgeDefects (fn : Func α) : List Defect :=
  let edges := fn.liveEdges
  let entries := fn.predEntries
  (edges.eraseDups.filterMap fun e =>
    if entries.count e = edges.count e then none
    else some (.edgeCount e.2 e.1 (edges.count e) (entries.count e))) ++
  (entries.eraseDups.filterMap fun e =>
    if edges.contains e then none else some (.stalePredecessor e.2 e.1 (entries.count e)))

/-- Phis whose inputs are not those of the predecessors. -/
def phiDefects [Reference α] (fn : Func α) : List Defect :=
  fn.ids.flatMap fun b => (fn.block b).phis.flatMap fun p =>
    let result := Reference.value? p.result
    ((p.inputs.keys.filter fun q => !(fn.block b).preds.contains q).map (.strayInput b result)) ++
    (((fn.block b).preds.filter fun q => !p.inputs.has q).map (.missingInput b result))

/-- Definitions of values that are already defined. -/
def repeated : List (Option Value) → List (BlockId × Option Value) → List Defect
  | _, [] => []
  | seen, (b, v) :: rest =>
    if seen.contains v then .redefinition b v :: repeated seen rest
    else repeated (v :: seen) rest

/-- What the live blocks define, each with its block. -/
def definitionSites [Reference α] (fn : Func α) : List (BlockId × Option Value) :=
  fn.ids.flatMap fun b => (fn.block b).defined.map fun v => (b, v)

/-- The parameters, by reference. -/
def paramRefs [Reference α] (fn : Func α) : List (Option Value) :=
  fn.params.map Reference.value?

/-- The values used in live blocks, each with the last block that uses it. -/
def useSites [Reference α] (fn : Func α) : Table (Option Value) BlockId :=
  fn.ids.foldl (fun t b => (fn.block b).uses.foldl (fun t v => t.set v b) t) []

/-- Whether a value is a parameter or is defined in a live block. A missing value is looked up like
any other. -/
def isDefined [Reference α] (fn : Func α) (v : Option Value) : Bool :=
  fn.paramRefs.contains v || (fn.definitionSites.map Prod.snd).contains v

/-- Values that are defined twice, or used and not defined. -/
def valueDefects [Reference α] (fn : Func α) : List Defect :=
  repeated fn.paramRefs fn.definitionSites ++
    (fn.useSites.filter fun e => !fn.isDefined e.1).map fun e => .undefinedUse e.2 e.1

/-- Whether the entry is a live block. -/
def hasEntry (fn : Func α) : Bool :=
  match fn.root with
  | some r => fn.owns r
  | none => false

/-- **All defects of a function.** -/
def defects [Reference α] (fn : Func α) : List Defect :=
  if fn.hasEntry then
    fn.termDefects ++ fn.edgeDefects ++ fn.phiDefects ++ fn.valueDefects ++
      fn.unreachable.map .unreachable
  else [.missingEntry]

/-- The messages of all defects. -/
def defectMessages [Reference α] (fn : Func α) : List String :=
  fn.defects.map (Defect.message fn)

end Func

end BranchFusion
