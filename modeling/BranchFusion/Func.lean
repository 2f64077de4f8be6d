import BranchFusion.Block
import BranchFusion.Fault
import BranchFusion.Text.Blank

/-!
# Functions

A function is a value that holds everything its control-flow graph can mention: the blocks it
created, in order and with the removed ones still in place, the table of its values, and – when
functions are edited side by side and one branches into another – the blocks of other functions as
*guests*. All look-ups go through `Func.block?` and all changes of a block through `Func.modify`;
`Func.block?_modify` says what one does to the other.

A block is *live* in a function when the function created it and has not removed it. `Func.ids`
lists the live blocks in the order of their creation.
-/

namespace BranchFusion

/-- A function. It refers to values as such, or in another way if some of them may be missing. -/
structure Func (α : Type := Value) where
  /-- Distinguishes functions; blocks and values carry the serial number of their function. -/
  serial : Nat
  name : String
  /-- The entry block; the first block created becomes the entry. -/
  root : Option BlockId := none
  params : List α := []
  /-- The blocks the function created, by their index; removed blocks keep their place. -/
  blocks : Array (Block α) := #[]
  /-- Blocks of other functions that this one may refer to. -/
  guests : Table BlockId (Block α) := []
  /-- Every value ever named; the number of a value is its place. -/
  values : Array Value := #[]
deriving DecidableEq, Repr, Inhabited

namespace Func

variable {α : Type}

/-! ### Blocks -/

/-- The contents of a block, own or guest, live or removed. -/
def block? (fn : Func α) (b : BlockId) : Option (Block α) :=
  if b.func = fn.serial then fn.blocks[b.index]? else fn.guests.get? b

/-- Changes the contents of a block. -/
def modify (fn : Func α) (b : BlockId) (f : Block α → Block α) : Func α :=
  if b.func = fn.serial then { fn with blocks := fn.blocks.modify b.index f }
  else { fn with guests := fn.guests.map fun e => if e.1 = b then (e.1, f e.2) else e }

/-- The contents of a block; an unknown block counts as empty. -/
def block (fn : Func α) (b : BlockId) : Block α :=
  (fn.block? b).getD { label := "", live := false }

/-- How a block is written: by its label, or by its number if the label is empty. -/
def label (fn : Func α) (b : BlockId) : String :=
  let l := (fn.block b).label
  if l = "" then "bb_" ++ toString b.index else l

/-- The live block with an index. -/
def liveAt? (fn : Func α) (i : Nat) : Option BlockId :=
  match fn.blocks[i]? with
  | some b => if b.live then some ⟨fn.serial, i⟩ else none
  | none => none

/-- Whether a block belongs to the function: it was created by it and is not removed. -/
def owns (fn : Func α) (b : BlockId) : Bool :=
  fn.liveAt? b.index = some b

/-- **The live blocks**, in the order of their creation. -/
def ids (fn : Func α) : List BlockId :=
  (List.range fn.blocks.size).filterMap fn.liveAt?

/-- The edges out of a block. -/
def edges (fn : Func α) (b : BlockId) : List (Terminator.Reason × BlockId) :=
  (fn.block b).edges

/-- The blocks where control may go from a block, once for each edge. -/
def successors (fn : Func α) (b : BlockId) : List BlockId :=
  (fn.block b).successors

/-- The number of blocks the function knows of, live or not. -/
def known (fn : Func α) : Nat :=
  fn.blocks.size + fn.guests.length

/-- The number of edges between the blocks the function knows of. -/
def edgeCount (fn : Func α) : Nat :=
  fn.blocks.toList.foldr (fun b n => b.successors.length + n) 0 +
    fn.guests.foldr (fun e n => e.2.successors.length + n) 0

/-- **The measure of a function**: the instructions of its live blocks, and one for each block.
Every pass that changes a function makes it smaller. -/
def measure (fn : Func α) : Nat :=
  fn.ids.foldr (fun b n => (fn.block b).size + 1 + n) 0

/-- Creates a block at the end; the first block becomes the entry. -/
def createBlock (fn : Func α) (label : String) : BlockId × Func α :=
  let b : BlockId := ⟨fn.serial, fn.blocks.size⟩
  (b, { fn with root := fn.root.or (some b), blocks := fn.blocks.push { label } })

/-! ### Edits that may fail -/

/-- An edit that met a fault, with the function as the edit left it. -/
structure Halted where
  fault : Fault
  func : Func
deriving DecidableEq, Repr

/-- Removes a block. The edges that lead to it or from it are the caller's business. -/
def removeBlock (fn : Func) (b : BlockId) : Except Halted Func :=
  if fn.root = some b then .error ⟨.removeEntry, fn⟩
  else if fn.owns b then .ok (fn.modify b fun bb => { bb with live := false })
  else .error ⟨.notMember (fn.label b) fn.name, fn⟩

/-- In the predecessors of `b`, replaces one entry for `old` by `new`. -/
def replacePred (fn : Func) (b old new : BlockId) : Except Halted Func :=
  match replaceFirst old new (fn.block b).preds with
  | some ps => .ok (fn.modify b fun bb => { bb with preds := ps })
  | none => .error ⟨.notPredecessor (fn.label old) (fn.label b), fn⟩

/-- From the predecessors of `b`, removes one entry for `old`. -/
def removePred (fn : Func) (b old : BlockId) : Except Halted Func :=
  match removeFirst old (fn.block b).preds with
  | some ps => .ok (fn.modify b fun bb => { bb with preds := ps })
  | none => .error ⟨.notPredecessor (fn.label old) (fn.label b), fn⟩

/-! ### Terminating a block -/

/-- Sets the terminator of a block and nothing else. -/
def setTerm (fn : Func α) (b : BlockId) (t : Option (Terminator α)) : Func α :=
  fn.modify b fun bb => { bb with term := t }

/-- Adds an entry to the predecessors of each target, in order. -/
def addPreds (fn : Func α) (b : BlockId) : List BlockId → Func α
  | [] => fn
  | s :: ss => (fn.modify s fun bb => { bb with preds := bb.preds ++ [b] }).addPreds b ss

/-- **Terminates a block**: its successors learn of their new predecessor, once for each edge. -/
def terminate (fn : Func α) (b : BlockId) (t : Terminator α) : Func α :=
  (fn.addPreds b t.successors).setTerm b (some t)

/-! ### Values -/

/-- The value with a name; a percent sign in front of the name is not part of it. -/
def value? (fn : Func) (name : String) : Option Value :=
  let n := Text.dropFront "%" name
  fn.values.find? fun v => v.name = n

/-- Whether a name is taken. -/
def taken (fn : Func) (name : String) : Bool :=
  fn.values.any fun v => v.name = name

/-- Enters a new value under a name. -/
def define (fn : Func) (name : String) : Value × Func :=
  let v : Value := ⟨fn.serial, fn.values.size, name⟩
  (v, { fn with values := fn.values.push v })

/-- The first of `base ++ i`, `base ++ (i + 1)`, … that is not taken, within `fuel` attempts. -/
def freeSuffix (taken : String → Bool) (base : String) : Nat → Nat → String
  | 0, i => base ++ toString i
  | fuel + 1, i =>
    if taken (base ++ toString i) then freeSuffix taken base fuel (i + 1) else base ++ toString i

/-- **A name that is not taken**: the wanted one if it is free, otherwise the wanted one with the
least positive number after it. The name `v`, which also stands for the empty name, always gets a
number. Among more numbers than there are values one must be free. -/
def freshName (fn : Func) (wanted : String) : String :=
  let base := if wanted = "" then "v" else wanted
  if base ≠ "v" ∧ fn.taken base = false then base
  else freeSuffix fn.taken base fn.values.size 1

/-- Enters a new value under a name that is not taken. -/
def freshValue (fn : Func) (wanted : String) : Value × Func :=
  fn.define (fn.freshName wanted)

/-- Whether a value is a parameter. -/
def isParam (fn : Func) (v : Value) : Bool :=
  fn.params.contains v

/-- The block that defines each value; of two definitions the later counts. Parameters are not
listed. -/
def definitions (fn : Func) : Table Value BlockId :=
  fn.ids.foldl (fun t b => (fn.block b).definitions.foldl (fun t v => t.set v b) t) []

/-! ### Small lemmas -/

theorem block?_modify (fn : Func α) (b c : BlockId) (f : Block α → Block α) :
    (fn.modify b f).block? c = if b = c then (fn.block? b).map f else fn.block? c := by
  by_cases hb : b.func = fn.serial
  · by_cases hc : c.func = fn.serial
    · by_cases h : b = c
      · subst h; simp [modify, block?, hb, Array.getElem?_modify]
      · have hi : b.index ≠ c.index := fun hi => h (by cases b; cases c; simp_all)
        simp [modify, block?, hb, hc, h, Array.getElem?_modify, hi]
    · have h : b ≠ c := fun h => hc (h ▸ hb)
      simp [modify, block?, hb, hc, h]
  · by_cases hc : c.func = fn.serial
    · have h : b ≠ c := fun h => hb (h ▸ hc)
      simp [modify, block?, hb, hc, h]
    · simp only [modify, hb, if_false, block?, hc]
      generalize fn.guests = t
      induction t with
      | nil => by_cases h : b = c <;> simp [Table.get?, h]
      | cons e t ih =>
        obtain ⟨k, x⟩ := e
        by_cases h : b = c
        · subst h
          by_cases hk : k = b
          · simp [Table.get?, hk]
          · simp_all [Table.get?]
        · by_cases hk : k = c
          · have : ¬ k = b := fun h' => h (h'.symm.trans hk)
            simp_all [Table.get?]
          · by_cases hkb : k = b <;> simp_all [Table.get?]

end Func

end BranchFusion
