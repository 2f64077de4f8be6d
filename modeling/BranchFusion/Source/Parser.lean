import BranchFusion.Source.Error
import BranchFusion.Text.Numeral

/-!
# Reading program text

A text is read line by line; a comment runs from a semicolon to the end of its line, and lines that
are then blank do not count. A function starts with its header and ends at a line that holds a
closing brace only. Within a function, a line that ends in a colon is a label and starts a block,
and every other line is an instruction of the block it stands in.

A function is built in two passes: the first creates all blocks, so that branches may lead forward,
and the second reads the instructions of one block after the other. A value is entered when it is
first mentioned, and must be defined once, before or after.

The words of a line are separated by blanks, commas, parentheses and square brackets; which of
these separate two words makes no difference.
-/

namespace BranchFusion.Source

/-! ### Lines and words -/

/-- A line without its comment and outer blanks. -/
def strip (cs : List Char) : List Char :=
  Text.trim (cs.takeWhile (· ≠ ';'))

/-- Numbers lines upwards from `n`, and leaves out those that are blank. -/
def numbered : Nat → List (List Char) → List Line
  | _, [] => []
  | n, l :: ls =>
    if (strip l).isEmpty then numbered (n + 1) ls
    else ⟨n, String.ofList (strip l)⟩ :: numbered (n + 1) ls

/-- The lines of a text that hold something. -/
def readLines (src : String) : List Line :=
  numbered 1 (Text.lines src.toList)

/-- What separates words: blanks, commas, parentheses and square brackets. -/
def isSeparator (c : Char) : Bool :=
  Text.isBlank c || c == ',' || c == '(' || c == ')' || c == '[' || c == ']'

/-- The words of a line. -/
def words (s : String) : List String :=
  (Text.fields isSeparator s.toList).map String.ofList

/-- The name in a word that starts with a given sign; none if the word has no sign or no name. -/
def nameAfter? (sign : Char) (word : String) : Option String :=
  match word.toList with
  | c :: d :: cs => if c = sign then some (String.ofList (d :: cs)) else none
  | _ => none

/-- A label is not empty and holds no blank and none of the signs that have a meaning. -/
def isLabel (cs : List Char) : Bool :=
  !cs.isEmpty && cs.all fun c =>
    !Text.isBlank c && c != '%' && c != '@' && c != ',' && c != '(' && c != ')' &&
      c != '[' && c != ']' && c != '\x7b' && c != '\x7d' && c != ':'

/-! ### The state of a reader -/

/-- A function that is being read: what has been built, which values are defined, and where each
value was first mentioned. -/
structure Draft where
  func : Func
  defined : List Value := []
  mentions : List (Value × Line) := []
deriving Inhabited

/-- Reading a part of a function. -/
abbrev Read (α : Type) := StateT Draft (Except Error) α

/-- Gives up, at a line. -/
def refuse {α : Type} (line : Line) (reason : Refusal) : Read α :=
  throw ⟨line, reason⟩

/-- Reads a value; a value that is not known yet is entered. -/
def readValue (line : Line) (word : String) : Read Value := do
  match nameAfter? '%' word with
  | none => refuse line (.invalidValue word)
  | some name =>
    let d ← get
    match d.func.value? word with
    | some v => return v
    | none =>
      let (v, fn) := d.func.define name
      set { d with func := fn, mentions := d.mentions ++ [(v, line)] }
      return v

/-- Reads values. -/
def readValues (line : Line) : List String → Read (List Value)
  | [] => return []
  | w :: ws => do
    let v ← readValue line w
    return v :: (← readValues line ws)

/-- Reads a value and marks it as defined; a second definition is refused. -/
def readDefinition (line : Line) (word : String) : Read Value := do
  let v ← readValue line word
  let d ← get
  if d.defined.contains v then refuse line (.redefinition word)
  else
    set { d with defined := v :: d.defined }
    return v

/-- Reads the label of a block of this function. -/
def readLabel (line : Line) (word : String) : Read BlockId := do
  let fn := (← get).func
  match fn.ids.find? fun b => (fn.block b).label = word with
  | some b => return b
  | none => refuse line (.undefinedLabel word)

/-- Changes the function that is being built. -/
def edit (f : Func → Func) : Read Unit :=
  modify fun d => { d with func := f d.func }

/-! ### Instructions -/

/-- Reads an integer. -/
def readInteger (line : Line) (word : String) : Read Int64 :=
  match Text.Numeral.readWord word with
  | .ok w => return w
  | .error _ => refuse line (.invalidInteger word)

/-- Adds an instruction to a block. -/
def emit (b : BlockId) (i : Instr) : Read Unit :=
  edit fun fn => fn.modify b (·.append i)

/-- Terminates a block. -/
def finish (b : BlockId) (t : Terminator) : Read Unit :=
  edit fun fn => fn.terminate b t

/-- Reads the inputs of a phi onto those read so far. -/
def readInputs (line : Line) : Phi → List String → Read Phi
  | p, v :: l :: ws => do
    let value ← readValue line v
    let b ← readLabel line l
    if p.inputs.has b then refuse line (.duplicatedIncoming ((← get).func.label b))
    else readInputs line (p.setInput b (some value)) ws
  | p, _ => return p

/-- Reads the cases of a switch onto those read so far. -/
def readCases (line : Line) : Table Int64 BlockId → List String → Read (Table Int64 BlockId)
  | t, k :: l :: ws => do
    let word ← readInteger line k
    let b ← readLabel line l
    if t.has word then refuse line (.duplicatedCase word)
    else readCases line (t.insert (fun x y => decide (x < y)) word b) ws
  | t, _ => return t

/-- Reads the operand of a constant. -/
def readConst (line : Line) (b : BlockId) (r : Value) : List String → Read Unit
  | [w] => do emit b (.const r (← readInteger line w))
  | _ => refuse line .constOperands

/-- Reads the operator and the operands of a binary expression. -/
def readBinary (line : Line) (b : BlockId) (r : Value) (op : String) (ws : List String) :
    Read Unit :=
  match Operator.ofName? op with
  | none => refuse line (.unknownOperator op)
  | some o =>
    match ws with
    | [x, y] => do
      let vx ← readValue line x
      let vy ← readValue line y
      emit b (.binary r o vx vy)
    | _ => refuse line (.binaryOperands op)

/-- Reads the inputs of a phi, which must stand in front of the other instructions. -/
def readPhi (line : Line) (b : BlockId) (r : Value) (ws : List String) : Read Unit := do
  if (((← get).func.block b).instrs).isEmpty then
    if ws.isEmpty || ws.length % 2 != 0 then refuse line .phiPairs
    else
      let p ← readInputs line ⟨r, []⟩ ws
      edit fun fn => fn.modify b fun bb => { bb with phis := bb.phis ++ [p] }
  else refuse line .phiAfterInstructions

/-- Reads the callee and the arguments of a call. -/
def readCall (line : Line) (b : BlockId) (r : Option Value) : List String → Read Unit
  | f :: args =>
    match nameAfter? '@' f with
    | some name => do emit b (.call r name (← readValues line args))
    | none => refuse line .callName
  | [] => refuse line .callName

/-- Reads the target of a jump. -/
def readJump (line : Line) (b : BlockId) : List String → Read Unit
  | [l] => do finish b (.jump (← readLabel line l))
  | _ => refuse line .jumpOperands

/-- Reads the condition and the targets of a branch. -/
def readBranch (line : Line) (b : BlockId) : List String → Read Unit
  | [v, t, f] => do
    let value ← readValue line v
    let onTrue ← readLabel line t
    let onFalse ← readLabel line f
    finish b (.branch value onTrue onFalse)
  | _ => refuse line .branchOperands

/-- Reads the selector, the default and the cases of a switch. -/
def readSwitch (line : Line) (b : BlockId) : List String → Read Unit
  | v :: d :: ws => do
    if ws.length % 2 != 0 then refuse line .switchOperands
    else
      let value ← readValue line v
      let default ← readLabel line d
      let cases ← readCases line [] ws
      finish b (.switch value default cases)
  | _ => refuse line .switchOperands

/-- Reads what follows the result of an instruction. -/
def readOperation (line : Line) (b : BlockId) (r : Value) (op : String) (ws : List String) :
    Read Unit :=
  if op = "const" then readConst line b r ws
  else if op = "phi" then readPhi line b r ws
  else if op = "call" then readCall line b (some r) ws
  else readBinary line b r op ws

/-- **Reads an instruction** into a block. -/
def readInstr (line : Line) (b : BlockId) : List String → Read Unit
  | [] => refuse line .emptyInstruction
  | w :: ws =>
    if w = "jmp" then readJump line b ws
    else if w = "br" then readBranch line b ws
    else if w = "switch" then readSwitch line b ws
    else if w = "ret" then do finish b (.ret (← readValues line ws))
    else if w = "call" then readCall line b none ws
    else match ws with
      | e :: op :: rest =>
        if w.toList.head? = some '%' ∧ e = "=" then do
          let r ← readDefinition line w
          readOperation line b r op rest
        else refuse line (.unknownInstruction w)
      | _ => refuse line (.unknownInstruction w)

/-! ### Functions -/

/-- Reads parameters. -/
def readParams (line : Line) : List String → Read Unit
  | [] => return ()
  | w :: ws => do
    let p ← readDefinition line w
    edit fun fn => { fn with params := fn.params ++ [p] }
    readParams line ws

/-- Creates the blocks of a function and sorts its lines by block. A block is given with its own
lines; the line that was looked at last comes back too. -/
def readLabels (fn : Func) : List (BlockId × List Line) → Line → List Line →
    Except Error (Func × List (BlockId × List Line) × Line)
  | done, last, [] => .ok (fn, done, last)
  | done, _, l :: ls =>
    match l.text.toList.reverse with
    | ':' :: rev =>
      let label := String.ofList rev.reverse
      if isLabel rev.reverse then
        if fn.blocks.any fun b => b.label = label then .error ⟨l, .duplicatedLabel label⟩
        else
          let (b, fn) := fn.createBlock label
          readLabels fn (done ++ [(b, [])]) l ls
      else .error ⟨l, .invalidLabel label⟩
    | _ =>
      match done.getLast? with
      | none => .error ⟨l, .instructionOutsideBlock⟩
      | some (b, own) => readLabels fn (done.dropLast ++ [(b, own ++ [l])]) l ls

/-- Reads the instructions of a block; nothing may follow its terminator. -/
def readBody (b : BlockId) : List Line → Read Unit
  | [] => return ()
  | l :: ls => do
    if (((← get).func.block b).term).isSome then refuse l .instructionAfterTerminator
    else
      readInstr l b (words l.text)
      readBody b ls

/-- Reads the blocks one after the other. A block without a terminator is reported at the line that
was looked at last. -/
def readBlocks : Line → List (BlockId × List Line) → Read Unit
  | _, [] => return ()
  | last, (b, own) :: rest => do
    readBody b own
    let last := own.getLast?.getD last
    let fn := (← get).func
    if ((fn.block b).term).isNone then refuse last (.blockNotTerminated (fn.label b))
    else readBlocks last rest

/-- Reads the words of a header: the name of the function, and its parameters. -/
def readHeader (serial : Nat) (line : Line) : Except Error Draft :=
  let ws := words line.text
  if ws.length < 3 ∨ ws.getLast? ≠ some "\x7b" then .error ⟨line, .malformedHeader⟩
  else
    let word := (ws.drop 1).headD ""
    match nameAfter? '@' word with
    | none => .error ⟨line, .invalidFunctionName word⟩
    | some name =>
      (((readParams line (ws.drop 2).dropLast).run
        { func := { serial := serial, name := name } }).map Prod.snd)

/-- **Reads a function** from its header and the lines of its body. -/
def readFunc (serial : Nat) (header : Line) (body : List Line) : Except Error Func := do
  let draft ← readHeader serial header
  let (fn, blocks, last) ← readLabels draft.func [] header body
  if blocks.isEmpty then .error ⟨last, .noBlocks fn.name⟩
  else
    let (_, d) ← (readBlocks last blocks).run { draft with func := fn }
    match d.mentions.find? fun m => !d.defined.contains m.1 with
    | some (v, line) => .error ⟨line, .undefinedValue v⟩
    | none => .ok d.func

/-! ### Modules -/

/-- Reads functions onto those read so far. `open?` is the function whose end has not been met. -/
def readFuncs (serial : Nat) : List Func → Option (Line × List Line) → List Line →
    Except Error (List Func)
  | done, none, [] => .ok done
  | _, some (header, _), [] => .error ⟨header, .unterminatedFunction⟩
  | done, none, l :: ls =>
    if Text.startsWith "func " l.text then readFuncs serial done (some (l, [])) ls
    else .error ⟨l, .expectedHeader⟩
  | done, some (header, body), l :: ls =>
    if l.text ≠ "\x7d" then readFuncs serial done (some (header, body ++ [l])) ls
    else do
      let fn ← readFunc (serial + done.length) header body
      if done.any fun f => f.name = fn.name then .error ⟨header, .duplicatedFunction fn.name⟩
      else readFuncs serial (done ++ [fn]) none ls

end BranchFusion.Source

namespace BranchFusion

/-- **Reads a module.** The functions get serial numbers upwards from `serial`. -/
def Module.parse (src : String) (serial : Nat := 0) : Except Source.Error Module :=
  (Source.readFuncs serial [] none (Source.readLines src)).map Module.mk

/-- Reads a text that holds exactly one function. -/
def Func.parse (src : String) : Except Source.Error Func :=
  match Module.parse src with
  | .error e => .error e
  | .ok ⟨[fn]⟩ => .ok fn
  | .ok m => .error ⟨⟨1, ""⟩, .functionCount m.funcs.length⟩

end BranchFusion
