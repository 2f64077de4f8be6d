import BranchFusion.Module

/-!
# Printing

The written form of a program. A function is its header, its live blocks in the order of their
creation, each under its label and indented by four blanks, and a closing brace. Functions of a
module are separated by an empty line, and the text of a module ends in a newline.

The text of an instruction depends on the function only through the labels of the blocks it
mentions, so the printers of instructions take a labelling.
-/

namespace BranchFusion

/-- Words are written in decimal. -/
def decimal (w : Int64) : String := toString w.toInt

/-- A list of texts with commas between them. -/
def commaList (ss : List String) : String := Text.join ", " ss

/-- `%r = phi [%x, a], [%y, b]`, in the order of the blocks. -/
def Phi.text (label : BlockId → String) (p : Phi) : String :=
  p.result.text ++ " = phi " ++
    commaList (p.inputs.map fun e => "[" ++ Value.textOf? e.2 ++ ", " ++ label e.1 ++ "]")

/-- `%r = const 1`, `%r = add %x, %y`, `%r = call @f(%x)` or `call @f(%x)`. -/
def Instr.text : Instr → String
  | .const r w => r.text ++ " = const " ++ decimal w
  | .binary r op x y => r.text ++ " = " ++ op.name ++ " " ++ x.text ++ ", " ++ y.text
  | .call r callee args =>
    (match r with
      | some v => v.text ++ " = "
      | none => "") ++
      "call @" ++ callee ++ "(" ++ commaList (args.map Value.text) ++ ")"

/-- `jmp a`, `br %c, a, b`, `switch %x, d, [1, a]` or `ret %x`. The default of a switch is written
first. -/
def Terminator.text (label : BlockId → String) : Terminator → String
  | .jump target => "jmp " ++ label target
  | .branch v t f => "br " ++ v.text ++ ", " ++ label t ++ ", " ++ label f
  | .switch v d cases =>
    "switch " ++ v.text ++ ", " ++
      commaList (label d :: cases.map fun e => "[" ++ decimal e.1 ++ ", " ++ label e.2 ++ "]")
  | .ret [] => "ret"
  | .ret vs => "ret " ++ commaList (vs.map Value.text)

namespace Func

/-- The written forms of the phis, instructions and terminator of a block, one for each. -/
def blockLines (fn : Func) (b : BlockId) : List String :=
  let bb := fn.block b
  bb.phis.map (Phi.text fn.label) ++ bb.instrs.map Instr.text ++
    (match bb.term with
      | some t => [t.text fn.label]
      | none => [])

/-- The header of a function. -/
def headerLine (fn : Func) : String :=
  "func @" ++ fn.name ++ "(" ++ commaList (fn.params.map Value.text) ++ ") \x7b"

/-- The lines of a function. -/
def textLines (fn : Func) : List String :=
  fn.headerLine ::
    (fn.ids.flatMap fun b => (fn.label b ++ ":") :: (fn.blockLines b).map ("    " ++ ·)) ++ ["\x7d"]

/-- **The written form of a function**, without a final newline. -/
def text (fn : Func) : String := Text.join "\n" fn.textLines

end Func

/-- **The written form of a module**, which ends in a newline. -/
def Module.text (m : Module) : String :=
  Text.join "\n\n" (m.funcs.map Func.text) ++ "\n"

end BranchFusion
