import BranchFusion.Func
import BranchFusion.Source.Printer

/-!
# Errors in program text

Every reason for which a program text is refused, with its wording, and the place where it was
found: the number of the line and the line without its comment and outer blanks.
-/

namespace BranchFusion.Source

/-- A line of program text: its number, counted from one, and what is left of it without its
comment and outer blanks. -/
structure Line where
  number : Nat
  text : String
deriving DecidableEq, Repr, Inhabited

/-- Why a program text is refused. -/
inductive Refusal
  | expectedHeader
  | duplicatedFunction (name : String)
  | unterminatedFunction
  | functionCount (count : Nat)
  | malformedHeader
  | invalidFunctionName (word : String)
  | instructionOutsideBlock
  | invalidLabel (label : String)
  | duplicatedLabel (label : String)
  | noBlocks (func : String)
  | instructionAfterTerminator
  | blockNotTerminated (label : String)
  | undefinedLabel (label : String)
  | invalidValue (word : String)
  | redefinition (word : String)
  | undefinedValue (value : Value)
  | emptyInstruction
  | unknownInstruction (word : String)
  | constOperands
  | invalidInteger (word : String)
  | unknownOperator (word : String)
  | binaryOperands (operator : String)
  | phiAfterInstructions
  | phiPairs
  | duplicatedIncoming (label : String)
  | callName
  | jumpOperands
  | branchOperands
  | switchOperands
  | duplicatedCase (word : Int64)
deriving DecidableEq, Repr

/-- The wording of a refusal. -/
def Refusal.message : Refusal → String
  | .expectedHeader => "expected function header"
  | .duplicatedFunction f => "duplicated function @" ++ f
  | .unterminatedFunction => "unterminated function"
  | .functionCount n => "expected exactly 1 function, got " ++ toString n
  | .malformedHeader => "malformed function header"
  | .invalidFunctionName w => "invalid function name: " ++ w
  | .instructionOutsideBlock => "instruction outside of a block"
  | .invalidLabel l => "invalid label: " ++ l
  | .duplicatedLabel l => "duplicated label: " ++ l
  | .noBlocks f => "function @" ++ f ++ " has no blocks"
  | .instructionAfterTerminator => "instruction after terminator"
  | .blockNotTerminated l => "block " ++ l ++ " is not terminated"
  | .undefinedLabel l => "undefined label: " ++ l
  | .invalidValue w => "invalid value: " ++ w
  | .redefinition w => "redefinition of " ++ w
  | .undefinedValue v => "undefined value " ++ v.text
  | .emptyInstruction => "empty instruction"
  | .unknownInstruction w => "unknown instruction: " ++ w
  | .constOperands => "const expects exactly 1 operand"
  | .invalidInteger w => "invalid integer: " ++ w
  | .unknownOperator w => "unknown operator: " ++ w
  | .binaryOperands op => op ++ " expects exactly 2 operands"
  | .phiAfterInstructions => "phi after non-phi instructions"
  | .phiPairs => "phi expects [value, label] pairs"
  | .duplicatedIncoming l => "duplicated phi incoming block: " ++ l
  | .callName => "call expects a function name"
  | .jumpOperands => "jmp expects exactly 1 label"
  | .branchOperands => "br expects a value and 2 labels"
  | .switchOperands => "switch expects a value, a default label and [value, label] pairs"
  | .duplicatedCase w => "duplicated switch case: " ++ decimal w

/-- A refusal and where it was found. -/
structure Error where
  line : Line
  reason : Refusal
deriving DecidableEq, Repr

/-- The message of an error. -/
def Error.message (e : Error) : String :=
  "Syntax error at line " ++ toString e.line.number ++ ": " ++ e.reason.message

end BranchFusion.Source
