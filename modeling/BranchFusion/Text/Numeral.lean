/-!
# Integer literals

The spelling of integers in source text, flags and settings. A literal is decimal, or starts with
`0x`, `0o`, `0b` or a plain `0` (octal), in either case of the letter. Single underscores may stand
between digits, or between the mark of the base and the first digit. A literal that is well formed
as far as it was read, and whose value has already left the 64-bit range, is out of range; every
other failure is a malformed literal.
-/

namespace BranchFusion.Text.Numeral

/-- Why a literal denotes no integer. -/
inductive Fault
  /-- The characters do not form a literal. -/
  | malformed
  /-- The value does not fit into 64 bits. -/
  | outOfRange
deriving DecidableEq, Repr

/-- The wording of a fault. -/
def Fault.message : Fault → String
  | .malformed => "invalid syntax"
  | .outOfRange => "value out of range"

/-- The number of signed words that are not negative: `2 ^ 63`. -/
abbrev signedBound : Nat := 9223372036854775808

/-- The number of words: `2 ^ 64`. -/
abbrev unsignedBound : Nat := 18446744073709551616

/-- The value of a digit in bases up to 36, in either case. -/
def digitValue (c : Char) : Option Nat :=
  let n := c.toNat
  if 48 ≤ n ∧ n ≤ 57 then some (n - 48)
  else if 97 ≤ n ∧ n ≤ 122 then some (n - 87)
  else if 65 ≤ n ∧ n ≤ 90 then some (n - 55)
  else none

/-- The lower-case form of an ASCII letter. -/
def lower (c : Char) : Char :=
  if 65 ≤ c.toNat ∧ c.toNat ≤ 90 then Char.ofNat (c.toNat + 32) else c

/-- Reads digits of a base onto the value `acc` read so far. The first offence decides the fault:
a value that leaves 64 bits is reported even if junk follows. -/
def readDigits (base : Nat) (underscores : Bool) : Nat → List Char → Except Fault Nat
  | acc, [] => .ok acc
  | acc, c :: cs =>
    if c = '_' ∧ underscores = true then readDigits base underscores acc cs
    else match digitValue c with
      | none => .error .malformed
      | some d =>
        if base ≤ d then .error .malformed
        else if unsignedBound ≤ acc * base + d then .error .outOfRange
        else readDigits base underscores (acc * base + d) cs

/-- The base of an unsigned literal, and the digits after the mark of the base. -/
def splitBase : List Char → Nat × List Char
  | '0' :: m :: d :: cs =>
    if lower m = 'b' then (2, d :: cs)
    else if lower m = 'o' then (8, d :: cs)
    else if lower m = 'x' then (16, d :: cs)
    else (8, m :: d :: cs)
  | '0' :: cs => (8, cs)
  | cs => (10, cs)

/-- What stands just before the place that is read, as far as underscores care. -/
inductive Before
  | start
  | digit
  | underscore
  | other
deriving DecidableEq, Repr

/-- Every underscore follows a digit and is followed by one. -/
def underscoresFrom (hex : Bool) : Before → List Char → Bool
  | before, [] => before != .underscore
  | before, c :: cs =>
    let l := lower c
    if c.isDigit ∨ (hex = true ∧ 'a' ≤ l ∧ l ≤ 'f') then underscoresFrom hex .digit cs
    else if c = '_' then before == .digit && underscoresFrom hex .underscore cs
    else before != .underscore && underscoresFrom hex .other cs

/-- The underscores of an unsigned literal stand where they may; the mark of the base counts as
a digit. -/
def underscoresOk : List Char → Bool
  | '0' :: m :: cs =>
    let l := lower m
    if l = 'b' ∨ l = 'o' ∨ l = 'x' then underscoresFrom (l == 'x') .digit cs
    else underscoresFrom false .start ('0' :: m :: cs)
  | cs => underscoresFrom false .start cs

/-- **Unsigned literals**: the value, below `2 ^ 64`. -/
def readUnsigned (cs : List Char) : Except Fault Nat :=
  if cs.isEmpty then .error .malformed
  else
    let (base, digits) := splitBase cs
    match readDigits base true 0 digits with
    | .error e => .error e
    | .ok n => if cs.contains '_' && !underscoresOk cs then .error .malformed else .ok n

/-- Removes one sign, and tells whether it was a minus. -/
def splitSign : List Char → Bool × List Char
  | '-' :: cs => (true, cs)
  | '+' :: cs => (false, cs)
  | cs => (false, cs)

/-- Gives a magnitude its sign, within the signed 64-bit range. -/
def signed (negative : Bool) (n : Nat) : Except Fault Int :=
  if negative then (if signedBound < n then .error .outOfRange else .ok (-(n : Int)))
  else (if signedBound ≤ n then .error .outOfRange else .ok (n : Int))

/-- **Signed literals**: an optional sign and an unsigned literal, from `-2 ^ 63` to
`2 ^ 63 - 1`. -/
def readSigned (cs : List Char) : Except Fault Int :=
  let (negative, rest) := splitSign cs
  match readUnsigned rest with
  | .error e => .error e
  | .ok n => signed negative n

/-- Reads a signed literal as a 64-bit word. -/
def readWord (s : String) : Except Fault Int64 :=
  (readSigned s.toList).map Int64.ofInt

/-- Reads a plain decimal numeral: digits only, at least one, below `2 ^ 64`. -/
def readDecimal (cs : List Char) : Except Fault Nat :=
  if cs.isEmpty then .error .malformed else readDigits 10 false 0 cs

end BranchFusion.Text.Numeral
