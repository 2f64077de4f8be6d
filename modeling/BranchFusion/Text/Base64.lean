import BranchFusion.Text.Bytes

/-!
# Bytes in base 64

Bytes as a text of letters, digits and the signs `+` and `/`, six bits each: four characters make
three bytes. The last group may make one or two bytes; it is filled up with the sign `=`. The ends
of lines do not count.
-/

namespace BranchFusion.Text.Base64

/-- The value of a digit in base 64. -/
def digit? (c : Char) : Option Nat :=
  let n := c.toNat
  if 65 ≤ n ∧ n ≤ 90 then some (n - 65)
  else if 97 ≤ n ∧ n ≤ 122 then some (n - 71)
  else if 48 ≤ n ∧ n ≤ 57 then some (n + 4)
  else if c = '+' then some 62
  else if c = '/' then some 63
  else none

/-- The bytes of a group of four characters: three bytes, or fewer if it is filled up. -/
def group? (a b c d : Char) : Option (List Nat) :=
  match digit? a, digit? b, digit? c, digit? d with
  | some a, some b, some c, some d =>
    some [4 * a + b / 16, 16 * (b % 16) + c / 4, 64 * (c % 4) + d]
  | some a, some b, some c, none =>
    if d = '=' then some [4 * a + b / 16, 16 * (b % 16) + c / 4] else none
  | some a, some b, none, none =>
    if c = '=' ∧ d = '=' then some [4 * a + b / 16] else none
  | _, _, _, _ => none

/-- The bytes of a text without ends of lines. Only the last group may be filled up. -/
def groups? : List Char → Option (List Nat)
  | [] => some []
  | a :: b :: c :: d :: cs =>
    match group? a b c d with
    | none => none
    | some bytes =>
      if bytes.length < 3 ∧ cs ≠ [] then none else (groups? cs).map (bytes ++ ·)
  | _ => none

/-- **The bytes that are encoded**, if a text encodes some. -/
def decode? (s : String) : Option Bytes :=
  (groups? (s.toList.filter fun c => c != '\r' && c != '\n')).map fun ns =>
    ⟨ns.map fun n => n.toUInt8⟩

/-! ### Writing -/

/-- A digit in base 64. -/
def digit (n : Nat) : Char :=
  if n < 26 then Char.ofNat (n + 65)
  else if n < 52 then Char.ofNat (n + 71)
  else if n < 62 then Char.ofNat (n - 4)
  else if n = 62 then '+'
  else '/'

/-- The characters of a row of bytes: groups of four, the last filled up. -/
def charsOf : List Nat → List Char
  | a :: b :: c :: bs =>
    digit (a / 4) :: digit (16 * (a % 4) + b / 16) :: digit (4 * (b % 16) + c / 64) ::
      digit (c % 64) :: charsOf bs
  | [a, b] => [digit (a / 4), digit (16 * (a % 4) + b / 16), digit (4 * (b % 16)), '=']
  | [a] => [digit (a / 4), digit (16 * (a % 4)), '=', '=']
  | [] => []

/-- **The encoding of bytes**, in one line. -/
def encode (b : Bytes) : List Char := charsOf (b.codes.map UInt8.toNat)

end BranchFusion.Text.Base64
