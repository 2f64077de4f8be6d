import BranchFusion.Text.Numeral

/-!
# Decimal fractions

A decimal fraction is read as digits and a power of ten, and held as the nearest number of 53
significant bits, as floating-point arithmetic has it: a tie goes to the even neighbour, the
exponent is bounded below, and from `2 ^ 1024` on there is no such number.
-/

namespace BranchFusion.Text

/-- A number `mantissa * 2 ^ exponent`. -/
structure Binary where
  mantissa : Nat
  exponent : Int
deriving DecidableEq, Repr, Inhabited

/-- The integral part. -/
def Binary.floor (b : Binary) : Nat :=
  if 0 ≤ b.exponent then b.mantissa * Nat.pow 2 b.exponent.toNat
  else b.mantissa / Nat.pow 2 (-b.exponent).toNat

/-- The integer nearest to a quotient; a tie goes to the even neighbour. -/
def roundQuotient (n d : Nat) : Nat :=
  let q := n / d
  let r := n % d
  if 2 * r < d then q
  else if d < 2 * r then q + 1
  else q + q % 2

/-- A quotient divided by a power of two, as a quotient. -/
def scaleDown (n d : Nat) (e : Int) : Nat × Nat :=
  if 0 ≤ e then (n, d * Nat.pow 2 e.toNat) else (n * Nat.pow 2 (-e).toNat, d)

/-- The exponent with which a quotient has 53 significant bits, or the least exponent there is. -/
def quotientExponent (n d : Nat) : Int :=
  let e : Int := (n.log2 : Int) - (d.log2 : Int) - 52
  let (a, b) := scaleDown n d e
  max (-1074) (if a / b < Nat.pow 2 52 then e - 1 else e)

/-- **The nearest number of 53 significant bits** to a quotient, if it is in range. -/
def nearestBinary (n d : Nat) : Option Binary :=
  if n = 0 then some ⟨0, 0⟩
  else
    let e := quotientExponent n d
    let (a, b) := scaleDown n d e
    let m := roundQuotient a b
    if 971 < e ∨ (e = 971 ∧ Nat.pow 2 53 ≤ m) then none else some ⟨m, e⟩

/-- A decimal fraction `digits * 10 ^ exponent`. -/
structure Decimal where
  digits : Nat
  exponent : Int
deriving DecidableEq, Repr, Inhabited

namespace Decimal

/-- The number of 53 significant bits nearest to a decimal fraction, if it is in range. Powers of
ten far out of range are not computed. -/
def toBinary? (d : Decimal) : Option Binary :=
  let top : Int := (Nat.toDigits 10 d.digits).length + d.exponent
  if d.digits = 0 ∨ top < -340 then some ⟨0, 0⟩
  else if 320 < top then none
  else if 0 ≤ d.exponent then nearestBinary (d.digits * Nat.pow 10 d.exponent.toNat) 1
  else nearestBinary d.digits (Nat.pow 10 (-d.exponent).toNat)

/-- The value of a row of digits. -/
def digitsValue (cs : List Char) : Nat :=
  cs.foldl (fun n c => n * 10 + (c.toNat - 48)) 0

/-- Reads an exponent: the letter, a sign and digits. An exponent beyond all bounds is cut. -/
def readExponent : List Char → Option Int
  | [] => some 0
  | m :: cs =>
    let (negative, ds) := Numeral.splitSign cs
    if Numeral.lower m = 'e' ∧ ds ≠ [] ∧ ds.all Char.isDigit then
      let ds := ds.dropWhile (· == '0')
      let e : Int := if 6 < ds.length then 1000000 else digitsValue ds
      some (if negative then -e else e)
    else none

/-- **Reads an unsigned decimal fraction**: digits, a point and digits, of which either may be left
out but not both, and an exponent. Without a digit before the point there is one after it. -/
def read? (cs : List Char) : Option Decimal :=
  let whole := cs.takeWhile Char.isDigit
  let rest := cs.dropWhile Char.isDigit
  let (fraction, rest) := match rest with
    | '.' :: rest => (rest.takeWhile Char.isDigit, rest.dropWhile Char.isDigit)
    | rest => ([], rest)
  if whole.isEmpty && fraction.isEmpty then none
  else (readExponent rest).map fun e =>
    ⟨digitsValue (whole ++ fraction), e - fraction.length⟩

end Decimal

end BranchFusion.Text
