import BranchFusion.Text.Blank
import BranchFusion.Text.Printable

/-!
# Quoted text

How a text or a character from outside is shown in a message: between quotes, with printable
characters as they are and all others escaped. An escape is a backslash with a letter for the
common control characters, and a code in hexadecimal digits of a fixed width for the rest. The quote
that encloses the text, and the backslash, are escaped too.
-/

namespace BranchFusion.Text

/-- The last `k` hexadecimal digits of `n`, the most significant first. -/
def hexDigits : Nat → Nat → List Char
  | 0, _ => []
  | k + 1, n => hexDigits k (n / 16) ++ [Nat.digitChar (n % 16)]

/-- A character between quotes of the given kind. -/
def quotedChar (quote c : Char) : List Char :=
  if c = quote ∨ c = '\\' then ['\\', c]
  else if isPrintable c then [c]
  else match c.toNat with
    | 7 => ['\\', 'a']
    | 8 => ['\\', 'b']
    | 12 => ['\\', 'f']
    | 10 => ['\\', 'n']
    | 13 => ['\\', 'r']
    | 9 => ['\\', 't']
    | 11 => ['\\', 'v']
    | n =>
      if n < 0x20 ∨ n = 0x7F then '\\' :: 'x' :: hexDigits 2 n
      else if n < 0x10000 then '\\' :: 'u' :: hexDigits 4 n
      else '\\' :: 'U' :: hexDigits 8 n

/-- **A text in double quotes.** -/
def quote (s : String) : String :=
  String.ofList ('"' :: s.toList.flatMap (quotedChar '"') ++ ['"'])

/-- **A character in single quotes.** -/
def quoteChar (c : Char) : String :=
  String.ofList ('\'' :: quotedChar '\'' c ++ ['\''])

end BranchFusion.Text
