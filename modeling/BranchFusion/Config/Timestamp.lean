import BranchFusion.Text.Numeral

/-!
# Dates and times

A plain scalar that looks like a date, or a date and a time, is neither a number nor a text. Dates
are a year of four digits, a month and a day; times have hours, minutes and seconds, with a fraction
and a zone.
-/

namespace BranchFusion.Config.Timestamp

/-- A reader: what is left of a text after something was read from its front. -/
abbrev Step := List Char → Option (List Char)

/-- Reads a character. -/
def literal (p : Char → Bool) : Step
  | c :: cs => if p c then some cs else none
  | [] => none

/-- Reads one or two digits. -/
def shortNumber : List Char → Option (Nat × List Char)
  | c :: d :: cs =>
    if !c.isDigit then none
    else if d.isDigit then some ((c.toNat - 48) * 10 + (d.toNat - 48), cs)
    else some (c.toNat - 48, d :: cs)
  | [c] => if c.isDigit then some (c.toNat - 48, []) else none
  | [] => none

/-- Reads one or two digits for a number up to a bound. -/
def upTo (bound : Nat) : Step := fun cs =>
  (shortNumber cs).bind fun (n, rest) => if n ≤ bound then some rest else none

/-- The number of days of a month. -/
def daysIn (year month : Nat) : Nat :=
  if month = 2 then
    if year % 4 = 0 ∧ (year % 100 ≠ 0 ∨ year % 400 = 0) then 29 else 28
  else if month ∈ [4, 6, 9, 11] then 30 else 31

/-- Reads a date. -/
def date : Step := fun cs => do
  let year := cs.takeWhile Char.isDigit
  guard (year.length = 4)
  let rest ← literal (· == '-') (cs.drop 4)
  let (month, rest) ← shortNumber rest
  guard (1 ≤ month ∧ month ≤ 12)
  let rest ← literal (· == '-') rest
  let (day, rest) ← shortNumber rest
  let y := year.foldl (fun n c => n * 10 + (c.toNat - 48)) 0
  guard (1 ≤ day ∧ day ≤ daysIn y month)
  return rest

/-- Passes over a fraction of a second. -/
def fraction : List Char → List Char
  | c :: d :: cs =>
    if (c == '.' || c == ',') && d.isDigit then cs.dropWhile Char.isDigit else c :: d :: cs
  | cs => cs

/-- Reads a time. -/
def time : Step := fun cs => do
  let rest ← upTo 23 cs
  let rest ← literal (· == ':') rest
  let rest ← upTo 59 rest
  let rest ← literal (· == ':') rest
  let rest ← upTo 59 rest
  return fraction rest

/-- Reads two digits for a number up to a bound. -/
def twoDigits (bound : Nat) : Step := fun cs =>
  match cs with
  | c :: d :: rest =>
    if c.isDigit && d.isDigit && (c.toNat - 48) * 10 + (d.toNat - 48) ≤ bound then some rest
    else none
  | _ => none

/-- Reads a zone. -/
def zone : Step := fun cs =>
  match cs with
  | 'Z' :: rest => some rest
  | _ => do
    let rest ← literal (fun c => c == '+' || c == '-') cs
    let rest ← twoDigits 24 rest
    let rest ← literal (· == ':') rest
    twoDigits 60 rest

/-- **Whether a text is a date, or a date and a time.** With the letter between date and time there
is a zone, with spaces there is none. -/
def accepts (cs : List Char) : Bool :=
  match date cs with
  | none => false
  | some [] => true
  | some (c :: rest) =>
    if c = 'T' ∨ c = 't' then ((time rest).bind zone) == some []
    else c == ' ' && time (rest.dropWhile (· == ' ')) == some []

end BranchFusion.Config.Timestamp
