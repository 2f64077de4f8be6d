import BranchFusion.Config.Tag
import BranchFusion.Config.Timestamp
import BranchFusion.Text.Base64
import BranchFusion.Text.Decimal

/-!
# What a scalar means

A plain scalar is read as nothing, a truth value, an integer, a real number or a date, if it is
written like one, and as a text otherwise. A scalar in quotes is a text. With a tag in front of it a
scalar is read as what the tag names, however it is written; where that is impossible the document
is refused.
-/

namespace BranchFusion.Config

/-- What a scalar means. -/
inductive Meaning
  | null
  | truth (b : Bool)
  | integer (n : Int)
  | real (negative : Bool) (value : Text.Binary)
  | infinite (negative : Bool)
  | notANumber
  | timestamp
  | text
deriving DecidableEq, Repr, Inhabited

namespace Meaning

/-- The type of a meaning. -/
def tag : Meaning → Tag
  | .null => .null
  | .truth _ => .truth
  | .integer _ => .integer
  | .real _ _ => .real
  | .infinite _ => .real
  | .notANumber => .real
  | .timestamp => .timestamp
  | .text => .text

/-- The words with a meaning of their own. -/
def words : List (String × Meaning) :=
  [("", .null), ("~", .null), ("null", .null), ("Null", .null), ("NULL", .null),
    ("true", .truth true), ("True", .truth true), ("TRUE", .truth true),
    ("false", .truth false), ("False", .truth false), ("FALSE", .truth false),
    (".nan", .notANumber), (".NaN", .notANumber), (".NAN", .notANumber),
    (".inf", .infinite false), (".Inf", .infinite false), (".INF", .infinite false),
    ("+.inf", .infinite false), ("+.Inf", .infinite false), ("+.INF", .infinite false),
    ("-.inf", .infinite true), ("-.Inf", .infinite true), ("-.INF", .infinite true)]

/-- Reads a row of digits of a base after a sign. -/
def signedDigits (base : Nat) (cs : List Char) : Option Int :=
  let (negative, ds) := Text.Numeral.splitSign cs
  if ds.isEmpty then none
  else match Text.Numeral.readDigits base false 0 ds with
    | .ok n => (Text.Numeral.signed negative n).toOption
    | .error _ => none

/-- Reads an integer, of which the underscores have been removed: a signed literal, or an unsigned
one below `2 ^ 64`. In binary and octal literals the sign may also stand after the mark of the
base. -/
def readInteger? (cs : List Char) : Option Int :=
  match Text.Numeral.readSigned cs with
  | .ok n => some n
  | .error _ =>
    match Text.Numeral.readUnsigned cs with
    | .ok n => some (n : Int)
    | .error _ =>
      match cs with
      | '0' :: 'b' :: ds => signedDigits 2 ds
      | '0' :: 'o' :: ds => signedDigits 8 ds
      | _ => none

/-- Reads a real number that is in range. -/
def readReal? (cs : List Char) : Option Meaning :=
  let (negative, ds) := Text.Numeral.splitSign cs
  ((Text.Decimal.read? ds).bind Text.Decimal.toBinary?).map (.real negative)

/-- What a text means that begins with a digit or a sign; `dates` tells whether it may be a date. -/
def ofNumeral (dates : Bool) (cs : List Char) : Meaning :=
  if dates && Timestamp.accepts cs then .timestamp
  else
    let ds := cs.filter (· != '_')
    match readInteger? ds with
    | some n => .integer n
    | none => (readReal? ds).getD .text

/-- What the characters of a scalar mean; `dates` tells whether they may be a date. -/
def ofText (dates : Bool) (s : String) : Meaning :=
  match words.find? fun e => e.1 = s with
  | some e => e.2
  | none =>
    match s.toList with
    | '.' :: cs =>
      if Text.Numeral.underscoresOk ('.' :: cs) then
        (readReal? (('.' :: cs).filter (· != '_'))).getD .text
      else .text
    | c :: cs => if c.isDigit || c == '+' || c == '-' then ofNumeral dates (c :: cs) else .text
    | [] => .null

/-- **What a plain scalar means.** -/
def ofPlain (s : String) : Meaning := ofText true s

/-- An integer as a real number; only those that fit into a signed word. -/
def realOfInteger? (n : Int) : Option Meaning :=
  if n < (Text.Numeral.signedBound : Int) then
    (Text.nearestBinary n.natAbs 1).map (.real (decide (n < 0)))
  else none

end Meaning

/-- Why a scalar cannot be read as its tag says. -/
inductive TagError
  /-- The characters mean something of another type. -/
  | otherType (found : Tag) (text : String) (tag : Tag)
  /-- The characters do not encode bytes. -/
  | notEncoded
deriving DecidableEq, Repr

/-- The wording of an error. -/
def TagError.message : TagError → String
  | .otherType found text tag =>
    "cannot decode " ++ found.name ++ " \x60" ++ text ++ "\x60 as a " ++ tag.name
  | .notEncoded => "!!binary value contains invalid base64 data"

/-- **What a scalar with a tag means**, and its text. Encoded bytes are decoded; tags that name no
type of scalars leave the text alone. -/
def Tag.interpret (t : Tag) (s : String) : Except TagError (Meaning × Text.Bytes) :=
  if t = .binary then
    match Text.Base64.decode? s with
    | some d => .ok (.text, d)
    | none => .error .notEncoded
  else if !t.isResolved then .ok (.text, s)
  else
    let m := Meaning.ofText (decide (t = .timestamp)) s
    let refused := Except.error (.otherType m.tag s t)
    if m.tag = t then .ok (m, s)
    else match t, m with
      | .real, .integer n =>
        match Meaning.realOfInteger? n with
        | some r => .ok (r, s)
        | none => refused
      | _, _ => refused

/-- Words that older readers take for truth values, for true and for false. -/
def oldTrueWords : List String := ["y", "Y", "yes", "Yes", "YES", "on", "On", "ON"]

@[inherit_doc oldTrueWords]
def oldFalseWords : List String := ["n", "N", "no", "No", "NO", "off", "Off", "OFF"]

end BranchFusion.Config
