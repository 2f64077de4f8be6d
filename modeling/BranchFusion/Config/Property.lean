import BranchFusion.Config.Scalar

/-!
# Properties and directives

A node may have *properties* in front of it: an anchor, by which aliases refer to it, and a tag,
which names its type. A tag is a handle and a suffix; handles stand for the front part of the name
of a type. Directives in front of a document give its version and the meaning of further handles.

Here is how they are written.
-/

namespace BranchFusion.Config

/-- Reads the name of an anchor or an alias, at the sign in front of it. -/
def readAnchor (c : Cursor) : Except SyntaxError (String × Cursor) :=
  let (name, d) := (c.advance 1).span isNameChar
  let ends := startsBlank d.rest ||
    ['?', ':', ',', ']', '\x7d', '%', '@', '\x60'].any fun x => d.at? x
  if name.isEmpty || !ends then .error (lexical c.line d.line .expectedAnchorName)
  else .ok (String.ofList name, d)

/-! ### Tags -/

/-- The characters of tags. -/
def isTagChar (c : Char) : Bool :=
  isNameChar c ||
    c ∈ [';', '/', '?', ':', '@', '&', '=', '+', '$', ',', '.', '!', '~', '*', '\'', '(', ')', '[',
      ']', '%']

/-- The number of octets of a character, by the first of them. -/
def octetCount? (n : Nat) : Option Nat :=
  if n < 0x80 then some 1
  else if n < 0xC0 then none
  else if n < 0xE0 then some 2
  else if n < 0xF0 then some 3
  else if n < 0xF8 then some 4
  else none

/-- What the first octet of a character of several octets adds to its code. -/
def leadingBits (octets n : Nat) : Nat :=
  match octets with
  | 1 => n
  | 2 => n - 0xC0
  | 3 => n - 0xE0
  | _ => n - 0xF0

/-- A character that is being read octet by octet: the number of its octets, its code so far, and
the number of octets to come. -/
structure Octets where
  count : Nat
  code : Nat
  missing : Nat
deriving DecidableEq, Repr, Inhabited

namespace Octets

/-- The least code that takes a number of octets. -/
def leastCode : Nat → Nat
  | 2 => 0x80
  | 3 => 0x800
  | 4 => 0x10000
  | _ => 0

/-- One more octet. -/
def next (o : Octets) (n : Nat) : Octets := ⟨o.count, 64 * o.code + (n - 0x80), o.missing - 1⟩

/-- The character that has been read. If there is none with that code, or one that takes fewer
octets, each octet shows as the replacement character. -/
def chars (o : Octets) : List Char :=
  if leastCode o.count ≤ o.code ∧ o.code.isValidChar then [Char.ofNat o.code]
  else List.replicate o.count '\ufffd'

end Octets

/-- Reads the characters of a tag; `start` is the line where it begins. -/
def tagTextFrom (start : Nat) : Option Octets → (text : List Char) → (m : Mark) → List Char →
    Except SyntaxError (List Char × Cursor)
  | none, text, m, [] => .ok (text.reverse, ⟨m, []⟩)
  | some _, _, m, [] => .error (lexical start m.line .expectedOctet)
  | none, text, m, '%' :: h :: l :: cs =>
    match hexValue? h, hexValue? l with
    | some h, some l =>
      match octetCount? (16 * h + l) with
      | none => .error (lexical start m.line .leadingOctet)
      | some 1 => tagTextFrom start none (Char.ofNat (16 * h + l) :: text) (m.skip 3) cs
      | some k =>
        tagTextFrom start (some ⟨k, leadingBits k (16 * h + l), k - 1⟩) text (m.skip 3) cs
    | _, _ => .error (lexical start m.line .expectedOctet)
  | some o, text, m, '%' :: h :: l :: cs =>
    match hexValue? h, hexValue? l with
    | some h, some l =>
      let n := 16 * h + l
      if n < 0x80 ∨ 0xC0 ≤ n then .error (lexical start m.line .trailingOctet)
      else if o.missing ≤ 1 then
        tagTextFrom start none ((o.next n).chars ++ text) (m.skip 3) cs
      else tagTextFrom start (some (o.next n)) text (m.skip 3) cs
    | _, _ => .error (lexical start m.line .expectedOctet)
  | some _, _, m, _ :: _ => .error (lexical start m.line .expectedOctet)
  | none, text, m, x :: cs =>
    if x = '%' then .error (lexical start m.line .expectedOctet)
    else if isTagChar x then tagTextFrom start none (x :: text) m.next cs
    else .ok (text.reverse, ⟨m, x :: cs⟩)

/-- Reads the characters of a tag, of which there has to be one unless some are known already. -/
def readTagText (start : Nat) (known : List Char) (c : Cursor) :
    Except SyntaxError (String × Cursor) := do
  let (text, d) ← tagTextFrom start none [] c.mark c.rest
  if known.isEmpty && d.mark.index = c.mark.index then
    throw (lexical start d.line .expectedTagText)
  return (String.ofList (known.drop 1 ++ text), d)

/-- Reads a handle: an exclamation mark, or a name between two of them. What looks like a handle but
has no second mark is none. -/
def readHandle (start : Nat) (c : Cursor) : Except SyntaxError (List Char × Cursor) :=
  if !c.at? '!' then .error (lexical start c.line .expectedHandle)
  else
    let (name, d) := (c.advance 1).span isNameChar
    if d.at? '!' then .ok ('!' :: name ++ ['!'], d.advance 1) else .ok ('!' :: name, d)

/-- A tag as it is written: a handle, which may be empty, and a suffix. -/
structure WrittenTag where
  handle : String
  suffix : String
deriving DecidableEq, Repr, Inhabited

/-- Whether characters are a handle with two marks. -/
def isHandle (cs : List Char) : Bool := 2 ≤ cs.length && cs.getLast? == some '!'

/-- Reads a tag that is not in angle brackets. -/
def readShortTag (c : Cursor) : Except SyntaxError (WrittenTag × Cursor) := do
  let (handle, d) ← readHandle c.line c
  if isHandle handle then
    let (suffix, d) ← readTagText c.line [] d
    return (⟨String.ofList handle, suffix⟩, d)
  else
    let (suffix, d) ← readTagText c.line handle d
    return (if suffix = "" then ⟨"", String.ofList handle⟩ else ⟨"!", suffix⟩, d)

/-- Reads a tag in angle brackets. -/
def readFullTag (c : Cursor) : Except SyntaxError (WrittenTag × Cursor) := do
  let (suffix, d) ← readTagText c.line [] (c.advance 2)
  if d.at? '>' then return (⟨"", suffix⟩, d.advance 1)
  else throw (lexical c.line d.line .unclosedTag)

/-- **Reads a tag**, at its first exclamation mark. -/
def readTag (c : Cursor) : Except SyntaxError (WrittenTag × Cursor) := do
  let (tag, d) ← if (c.advance 1).at? '<' then readFullTag c else readShortTag c
  if startsBlank d.rest then return (tag, d)
  else throw (lexical c.line d.line .expectedBlankOrLineEnd)

/-! ### Directives -/

/-- A directive in front of a document. -/
inductive Directive
  | version (major minor : Nat)
  /-- A handle for the names of types that begin with a text. -/
  | handle (name front : String)
deriving DecidableEq, Repr, Inhabited

/-- Reads a number of a version: one or two digits. -/
def readVersionNumber (start : Nat) (c : Cursor) : Except SyntaxError (Nat × Cursor) :=
  let (digits, d) := c.span Char.isDigit
  if 2 < digits.length then .error (lexical start d.line .longVersion)
  else if digits.isEmpty then .error (lexical start d.line .expectedVersion)
  else .ok (digits.foldl (fun n x => 10 * n + (x.toNat - 48)) 0, d)

/-- Reads a version. -/
def readVersion (start : Nat) (c : Cursor) : Except SyntaxError (Directive × Cursor) := do
  let (major, d) ← readVersionNumber start (c.dropWhile isGap)
  if !d.at? '.' then throw (lexical start d.line .expectedVersionPoint)
  let (minor, d) ← readVersionNumber start (d.advance 1)
  return (.version major minor, d)

/-- Reads a handle and what it stands for. -/
def readHandleDirective (start : Nat) (c : Cursor) : Except SyntaxError (Directive × Cursor) := do
  let (handle, d) ← readHandle start (c.dropWhile isGap)
  if !(isHandle handle || handle = ['!']) then throw (lexical start d.line .expectedHandle)
  if !(d.rest.head?.any isGap) then throw (lexical start d.line .expectedBlank)
  let (front, d) ← readTagText start [] (d.dropWhile isGap)
  if !startsBlank d.rest then throw (lexical start d.line .expectedBlankOrLineEnd)
  return (.handle (String.ofList handle) front, d)

/-- **Reads a directive**, at its percent sign, with the rest of its line. -/
def readDirective (c : Cursor) : Except SyntaxError (Directive × Cursor) := do
  let (name, d) := (c.advance 1).span isNameChar
  if name.isEmpty then throw (lexical c.line d.line .expectedDirectiveName)
  if !startsBlank d.rest then throw (lexical c.line d.line .malformedDirectiveName)
  let (directive, d) ←
    if name = "YAML".toList then readVersion c.line d
    else if name = "TAG".toList then readHandleDirective c.line d
    else throw (lexical c.line d.line .unknownDirective)
  let d := (d.dropWhile isGap).dropComment
  if atLineEnd d.rest then return (directive, d.dropBreak)
  else throw (lexical c.line d.line .expectedLineEnd)

end BranchFusion.Config
