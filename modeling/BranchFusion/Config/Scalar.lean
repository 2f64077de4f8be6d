import BranchFusion.Config.Cursor
import BranchFusion.Text.Numeral

/-!
# The text of scalars

A scalar is written plain, in single or double quotes, or as a block of lines. In the first three
forms it may run over several lines: a newline, with the blanks around it, reads as a space, and
each further empty line as an end of a line; a separator stays what it is. In a block of lines the
ends of lines are kept, or folded in the same way.

The readers recurse on the characters that follow and carry what they have read, the last character
first.
-/

namespace BranchFusion.Config

/-- What has been passed between two parts of a scalar. -/
inductive Gap
  | none
  | spaces (cs : List Char)
  /-- The end of a line, and those of the empty lines after it. An escaped end of a line is nothing
  at all. -/
  | lines (first : Option Char) (more : List Char)
deriving DecidableEq, Repr, Inhabited

namespace Gap

/-- What a gap reads as. -/
def text : Gap → List Char
  | .none => []
  | .spaces cs => cs
  | .lines (some '\n') [] => [' ']
  | .lines (some '\n') more => more
  | .lines first more => first.toList ++ more

/-- Whether a line ends in the gap. -/
def breaks : Gap → Bool
  | .lines _ _ => true
  | _ => false

/-- One more blank. -/
def blank (g : Gap) (c : Char) : Gap :=
  match g with
  | .none => .spaces [c]
  | .spaces cs => .spaces (cs ++ [c])
  | g => g

/-- One more end of a line. -/
def newline (g : Gap) (c : Char) : Gap :=
  match g with
  | .lines first more => .lines first (more ++ [breakText c])
  | _ => .lines (some (breakText c)) []

end Gap

/-- A scalar that has been read: its text, where it ends, and whether a construct may begin there,
because the scalar has run past the end of its last line. -/
structure Reading where
  text : List Char
  stop : Cursor
  fresh : Bool := false
deriving DecidableEq, Repr, Inhabited

/-- The result of reading a scalar. -/
abbrev ScalarRead := Except SyntaxError Reading

/-! ### Plain scalars -/

/-- The characters that structure what stands in brackets. -/
def isFlowMark (c : Char) : Bool :=
  c == ',' || c == '?' || c == '[' || c == ']' || c == '\x7b' || c == '\x7d'

/-- Reads the rest of a plain scalar. It ends at a colon before a blank, at a comment, at the mark
of a document, and at a line that is not indented by `indent`, or inside brackets at a character
that structures them. -/
def plainFrom (brackets : Bool) (indent start : Nat) :
    (text : List Char) → Gap → Mark → List Char → ScalarRead
  | text, gap, m, [] => .ok ⟨text.reverse, ⟨m, []⟩, gap.breaks⟩
  | text, gap, m, x :: cs =>
    if isBreak x then plainFrom brackets indent start text (gap.newline x) m.newline cs
    else if isGap x then
      if gap.breaks && x == '\t' && m.column < indent then
        .error (lexical start m.line .tabInIndentation)
      else plainFrom brackets indent start text (gap.blank x) m.next cs
    else if (x == ':' && startsBlank cs) || (brackets && isFlowMark x) ||
        (gap ≠ .none && (x == '#' || (!brackets && decide (m.column < indent)) ||
          (marker? m (x :: cs)).isSome)) then
      .ok ⟨text.reverse, ⟨m, x :: cs⟩, gap.breaks⟩
    else plainFrom brackets indent start (x :: (gap.text.reverse ++ text)) .none m.next cs

/-- Reads a plain scalar. -/
def readPlain (brackets : Bool) (indent : Nat) (c : Cursor) : ScalarRead :=
  plainFrom brackets indent c.line [] .none c.mark c.rest

/-! ### Scalars in quotes -/

/-- Reads the rest of a scalar in single quotes. A quote that is written twice stands for itself;
`quoted` tells that a quote has just been read. -/
def singleFrom (start : Nat) :
    (text : List Char) → Gap → (quoted : Bool) → Mark → List Char → ScalarRead
  | text, _, true, m, [] => .ok ⟨text.reverse, ⟨m, []⟩, false⟩
  | _, _, false, m, [] => .error (lexical start m.line .unclosedQuote)
  | text, gap, quoted, m, x :: cs =>
    if quoted then
      if x = '\'' then singleFrom start (x :: text) .none false m.next cs
      else .ok ⟨text.reverse, ⟨m, x :: cs⟩, false⟩
    else if (marker? m (x :: cs)).isSome then .error (lexical start m.line .markerInQuote)
    else if x = '\'' then singleFrom start (gap.text.reverse ++ text) .none true m.next cs
    else if isBreak x then singleFrom start text (gap.newline x) false m.newline cs
    else if isGap x then singleFrom start text (gap.blank x) false m.next cs
    else singleFrom start (x :: (gap.text.reverse ++ text)) .none false m.next cs

/-- The character that a letter stands for after a backslash. -/
def escaped? : Char → Option Char
  | '0' => some '\x00'
  | 'a' => some '\x07'
  | 'b' => some '\x08'
  | 't' => some '\t'
  | '\t' => some '\t'
  | 'n' => some '\n'
  | 'v' => some '\x0b'
  | 'f' => some '\x0c'
  | 'r' => some '\r'
  | 'e' => some '\x1b'
  | ' ' => some ' '
  | '"' => some '"'
  | '\'' => some '\''
  | '\\' => some '\\'
  | 'N' => some '\u0085'
  | '_' => some '\u00a0'
  | 'L' => some '\u2028'
  | 'P' => some '\u2029'
  | _ => none

/-- The number of digits of the code that follows a letter after a backslash. -/
def codeLength? : Char → Option Nat
  | 'x' => some 2
  | 'u' => some 4
  | 'U' => some 8
  | _ => none

/-- The value of a hexadecimal digit. -/
def hexValue? (c : Char) : Option Nat :=
  (Text.Numeral.digitValue c).filter (· < 16)

/-- What is read in a scalar in double quotes. -/
inductive EscapeState
  | text
  /-- A backslash has been read. -/
  | escape
  /-- A code is read: the number of digits to come, and the value so far. -/
  | code (digits value : Nat)
deriving DecidableEq, Repr, Inhabited

/-- Reads the rest of a scalar in double quotes. -/
def doubleFrom (start : Nat) :
    (text : List Char) → Gap → EscapeState → Mark → List Char → ScalarRead
  | _, _, .code _ _, m, [] => .error (lexical start m.line .malformedEscape)
  | _, _, .escape, m, [] => .error (lexical start m.line .unknownEscape)
  | _, _, .text, m, [] => .error (lexical start m.line .unclosedQuote)
  | text, gap, .escape, m, x :: cs =>
    if isBreak x then doubleFrom start text (.lines none []) .text m.newline cs
    else match escaped? x, codeLength? x with
      | some y, _ => doubleFrom start (y :: text) gap .text m.next cs
      | none, some n => doubleFrom start text gap (.code n 0) m.next cs
      | none, none => .error (lexical start m.line .unknownEscape)
  | text, gap, .code n v, m, x :: cs =>
    match hexValue? x with
    | none => .error (lexical start m.line .malformedEscape)
    | some d =>
      let v := v * 16 + d
      if n ≤ 1 then
        if v.isValidChar then doubleFrom start (Char.ofNat v :: text) gap .text m.next cs
        else .error (lexical start m.line .invalidCode)
      else doubleFrom start text gap (.code (n - 1) v) m.next cs
  | text, gap, .text, m, x :: cs =>
    let flushed := gap.text.reverse ++ text
    if (marker? m (x :: cs)).isSome then .error (lexical start m.line .markerInQuote)
    else if x = '"' then .ok ⟨flushed.reverse, ⟨m.next, cs⟩, false⟩
    else if isBreak x then doubleFrom start text (gap.newline x) .text m.newline cs
    else if isGap x then doubleFrom start text (gap.blank x) .text m.next cs
    else if x = '\\' then doubleFrom start flushed .none .escape m.next cs
    else doubleFrom start (x :: flushed) .none .text m.next cs

/-- Reads a scalar in quotes, at the opening one. -/
def readQuoted (c : Cursor) : ScalarRead :=
  let after := c.advance 1
  if c.at? '"' then doubleFrom c.line [] .none .text after.mark after.rest
  else singleFrom c.line [] .none false after.mark after.rest

/-! ### Blocks of lines -/

/-- What is done with the ends of lines at the end of a block. -/
inductive Chomping
  | strip
  | clip
  | keep
deriving DecidableEq, Repr, Inhabited

/-- The head of a block: whether lines are folded, the end, and the indentation if it is given. -/
structure BlockHead where
  folded : Bool
  chomping : Chomping := .clip
  indent : Option Nat := none
deriving DecidableEq, Repr, Inhabited

/-- The indentation in the head of a block. -/
def readIndent (start : Nat) (c : Cursor) : Except SyntaxError (Option Nat × Cursor) :=
  match c.rest.head? with
  | some x =>
    if x = '0' then .error (lexical start c.line .zeroIndentation)
    else if x.isDigit then .ok (some (x.toNat - 48), c.advance 1)
    else .ok (none, c)
  | none => .ok (none, c)

/-- The chomping in the head of a block. -/
def readChomping (c : Cursor) : Option Chomping × Cursor :=
  if c.at? '+' then (some .keep, c.advance 1)
  else if c.at? '-' then (some .strip, c.advance 1)
  else (none, c)

/-- Reads the head of a block, at its first character; the chomping and the indentation come in
either order. The cursor is left at the next line. -/
def readBlockHead (c : Cursor) : Except SyntaxError (BlockHead × Cursor) := do
  let (chomp, d) := readChomping (c.advance 1)
  let (indent, d) ← readIndent c.line d
  let (chomp, d) := match chomp with
    | some ch => (some ch, d)
    | none => readChomping d
  let d := (d.dropWhile isGap).dropComment
  if atLineEnd d.rest then return (⟨c.at? '>', chomp.getD .clip, indent⟩, d.dropBreak)
  else throw (lexical c.line d.line .expectedLineEnd)

/-- The empty lines in front of a block whose head does not give the indentation. -/
structure BlockStart where
  /-- The greatest indentation of those lines and of the first one that is not empty. -/
  indent : Nat
  /-- The ends of the empty lines. -/
  breaks : List Char
  stop : Cursor
deriving DecidableEq, Repr, Inhabited

/-- Reads the empty lines in front of a block, and the indentation of the line after them. -/
def blockStart (start : Nat) : (indent : Nat) → (breaks : List Char) → Mark → List Char →
    Except SyntaxError BlockStart
  | indent, breaks, m, [] => .ok ⟨max indent m.column, breaks, ⟨m, []⟩⟩
  | indent, breaks, m, x :: cs =>
    if x = ' ' then blockStart start indent breaks m.next cs
    else if x = '\t' then .error (lexical start m.line .tabInBlockScalar)
    else if isBreak x then
      blockStart start (max indent m.column) (breaks ++ [breakText x]) m.newline cs
    else .ok ⟨max indent m.column, breaks, ⟨m, x :: cs⟩⟩

/-- What has been read of a block: its text with the last character first, the end of its last line
unless it has been written, whether that line began with a blank, and the ends of the empty lines
since. -/
structure BlockText where
  text : List Char := []
  pending : Option Char := none
  blankStart : Bool := false
  empties : List Char := []
deriving DecidableEq, Repr, Inhabited

namespace BlockText

/-- Begins a line with a character. Between two lines that do not begin with a blank a newline is
folded. -/
def beginLine (folded : Bool) (b : BlockText) (x : Char) : BlockText :=
  let blank := isGap x
  let joint : List Char :=
    if folded && !b.blankStart && !blank && b.pending == some '\n' then
      (if b.empties.isEmpty then [' '] else [])
    else b.pending.toList
  { text := x :: (b.empties.reverse ++ joint ++ b.text), blankStart := blank }

/-- Ends a block. -/
def finish (b : BlockText) (c : Chomping) : List Char :=
  b.text.reverse ++ (match c with
    | .strip => []
    | .clip => b.pending.toList
    | .keep => b.pending.toList ++ b.empties)

end BlockText

/-- Reads the lines of a block, up to the first that is less indented; `inside` tells whether the
indentation of the line has been passed. -/
def blockFrom (folded : Bool) (indent start : Nat) :
    BlockText → (inside : Bool) → Mark → List Char → Except SyntaxError (BlockText × Cursor)
  | b, _, m, [] => .ok (b, ⟨m, []⟩)
  | b, true, m, x :: cs =>
    if isBreak x then
      blockFrom folded indent start { b with pending := some (breakText x) } false m.newline cs
    else blockFrom folded indent start { b with text := x :: b.text } true m.next cs
  | b, false, m, x :: cs =>
    if x = ' ' ∧ m.column < indent then blockFrom folded indent start b false m.next cs
    else if x = '\t' ∧ m.column < indent then .error (lexical start m.line .tabInBlockScalar)
    else if isBreak x then
      blockFrom folded indent start { b with empties := b.empties ++ [breakText x] } false
        m.newline cs
    else if m.column = indent then
      blockFrom folded indent start (b.beginLine folded x) true m.next cs
    else .ok (b, ⟨m, x :: cs⟩)

/-- Reads a block of lines, at its head; `margin` is the indentation of the construct around it. -/
def readBlock (margin : Int) (c : Cursor) : ScalarRead := do
  let (head, d) ← readBlockHead c
  let (indent, breaks, d) ← match head.indent with
    | some n => pure ((max margin 0).toNat + n, [], d)
    | none => do
      let s ← blockStart c.line 0 [] d.mark d.rest
      pure (max s.indent (max (margin + 1) 1).toNat, s.breaks, s.stop)
  let (b, d) ← blockFrom head.folded indent c.line { empties := breaks } false d.mark d.rest
  return ⟨b.finish head.chomping, d, true⟩

end BranchFusion.Config
