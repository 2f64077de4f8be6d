import BranchFusion.Config.Error

/-!
# Places in a document

A *mark* tells a place in a document by numbers, a *cursor* by the text that follows it. Cursors
move forward only: over characters of a line, and over the end of a line.

Four characters end a line: the newline, the next-line character, and the separators of lines and of
paragraphs. Carriage returns do too, but a text that is read holds none: they are newlines by then.
-/

namespace BranchFusion.Config

/-- A place in a document: the number of characters before it, its line and its column, all counted
from zero. -/
structure Mark where
  index : Nat := 0
  line : Nat := 0
  column : Nat := 0
deriving DecidableEq, Repr, Inhabited

namespace Mark

/-- The place after some characters of the line. -/
def skip (m : Mark) (n : Nat) : Mark :=
  { m with index := m.index + n, column := m.column + n }

/-- The place after the next character. -/
def next (m : Mark) : Mark := m.skip 1

/-- The place after the end of the line. -/
def newline (m : Mark) : Mark := ⟨m.index + 1, m.line + 1, 0⟩

end Mark

/-- Spaces and tabs. -/
def isGap (c : Char) : Bool := c == ' ' || c == '\t'

/-- The characters that end a line. -/
def isBreak (c : Char) : Bool :=
  c == '\n' || c == '\u0085' || c == '\u2028' || c == '\u2029'

/-- What the end of a line reads as: a newline, unless it is a separator. -/
def breakText (c : Char) : Char := if c = '\u0085' then '\n' else c

/-- The characters of names: letters, digits, the underscore and the dash. -/
def isNameChar (c : Char) : Bool :=
  c.isAlphanum || c == '_' || c == '-'

/-- Whether a line, or the text, is over. -/
def atLineEnd : List Char → Bool
  | [] => true
  | c :: _ => isBreak c

/-- Whether a text is over or begins with a space, a tab or the end of a line. -/
def startsBlank : List Char → Bool
  | [] => true
  | c :: _ => isGap c || isBreak c

/-- A place in a document, with the text that follows. -/
structure Cursor where
  mark : Mark := {}
  rest : List Char
deriving DecidableEq, Repr, Inhabited

namespace Cursor

/-- The line of a cursor. -/
def line (c : Cursor) : Nat := c.mark.line

/-- The column of a cursor. -/
def column (c : Cursor) : Nat := c.mark.column

/-- Passes over some characters of the line. -/
def advance (c : Cursor) (n : Nat) : Cursor := ⟨c.mark.skip n, c.rest.drop n⟩

/-- Passes over the characters of a kind: what they are, and the place after them. -/
def span (p : Char → Bool) (c : Cursor) : List Char × Cursor :=
  let run := c.rest.takeWhile p
  (run, c.advance run.length)

/-- Passes over the characters of a kind. -/
def dropWhile (p : Char → Bool) (c : Cursor) : Cursor := (c.span p).2

/-- Passes over the end of the line, if the cursor stands there. -/
def dropBreak (c : Cursor) : Cursor :=
  match c.rest with
  | x :: cs => if isBreak x then ⟨c.mark.newline, cs⟩ else c
  | [] => c

/-- Whether the cursor stands at a character. -/
def at? (c : Cursor) (x : Char) : Bool := c.rest.head? == some x

/-- Passes over a comment, if the cursor stands at one, up to the end of the line. -/
def dropComment (c : Cursor) : Cursor :=
  if c.at? '#' then c.dropWhile (fun x => !isBreak x) else c

/-- Passes over a comment in the rest of the line, and the blanks before it. Blanks alone stay. -/
def dropLineComment (c : Cursor) : Cursor :=
  let after := c.dropWhile isGap
  if after.at? '#' then after.dropComment else c

end Cursor

/-- The mark of a document at a place: three dashes or dots alone at the start of a line. -/
def marker? (m : Mark) (cs : List Char) : Option Char :=
  if m.column = 0 then
    match cs with
    | '-' :: '-' :: '-' :: cs => if startsBlank cs then some '-' else none
    | '.' :: '.' :: '.' :: cs => if startsBlank cs then some '.' else none
    | _ => none
  else none

/-! ### What stands between two tokens -/

/-- What is passed over between two tokens. -/
inductive Filler
  /-- Blanks and the ends of lines. -/
  | blanks
  /-- A comment, up to the end of its line. -/
  | comment
  /-- Blanks and lines that lead to another comment. -/
  | between
deriving DecidableEq, Repr, Inhabited

/-- Whether only blanks and empty lines stand before another comment. -/
def leadsToComment (cs : List Char) : Bool :=
  (cs.dropWhile fun c => isGap c || c == '\n').head? == some '#'

/-- Passes over blanks, comments and the ends of lines, to the next token; the second result tells
whether a construct may begin there. That is so in a new line, outside of brackets. A tab is passed
over in brackets, where no construct may begin, and between two comments. With `doubled`, each line
gives up its first character. -/
def skipFrom (brackets doubled : Bool) :
    Filler → (fresh : Bool) → Mark → List Char → Cursor × Bool
  | _, fresh, m, [] => (⟨m, []⟩, fresh)
  | .blanks, fresh, m, x :: cs =>
    if doubled && m.column == 0 then skipFrom brackets doubled .blanks fresh m.next cs
    else if isBreak x then skipFrom brackets doubled .blanks (fresh || !brackets) m.newline cs
    else if x == ' ' || (x == '\t' && (brackets || !fresh)) then
      skipFrom brackets doubled .blanks fresh m.next cs
    else if x == '#' then skipFrom brackets doubled .comment fresh m.next cs
    else (⟨m, x :: cs⟩, fresh)
  | .comment, fresh, m, x :: cs =>
    if isBreak x then
      if x == '\n' && leadsToComment cs then
        skipFrom brackets doubled .between fresh m.newline cs
      else skipFrom brackets doubled .blanks (fresh || !brackets) m.newline cs
    else skipFrom brackets doubled .comment fresh m.next cs
  | .between, fresh, m, x :: cs =>
    if x == '#' then skipFrom brackets doubled .comment fresh m.next cs
    else skipFrom brackets doubled .between fresh (if isBreak x then m.newline else m.next) cs

end BranchFusion.Config
