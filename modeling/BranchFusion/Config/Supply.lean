import BranchFusion.Config.Token

/-!
# The supply of tokens

Tokens are made on demand, a few ahead of the one that is looked at. Looking ahead is needed because
a key shows as one only by the colon after it: a token that may begin a key is a *candidate*, and it
is not handed out before it is known whether it does. Then the token of a key, and that of a mapping
if one begins here, is put into the queue in front of it.

The supply also knows the layout. Outside of brackets the *margin* is the column of the innermost
block; a token to the right of it may begin a block, and a token to the left of it ends some.
-/

namespace BranchFusion.Config

/-- A token that may turn out to begin a key. -/
structure Candidate where
  /-- Whether it still may. A candidate has to be met by a colon in its line, soon enough. -/
  possible : Bool := false
  /-- Whether it has to, since it stands at the margin of a block. -/
  required : Bool := false
  /-- The number of the token. -/
  number : Nat := 0
  mark : Mark := {}
deriving DecidableEq, Repr, Inhabited

/-- The supply of tokens of a text. -/
structure Supply where
  cursor : Cursor
  /-- Tokens that have been made and not taken. -/
  queue : List Token := []
  /-- The number of tokens that have been taken. -/
  taken : Nat := 0
  started : Bool := false
  /-- Whether a construct may begin at the cursor. -/
  fresh : Bool := true
  /-- The column of the innermost block; -1 outside of all blocks. -/
  margin : Int := -1
  /-- The margins of the blocks around it, from the inside out. -/
  outer : List Int := []
  /-- The latest candidate of each level of brackets, from the outside in. -/
  candidates : Array Candidate := #[{}]
  /-- The numbers of the tokens that may begin a key, each with the level of its candidate. -/
  watched : List (Nat × Nat) := []
  /-- Whether each line gives up its first character. -/
  doubled : Bool := false
  /-- Whether the text breaks off, because it goes on with what cannot be read. -/
  cut : Bool := false
deriving Repr, Inhabited

namespace Supply

/-- The number of brackets around the cursor. -/
def depth (s : Supply) : Nat := s.candidates.size - 1

/-- Whether the cursor stands in brackets. -/
def brackets (s : Supply) : Bool := 0 < s.depth

/-- The number of the next token that is made. -/
def nextNumber (s : Supply) : Nat := s.taken + s.queue.length

/-- The token that begins at the cursor. -/
def token (s : Supply) (k : TokenKind) : Token := ⟨k, s.cursor.line⟩

/-- Puts a token at the end of the queue. -/
def push (s : Supply) (t : Token) : Supply := { s with queue := s.queue ++ [t] }

/-- Puts a token in front of that with a number, or at the end of the queue if that has been
taken. -/
def insert (s : Supply) (number : Nat) (t : Token) : Supply :=
  if number < s.taken then s.push t
  else
    let n := number - s.taken
    { s with queue := s.queue.take n ++ t :: s.queue.drop n }

/-! ### Candidates -/

/-- Forgets that a token may begin a key. -/
def unwatch (s : Supply) (number : Nat) : Supply :=
  { s with watched := s.watched.eraseP fun w => w.1 = number }

/-- The candidate of a level. -/
def candidate? (s : Supply) (level : Nat) : Option Candidate := s.candidates[level]?

/-- Changes the candidate of a level. -/
def setCandidate (s : Supply) (level : Nat) (c : Candidate) : Supply :=
  { s with candidates := s.candidates.setIfInBounds level c }

/-- The candidate of the current level. -/
def current (s : Supply) : Candidate := (s.candidate? s.depth).getD {}

/-- Changes the candidate of the current level. -/
def setCurrent (s : Supply) (c : Candidate) : Supply := s.setCandidate s.depth c

/-- The problem of a candidate that has to begin a key and does not. -/
def missingColon (s : Supply) (c : Candidate) : SyntaxError :=
  lexical c.mark.line s.cursor.line .missingColon

/-- Whether the candidate of a level may still begin a key: not if its line is over, or if it is too
far back. -/
def check (s : Supply) (level : Nat) : Except SyntaxError (Bool × Supply) :=
  match s.candidate? level with
  | none => .ok (false, s)
  | some c =>
    if !c.possible then .ok (false, s)
    else if c.mark.line < s.cursor.line ∨ c.mark.index + 1024 < s.cursor.mark.index then
      if c.required then .error (s.missingColon c)
      else .ok (false, s.setCandidate level { c with possible := false })
    else .ok (true, s)

/-- Drops the candidate of the current level. -/
def dropCandidate (s : Supply) : Except SyntaxError Supply :=
  let c := s.current
  if !c.possible then .ok s
  else if c.required then .error (s.missingColon c)
  else .ok ((s.setCurrent { c with possible := false }).unwatch c.number)

/-- Makes the next token a candidate, if a construct may begin here. -/
def addCandidate (s : Supply) : Except SyntaxError Supply := do
  if !s.fresh then return s
  let required := !s.brackets && s.margin == (s.cursor.column : Int)
  let t ← s.dropCandidate
  let t := t.setCurrent ⟨true, required, s.nextNumber, s.cursor.mark⟩
  return { t with watched := (s.nextNumber, s.depth) :: t.watched }

/-! ### The layout -/

/-- Begins a block at a column to the right of the margin: its token is put in front of that with a
number. In brackets the layout does not count. -/
def indent (s : Supply) (column number : Nat) (t : Token) : Except SyntaxError Supply :=
  if s.brackets || decide ((column : Int) ≤ s.margin) then .ok s
  else
    let s := { s with outer := s.margin :: s.outer, margin := column }
    if maxDepth < s.outer.length then
      .error (lexical s.current.mark.line s.cursor.line .tooDeep)
    else .ok (s.insert number t)

/-- Ends the blocks to the right of a column. -/
def unindentFrom (column : Int) (end' : Token) : (margin : Int) → (outer : List Int) →
    List Token × Int × List Int
  | margin, [] => ([], margin, [])
  | margin, m :: outer =>
    if margin ≤ column then ([], margin, m :: outer)
    else
      let (ends, rest) := unindentFrom column end' m outer
      (end' :: ends, rest)

/-- Ends the blocks to the right of a column. In brackets the layout does not count. -/
def unindent (s : Supply) (column : Int) : Supply :=
  if s.brackets then s
  else
    let (ends, margin, outer) := unindentFrom column (s.token .blockEnd) s.margin s.outer
    { s with queue := s.queue ++ ends, margin, outer }

/-! ### Making tokens -/

/-- Makes a token of some characters of the line. -/
def sign (s : Supply) (k : TokenKind) (length : Nat) : Supply :=
  { s.push (s.token k) with cursor := s.cursor.advance length }

/-- Makes the token of the end of the text, which is reported in a line of its own. -/
def makeEnd (s : Supply) : Except SyntaxError Supply := do
  let m := s.cursor.mark
  let m := if m.column = 0 then m else { m with line := m.line + 1, column := 0 }
  let s ← ({ s with cursor := ⟨m, []⟩ }.unindent (-1)).dropCandidate
  return { s.push (s.token .textEnd) with fresh := false }

/-- Makes the token of a directive. -/
def makeDirective (s : Supply) : Except SyntaxError Supply := do
  let s ← (s.unindent (-1)).dropCandidate
  let (d, stop) ← readDirective s.cursor
  return { s.push (s.token (.directive d)) with fresh := false, cursor := stop }

/-- Makes the token of the mark of a document. -/
def makeMarker (s : Supply) (k : TokenKind) : Except SyntaxError Supply := do
  let s ← (s.unindent (-1)).dropCandidate
  return { s with fresh := false }.sign k 3

/-- Makes the token of an opening bracket. -/
def makeOpening (s : Supply) (k : TokenKind) : Except SyntaxError Supply := do
  let s ← s.addCandidate
  let level : Candidate := { number := s.nextNumber, mark := s.cursor.mark }
  let s := { s with candidates := s.candidates.push level }
  if maxDepth < s.depth then throw (lexical s.cursor.line s.cursor.line .tooDeep)
  return { s with fresh := true }.sign k 1

/-- Makes the token of a closing bracket. -/
def makeClosing (s : Supply) (k : TokenKind) : Except SyntaxError Supply := do
  let s ← s.dropCandidate
  let s :=
    if s.brackets then
      { s.unwatch s.current.number with candidates := s.candidates.pop }
    else s
  return { s with fresh := false }.sign k 1

/-- Makes the token of a comma. -/
def makeComma (s : Supply) : Except SyntaxError Supply := do
  let s ← s.dropCandidate
  return { s with fresh := true }.sign .comma 1

/-- Begins a block at the cursor, if it stands to the right of the margin; `p` is the problem if no
construct may begin there. -/
def beginBlock (s : Supply) (k : TokenKind) (p : Problem) : Except SyntaxError Supply :=
  if s.brackets then .ok s
  else if !s.fresh then .error (lexical s.cursor.line s.cursor.line p)
  else s.indent s.cursor.column s.nextNumber (s.token k)

/-- Makes the token of a dash. -/
def makeEntry (s : Supply) : Except SyntaxError Supply := do
  let s ← (← s.beginBlock .blockSequence .strayEntry).dropCandidate
  return { s with fresh := true }.sign .entry 1

/-- Makes the token of a question mark. -/
def makeKey (s : Supply) : Except SyntaxError Supply := do
  let s ← (← s.beginBlock .blockMapping .strayKey).dropCandidate
  return { s with fresh := !s.brackets }.sign .key 1

/-- Makes the token of a colon. If there is a candidate for a key, it is one. -/
def makeValue (s : Supply) : Except SyntaxError Supply := do
  let (valid, s) ← s.check s.depth
  if valid then
    let c := s.current
    let s := s.insert c.number ⟨.key, c.mark.line⟩
    let s ← s.indent c.mark.column c.number ⟨.blockMapping, c.mark.line⟩
    let s := (s.setCurrent { c with possible := false }).unwatch c.number
    return { s with fresh := false }.sign .value 1
  else
    let s ← s.beginBlock .blockMapping .strayValue
    return { s with fresh := !s.brackets }.sign .value 1

/-- Makes a token that may begin a key, from what a reader makes of the characters. -/
def makePart {α : Type} (s : Supply) (read : Cursor → Except SyntaxError (α × Cursor))
    (k : α → TokenKind) : Except SyntaxError Supply := do
  let s ← s.addCandidate
  let (x, stop) ← read s.cursor
  return { s.push (s.token (k x)) with fresh := false, cursor := stop }

/-- Makes the token of a scalar that may begin a key. -/
def makeScalar (s : Supply) (plain : Bool) (read : Cursor → ScalarRead) :
    Except SyntaxError Supply := do
  let s ← s.addCandidate
  let r ← read s.cursor
  return { s.push (s.token (.scalar plain (String.ofList r.text))) with
    fresh := r.fresh, cursor := r.stop }

/-- Makes the token of a block of lines. -/
def makeBlock (s : Supply) : Except SyntaxError Supply := do
  let s ← s.dropCandidate
  let r ← readBlock s.margin s.cursor
  return { s.push (s.token (.scalar false (String.ofList r.text))) with
    fresh := true, cursor := r.stop }

/-- Whether a character can begin a plain scalar, given what follows it. -/
def beginsPlain (brackets : Bool) (x : Char) (cs : List Char) : Bool :=
  if x = '-' then !(cs.head?.any isGap)
  else if x = '?' ∨ x = ':' then !brackets && !startsBlank cs
  else !(isGap x || isBreak x || isFlowMark x ||
    x ∈ ['#', '&', '*', '!', '|', '>', '\'', '"', '%', '@', '\x60'])

/-- Makes the token that a character begins; the text after it decides some cases. -/
def makeFrom (s : Supply) (x : Char) (cs : List Char) : Except SyntaxError Supply :=
  let sign? := s.brackets || startsBlank cs
  if x = '[' then s.makeOpening .openBracket
  else if x = '\x7b' then s.makeOpening .openBrace
  else if x = ']' then s.makeClosing .closeBracket
  else if x = '\x7d' then s.makeClosing .closeBrace
  else if x = ',' then s.makeComma
  else if x = '-' ∧ startsBlank cs then s.makeEntry
  else if x = '?' ∧ sign? then s.makeKey
  else if x = ':' ∧ sign? then s.makeValue
  else if x = '*' then s.makePart readAnchor .alias
  else if x = '&' then s.makePart readAnchor .anchor
  else if x = '!' then s.makePart readTag .tag
  else if (x = '|' ∨ x = '>') ∧ !s.brackets then s.makeBlock
  else if x = '\'' ∨ x = '"' then s.makeScalar false readQuoted
  else if beginsPlain s.brackets x cs then
    s.makeScalar true (readPlain s.brackets (s.margin + 1).toNat)
  else .error (lexical s.cursor.line s.cursor.line .strayCharacter)

/-- Passes over a comment in the line of the token that was just made, unless that has run past the
end of its line or is a dash. -/
def dropComment (s : Supply) : Supply :=
  match s.queue.getLast?.map Token.kind with
  | some .entry => s
  | some (.scalar _ _) => if s.fresh then s else { s with cursor := s.cursor.dropLineComment }
  | _ => { s with cursor := s.cursor.dropLineComment }

/-- Makes the token at the cursor. -/
def makeHere (s : Supply) : Except SyntaxError Supply :=
  match s.cursor.rest with
  | [] => s.makeEnd
  | x :: cs =>
    if s.cursor.column = 0 ∧ x = '%' then s.makeDirective
    else match marker? s.cursor.mark s.cursor.rest with
      | some '-' => s.makeMarker .documentStart
      | some _ => s.makeMarker .documentEnd
      | none => (s.makeFrom x cs).map dropComment

/-- Makes the token at the cursor of a text that breaks off. There have to be four characters to
tell what token it is, and the token has to end before the text breaks off. -/
def makeBeforeCut (s : Supply) : Except SyntaxError Supply :=
  let failure : SyntaxError := ⟨none, .controlCharacter⟩
  if s.cursor.rest.length < 4 then .error failure
  else match s.makeHere with
    | .ok t => if t.cursor.rest.isEmpty then .error failure else .ok t
    | .error e => .error (if e.problem = .unclosedQuote then failure else e)

/-- **Makes the next token**, and those in front of it that only the layout shows. -/
def make (s : Supply) : Except SyntaxError Supply :=
  if !s.started then .ok { s.push ⟨.textStart, 0⟩ with started := true }
  else
    let (cursor, fresh) :=
      skipFrom s.brackets s.doubled .blanks s.fresh s.cursor.mark s.cursor.rest
    let s := { s with cursor, fresh }.unindent cursor.column
    if s.cut then s.makeBeforeCut else s.makeHere

/-! ### Taking tokens -/

/-- Makes tokens until three are in the queue and the first one cannot begin a key any more. -/
def fillFrom : Nat → Supply → Except SyntaxError Supply
  | 0, s => .ok s
  | fuel + 1, s =>
    if s.queue.length ≤ 2 then do fillFrom fuel (← s.make)
    else match s.watched.find? fun w => w.1 = s.taken with
      | none => .ok s
      | some w => do
        let (valid, s) ← s.check w.2
        if valid then fillFrom fuel (← s.make) else return s

/-- The supply with a first token that can be taken. Every token but those at the end takes a
character, which bounds the search. -/
def fill (s : Supply) : Except SyntaxError Supply :=
  s.fillFrom (s.cursor.rest.length + 8)

/-- Takes a token off the queue. -/
def take (s : Supply) : Supply :=
  { s with queue := s.queue.drop 1, taken := s.taken + 1 }

end Supply

/-! ### Texts -/

/-- The characters that a text may hold. -/
def isAllowed (c : Char) : Bool :=
  let n := c.toNat
  n == 9 || n == 10 || n == 13 || (0x20 ≤ n && n ≤ 0x7E) || n == 0x85 ||
    (0xA0 ≤ n && n ≤ 0xFFFD) || 0x10000 ≤ n

/-- The number of bytes of a text that are taken at a time. -/
def portionSize : Nat := 512

/-- The part of a text that can be read, and whether the text goes on. A text is taken in portions,
and a portion with a character that is not allowed is not read at all; `room` is the number of bytes
that are left in the portion, and `portion` what has been taken of it, the last character first. -/
def readableFrom : (room : Nat) → (portion : List Char) → List Char → List Char × Bool
  | _, portion, [] => (portion.reverse, false)
  | room, portion, c :: cs =>
    if c.utf8Size ≤ room then
      if isAllowed c then readableFrom (room - c.utf8Size) (c :: portion) cs else ([], true)
    else
      let (rest, cut) :=
        if isAllowed c then readableFrom (portionSize - c.utf8Size) [c] cs else ([], true)
      (portion.reverse ++ rest, cut)

/-- The text with newlines for carriage returns, alone and together with a newline. -/
def withoutReturns : List Char → List Char
  | '\r' :: '\n' :: cs => '\n' :: withoutReturns cs
  | c :: cs => (if c = '\r' then '\n' else c) :: withoutReturns cs
  | [] => []

/-- Whether a text begins with a byte order mark. -/
def startsMarked (cs : List Char) : Bool := cs.head? == some '\ufeff'

/-- **The supply of tokens of a text.** A byte order mark at the front does not count. If there is
another one, every line is taken to begin with a mark. -/
def Supply.ofText (s : String) : Except SyntaxError Supply :=
  let cs := s.toList
  let marked := startsMarked cs
  let cs := if marked then cs.drop 1 else cs
  let room := if marked then portionSize - '\ufeff'.utf8Size else portionSize
  let (cs, cut) := readableFrom room [] cs
  if cut && cs.isEmpty then .error ⟨none, .controlCharacter⟩
  else .ok { cursor := { rest := withoutReturns cs }, doubled := startsMarked cs, cut }

end BranchFusion.Config
