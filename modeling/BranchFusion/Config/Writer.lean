import BranchFusion.Config.Cursor
import BranchFusion.Config.Meaning
import BranchFusion.Text.Quoted

/-!
# Writing scalars

A text is written plain if it reads back as the same text. It is put in double quotes if it would
read as something else than a text, or if it holds characters that have to be escaped; in single
quotes if only its form is in the way, such as a leading blank or a colon; and as a block of lines
if it has several lines. Bytes that encode no text are written in base 64, with a tag that says so.
-/

namespace BranchFusion.Config.Writer

/-- Characters that are written as they are. -/
def isPlainChar (c : Char) : Bool :=
  let n := c.toNat
  n == 10 || (0x20 ≤ n && n ≤ 0x7E) || (0xA0 ≤ n && n ≤ 0xFFFD && n ≠ 0xFEFF)

/-- Characters that end a line, carriage returns among them. -/
def endsLine (c : Char) : Bool := isBreak c || c == '\r'

/-- Characters that cannot begin a plain scalar. -/
def cannotBegin (c : Char) : Bool :=
  c ∈ ['#', ',', '[', ']', '\x7b', '\x7d', '&', '*', '!', '|', '>', '\'', '"', '%', '@', '\x60']

/-- Whether a text is over or begins with a space or a tab. -/
def blankFollows : List Char → Bool
  | [] => true
  | c :: _ => c == ' ' || c == '\t'

/-- Whether a colon or a comment sign stands where it would be read as one; `blank` tells whether a
blank precedes. -/
def marksInside : (blank : Bool) → List Char → Bool
  | _, [] => false
  | blank, c :: cs =>
    (c == ':' && blankFollows cs) || (c == '#' && blank) ||
      marksInside (c == ' ' || c == '\t' || endsLine c) cs

/-- Whether a text has the form of a plain scalar. -/
def hasPlainForm (cs : List Char) : Bool :=
  match cs with
  | [] => true
  | c :: rest =>
    !(['-', '-', '-'].isPrefixOf cs || ['.', '.', '.'].isPrefixOf cs || cannotBegin c ||
      ((c == '?' || c == ':' || c == '-') && blankFollows rest) || marksInside false rest ||
      c == ' ' || cs.getLast? == some ' ' || cs.any endsLine)

/-- Whether two characters of the given kinds stand side by side. -/
def neighbours (p q : Char → Bool) : List Char → Bool
  | c :: d :: cs => (p c && q d) || neighbours p q (d :: cs)
  | _ => false

/-- Whether a text can be written in single quotes, apart from the ends of its lines. -/
def fitsSingleQuotes (cs : List Char) : Bool :=
  cs.all isPlainChar && !neighbours endsLine (· == ' ') cs && !neighbours (· == ' ') endsLine cs

/-- Whether a text can be written as a block of lines. -/
def fitsBlock (cs : List Char) : Bool :=
  cs.all (fun c => isPlainChar c || c == '\t') && cs.getLast? != some ' ' &&
    !neighbours (· == ' ') endsLine cs

/-- Whether a text looks like a number in base sixty, which older readers know. -/
def isBaseSixty (s : String) : Bool :=
  let (_, cs) := Text.Numeral.splitSign s.toList
  let digit (c : Char) : Bool := c.isDigit || c == '_'
  match cs with
  | [] => false
  | c :: _ =>
    let tail := cs.dropWhile digit
    let parts := ((String.ofList (tail.takeWhile (· != '.'))).splitOn ":").map String.toList
    let fraction := (tail.dropWhile (· != '.')).drop 1
    c.isDigit && tail.head? == some ':' && fraction.all digit &&
      (parts.drop 1).all fun p =>
        match p with
        | [d] => d.isDigit
        | [d, e] => '0' ≤ d && d ≤ '5' && e.isDigit
        | _ => false

/-- Whether a text, written plain, is read as a text by every reader. -/
def readsAsText (s : String) : Bool :=
  Meaning.ofPlain s = .text && !isBaseSixty s && !(s ∈ oldTrueWords) && !(s ∈ oldFalseWords)

/-- A character in double quotes; with `every`, also if it could stand for itself. -/
def escapeChar (every : Bool) (c : Char) : List Char :=
  if c = '"' ∨ c = '\\' then ['\\', c]
  else if !every && isPlainChar c && !endsLine c then [c]
  else match c.toNat with
    | 0 => ['\\', '0']
    | 7 => ['\\', 'a']
    | 8 => ['\\', 'b']
    | 9 => ['\\', 't']
    | 10 => ['\\', 'n']
    | 11 => ['\\', 'v']
    | 12 => ['\\', 'f']
    | 13 => ['\\', 'r']
    | 27 => ['\\', 'e']
    | 0x85 => ['\\', 'N']
    | 0xA0 => ['\\', '_']
    | 0x2028 => ['\\', 'L']
    | 0x2029 => ['\\', 'P']
    | n =>
      let (mark, width) := if n ≤ 0xFF then ('x', 2) else if n ≤ 0xFFFF then ('u', 4) else ('U', 8)
      '\\' :: mark :: (Text.hexDigits width n).map Char.toUpper

/-- A text in double quotes. If it begins with a byte order mark, every character is escaped. -/
def doubleQuoted (s : String) : String :=
  let every := s.toList.head? == some '\ufeff'
  String.ofList ('"' :: s.toList.flatMap (escapeChar every) ++ ['"'])

/-- The indentation of the lines of a scalar. -/
def margin : List Char := [' ', ' ', ' ', ' ']

/-- What stands between single quotes: a quote is written twice, and a line after the first is
indented; `broken` tells that a line has just ended. -/
def singleBody : (broken : Bool) → List Char → List Char
  | _, [] => []
  | broken, c :: cs =>
    if endsLine c then c :: singleBody true cs
    else (if broken then margin else []) ++ (if c = '\'' then [c, c] else [c]) ++
      singleBody false cs

/-- A text in single quotes. -/
def singleQuoted (s : String) : String :=
  String.ofList ('\'' :: singleBody false s.toList ++ ['\''])

/-- How a text ends, for the head of a block: without the end of a line, with one, or with more. A
text that is the end of a line counts as the last. -/
def chompingSign (cs : List Char) : List Char :=
  match cs.reverse with
  | [] => ['-']
  | [c] => if endsLine c then ['+'] else ['-']
  | c :: d :: _ => if !endsLine c then ['-'] else if endsLine d then ['+'] else []

/-- The lines of a block: each that is not empty is indented, and the first of all goes into a new
line. An empty first line is the one of the head. -/
def blockBody : (head broken : Bool) → List Char → List Char
  | _, _, [] => []
  | head, broken, c :: cs =>
    if endsLine c then c :: blockBody false true cs
    else (if head then ['\n'] else []) ++ (if broken then margin else []) ++
      c :: blockBody false false cs

/-- A text as a block of lines. The head tells how the text ends, and gives the indentation where
the first line does not show it. -/
def block (s : String) : String :=
  let cs := s.toList
  let hint := match cs with
    | c :: _ => if c = ' ' || endsLine c then ['4'] else []
    | [] => []
  String.ofList ('|' :: hint ++ chompingSign cs ++ blockBody true true cs)

/-- **The written form of a text.** -/
def scalar (s : String) : String :=
  let cs := s.toList
  if cs.contains '\n' then (if fitsBlock cs then block s else doubleQuoted s)
  else if !readsAsText s then doubleQuoted s
  else if !fitsSingleQuotes cs then doubleQuoted s
  else if hasPlainForm cs then s
  else singleQuoted s

/-- The number of characters in a line of encoded bytes. -/
def encodedWidth : Nat := 70

/-- Cuts encoded bytes into lines. -/
def encodedLines : Nat → List Char → List Char
  | _, [] => ['\n']
  | 0, c :: cs => '\n' :: c :: encodedLines (encodedWidth - 1) cs
  | n + 1, c :: cs => c :: encodedLines n cs

/-- The written form of bytes that encode no text: base 64, as a block of lines if it is long. -/
def encoded (b : Text.Bytes) : String :=
  let cs := Text.Base64.encode b
  Tag.binary.name ++ " " ++
    (if cs.length < encodedWidth then String.ofList cs
      else block (String.ofList (encodedLines encodedWidth cs)))

/-- **The written form of bytes**: that of the text they encode, if they do. -/
def written (b : Text.Bytes) : String :=
  match b.text? with
  | some s => scalar s
  | none => encoded b

/-- Ends the last line of a text, unless it is over. -/
def endLine (s : String) : String :=
  if s.toList.getLast?.any endsLine then s else s ++ "\n"

end BranchFusion.Config.Writer
