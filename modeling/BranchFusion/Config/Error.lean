import BranchFusion.Text.Blank

/-!
# Malformed documents

Configuration files are documents in YAML. What is wrong with the text of a document is a *problem*,
and a problem is reported with a line where that line is not the first.

There are two habits of counting. A problem with the characters is reported at the line, counted
from one, where the construct begins that it was met in. A problem with the structure is reported at
that line counted from zero. Where that construct begins in the first line, the line of the problem
itself is used.
-/

namespace BranchFusion.Config

/-- What can be wrong with the text of a document. -/
inductive Problem
  | controlCharacter
  /-- A quoted scalar is not closed. -/
  | unclosedQuote
  /-- A quoted scalar holds a line that marks a document. -/
  | markerInQuote
  | unknownEscape
  | malformedEscape
  | invalidCode
  | tabInIndentation
  | tabInBlockScalar
  /-- A line goes on where it should be over. -/
  | expectedLineEnd
  | zeroIndentation
  /-- A character that begins nothing. -/
  | strayCharacter
  /-- A colon where no value may stand. -/
  | strayValue
  /-- A dash where no entry may stand. -/
  | strayEntry
  /-- A question mark where no key may stand. -/
  | strayKey
  /-- A key is not followed by a colon. -/
  | missingColon
  | expectedKey
  | expectedEntry
  | expectedContent
  | expectedCommaOrBracket
  | expectedCommaOrBrace
  /-- A directive does not lead to a document. -/
  | expectedDocument
  | expectedDirectiveName
  | malformedDirectiveName
  | unknownDirective
  | expectedVersion
  | expectedVersionPoint
  | longVersion
  | repeatedVersion
  | otherVersion
  | repeatedHandle
  | unknownHandle
  | expectedAnchorName
  | expectedHandle
  | expectedBlank
  | expectedBlankOrLineEnd
  | expectedTagText
  | unclosedTag
  /-- A percent sign in a tag without two digits. -/
  | expectedOctet
  /-- An octet in a tag that begins no character. -/
  | leadingOctet
  /-- An octet in a tag that continues no character. -/
  | trailingOctet
  /-- An alias for which there is no anchor. -/
  | unknownAnchor (name : String)
  | tooDeep
deriving DecidableEq, Repr

/-- The greatest depth of brackets, and of indentation. -/
def maxDepth : Nat := 10000

/-- The wording of a problem. -/
def Problem.message : Problem → String
  | .controlCharacter => "control characters are not allowed"
  | .unclosedQuote => "found unexpected end of stream"
  | .markerInQuote => "found unexpected document indicator"
  | .unknownEscape => "found unknown escape character"
  | .malformedEscape => "did not find expected hexdecimal number"
  | .invalidCode => "found invalid Unicode character escape code"
  | .tabInIndentation => "found a tab character that violates indentation"
  | .tabInBlockScalar => "found a tab character where an indentation space is expected"
  | .expectedLineEnd => "did not find expected comment or line break"
  | .zeroIndentation => "found an indentation indicator equal to 0"
  | .strayCharacter => "found character that cannot start any token"
  | .strayValue => "mapping values are not allowed in this context"
  | .strayEntry => "block sequence entries are not allowed in this context"
  | .strayKey => "mapping keys are not allowed in this context"
  | .missingColon => "could not find expected ':'"
  | .expectedKey => "did not find expected key"
  | .expectedEntry => "did not find expected '-' indicator"
  | .expectedContent => "did not find expected node content"
  | .expectedCommaOrBracket => "did not find expected ',' or ']'"
  | .expectedCommaOrBrace => "did not find expected ',' or '\x7d'"
  | .expectedDocument => "did not find expected <document start>"
  | .expectedDirectiveName => "could not find expected directive name"
  | .malformedDirectiveName => "found unexpected non-alphabetical character"
  | .unknownDirective => "found unknown directive name"
  | .expectedVersion => "did not find expected version number"
  | .expectedVersionPoint => "did not find expected digit or '.' character"
  | .longVersion => "found extremely long version number"
  | .repeatedVersion => "found duplicate %YAML directive"
  | .otherVersion => "found incompatible YAML document"
  | .repeatedHandle => "found duplicate %TAG directive"
  | .unknownHandle => "found undefined tag handle"
  | .expectedAnchorName => "did not find expected alphabetic or numeric character"
  | .expectedHandle => "did not find expected '!'"
  | .expectedBlank => "did not find expected whitespace"
  | .expectedBlankOrLineEnd => "did not find expected whitespace or line break"
  | .expectedTagText => "did not find expected tag URI"
  | .unclosedTag => "did not find the expected '>'"
  | .expectedOctet => "did not find URI escaped octet"
  | .leadingOctet => "found an incorrect leading UTF-8 octet"
  | .trailingOctet => "found an incorrect trailing UTF-8 octet"
  | .unknownAnchor name => "unknown anchor '" ++ name ++ "' referenced"
  | .tooDeep => "exceeded max depth of " ++ toString maxDepth

/-- A problem with the line it is reported at, if it is. -/
structure SyntaxError where
  line : Option Nat
  problem : Problem
deriving DecidableEq, Repr

/-- The wording of an error. -/
def SyntaxError.message (e : SyntaxError) : String :=
  "yaml: " ++ (match e.line with
    | some n => "line " ++ toString n ++ ": "
    | none => "") ++ e.problem.message

/-- The line to report: that of the construct, unless it is the first, or that of the problem. Lines
are counted from zero here. -/
def reportedLine (construct problem : Nat) : Option Nat :=
  if construct ≠ 0 then some construct else if problem ≠ 0 then some problem else none

/-- A problem with the characters of a construct. -/
def lexical (construct at' : Nat) (p : Problem) : SyntaxError :=
  ⟨(reportedLine construct at').map (· + 1), p⟩

/-- A problem with the structure of a construct. -/
def structural (construct at' : Nat) (p : Problem) : SyntaxError :=
  ⟨reportedLine construct at', p⟩

end BranchFusion.Config
