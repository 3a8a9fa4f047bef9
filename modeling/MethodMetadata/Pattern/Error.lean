import MethodMetadata.Pattern.Span
import MethodMetadata.Text.Split

/-! What can be wrong with a pattern, and how that is shown below the pattern. -/
namespace MethodMetadata.Pattern

/-- What is wrong with a part of a pattern. -/
inductive Flaw
  | classEscape
  | classRangeOrder
  | classRangeBoundary
  | classUnclosed
  | decimalInvalid
  | hexEmpty
  | hexInvalid
  | hexDigit
  | escapeUnfinished
  | escapeUnknown
  | flagNegationDangling
  | flagTwice
  | flagNegationTwice
  | flagsUnfinished
  | flagUnknown
  | groupNameTwice
  | groupNameEmpty
  | groupNameCharacter
  | groupNameUnclosed
  | groupUnclosed
  | groupUnopened
  | nestedTooDeep (most : Nat)
  | countOrder
  | countMissing
  | countUnclosed
  | nothingToRepeat
  | boundaryUnclosed
  | boundaryUnknown
  | boundaryOrCountUnfinished
  | propertyInvalid
  | backreference
  | lookAround
  | noUnicodeHere
  | brokenText
  | propertyNotFound
  | propertyValueNotFound
  | unicodeShorthand
  | unicodeCase
  deriving DecidableEq, Repr

def Flaw.message : Flaw → String
  | .classEscape => "invalid escape sequence found in character class"
  | .classRangeOrder => "invalid character class range, the start must be <= the end"
  | .classRangeBoundary => "invalid range boundary, must be a literal"
  | .classUnclosed => "unclosed character class"
  | .decimalInvalid => "decimal literal invalid"
  | .hexEmpty => "hexadecimal literal empty"
  | .hexInvalid => "hexadecimal literal is not a Unicode scalar value"
  | .hexDigit => "invalid hexadecimal digit"
  | .escapeUnfinished => "incomplete escape sequence, reached end of pattern prematurely"
  | .escapeUnknown => "unrecognized escape sequence"
  | .flagNegationDangling => "dangling flag negation operator"
  | .flagTwice => "duplicate flag"
  | .flagNegationTwice => "flag negation operator repeated"
  | .flagsUnfinished => "expected flag but got end of regex"
  | .flagUnknown => "unrecognized flag"
  | .groupNameTwice => "duplicate capture group name"
  | .groupNameEmpty => "empty capture group name"
  | .groupNameCharacter => "invalid capture group character"
  | .groupNameUnclosed => "unclosed capture group name"
  | .groupUnclosed => "unclosed group"
  | .groupUnopened => "unopened group"
  | .nestedTooDeep most =>
    s!"exceed the maximum number of nested parentheses/brackets ({most})"
  | .countOrder => "invalid repetition count range, the start must be <= the end"
  | .countMissing => "repetition quantifier expects a valid decimal"
  | .countUnclosed => "unclosed counted repetition"
  | .nothingToRepeat => "repetition operator missing expression"
  | .boundaryUnclosed =>
    "special word boundary assertion is either unclosed or contains an invalid character"
  | .boundaryUnknown =>
    "unrecognized special word boundary assertion, valid choices are: start, end, start-half or " ++
      "end-half"
  | .boundaryOrCountUnfinished =>
    "found either the beginning of a special word boundary or a bounded repetition on a \\b with " ++
      "an opening brace, but no closing brace"
  | .propertyInvalid => "invalid Unicode character class"
  | .backreference => "backreferences are not supported"
  | .lookAround => "look-around, including look-ahead and look-behind, is not supported"
  | .noUnicodeHere => "Unicode not allowed here"
  | .brokenText => "pattern can match invalid UTF-8"
  | .propertyNotFound => "Unicode property not found"
  | .propertyValueNotFound => "Unicode property value not found"
  | .unicodeShorthand =>
    "Unicode-aware Perl class not found (make sure the unicode-perl feature is enabled)"
  | .unicodeCase =>
    "Unicode-aware case insensitivity matching is not available (make sure the unicode-case " ++
      "feature is enabled)"

/-- Why a pattern is refused. -/
inductive Error
  /-- A part of it is wrong, perhaps because of an earlier part. -/
  | part (flaw : Flaw) (span : Span) (earlier : Option Span)
  /-- It asks for words in letters of all scripts. -/
  | unicodeWords
  | tooLarge (most : Nat)
  deriving DecidableEq, Repr

namespace Error

/-- The lines of a text. The last one need not have an end. -/
def linesOf (text : List Char) : List (List Char) :=
  let pieces := splitOn '\n' text
  let whole := pieces.dropLast.map fun line =>
    if line.getLast? = some '\r' then line.dropLast else line
  match pieces.getLast? with
  | some [] | none => whole
  | some last => whole ++ [last]

/-- The width of the line numbers, which single lines do without. -/
def numberWidth (lineCount : Nat) : Nat :=
  if lineCount ≤ 1 then 0 else (toString lineCount).length

/-- Marks spans below a line that has `done` marks already. -/
def marks (done : Nat) : List Span → List Char
  | [] => []
  | span :: more =>
    let gap := span.start.column - 1 - done
    let width := max 1 (span.stop.column - span.start.column)
    List.replicate gap ' ' ++ List.replicate width '^' ++ marks (done + gap + width) more

def shownLine (width : Nat) (spans : List Span) (number : Nat) (line : List Char) : String :=
  let shown := String.ofList line ++ "\n"
  let front :=
    if width = 0 then "    "
    else
      let digits := toString number
      String.ofList (List.replicate (width - digits.length) ' ') ++ digits ++ ": "
  match spans.filter (·.start.line = number) with
  | [] => front ++ shown
  | spans =>
    let indent := if width = 0 then 4 else width + 2
    front ++ shown ++ String.ofList (List.replicate indent ' ' ++ marks 0 spans) ++ "\n"

def spanNote (span : Span) : String :=
  s!"on line {span.start.line} (column {span.start.column}) through line {span.stop.line} " ++
    s!"(column {span.stop.column - 1})"

def shown (pattern : List Char) (spans : List Span) : String :=
  let lines := linesOf pattern
  let count := lines.length + (if pattern.getLast? = some '\n' then 1 else 0)
  let inLine := spans.filter (·.isOneLine)
  let listing := "".intercalate <| lines.zipIdx.map fun (line, index) =>
    shownLine (numberWidth count) inLine (index + 1) line
  if '\n' ∈ pattern then
    let divider := String.ofList (List.replicate 79 '~') ++ "\n"
    let across := spans.filter (!·.isOneLine)
    let notes := if across.isEmpty then "" else "\n".intercalate (across.map spanNote) ++ "\n"
    divider ++ listing ++ divider ++ notes
  else listing

def inOrder (span : Span) : Option Span → List Span
  | none => [span]
  | some other => if span.precedes other then [span, other] else [other, span]

def message (pattern : List Char) : Error → String
  | .part flaw span earlier =>
    "regex parse error:\n" ++ shown pattern (inOrder span earlier) ++ "error: " ++ flaw.message
  | .unicodeWords => "error building NFA"
  | .tooLarge most => s!"Compiled regex exceeds size limit of {most} bytes."

end Error

end MethodMetadata.Pattern
