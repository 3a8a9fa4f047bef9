import MethodMetadata.Pattern.Span

/-! Patterns as they are written. -/
namespace MethodMetadata.Pattern

/-- The switches that a pattern can set. -/
inductive Flag
  | ignoreCase
  | manyLines
  | dotTakesAll
  | swapGreed
  | unicode
  | carriageReturns
  | ignoreBlanks
  deriving DecidableEq, Repr

/-- A switch, or the sign behind which switches are turned off. -/
inductive FlagItem
  | negation
  | flag (flag : Flag)
  deriving DecidableEq, Repr

/-- Whether switches turn one on or off, if they mention it. -/
def setting (wanted : Flag) : List FlagItem → Option Bool
  | [] => none
  | .negation :: rest => (setting wanted rest).map fun _ => false
  | .flag found :: rest => if found = wanted then some true else setting wanted rest

/-- Conditions on a position in a text. -/
inductive Assertion
  | lineStart
  | lineEnd
  | textStart
  | textEnd
  | word
  | notWord
  | wordStart
  | wordEnd
  | wordStartHalf
  | wordEndHalf
  deriving DecidableEq, Repr

/-- A character that stands for itself, and whether it was given as the two digits of a byte. -/
structure Letter where
  span : Span
  char : Char
  isByte : Bool := false
  deriving DecidableEq, Repr

/-- Sets of characters with a letter of their own. -/
inductive Shorthand
  | digit
  | space
  | word
  deriving DecidableEq, Repr

/-- Sets of characters with a name that are within ASCII. -/
inductive NamedSet
  | alnum
  | alpha
  | ascii
  | blank
  | cntrl
  | digit
  | graph
  | lower
  | print
  | punct
  | space
  | upper
  | word
  | xdigit
  deriving DecidableEq, Repr

/-- How a property of characters is asked for. -/
inductive Property
  | letter
  | named (name : List Char)
  | valued
  deriving DecidableEq, Repr

/-- How two sets of characters are put together. -/
inductive SetOperation
  | intersection
  | difference
  | symmetricDifference
  deriving DecidableEq, Repr

/-- What stands between brackets. -/
inductive ClassSet
  | nothing (span : Span)
  | letter (letter : Letter)
  | range (first last : Letter)
  | named (span : Span) (set : NamedSet) (negated : Bool)
  | property (span : Span) (property : Property)
  | shorthand (span : Span) (set : Shorthand) (negated : Bool)
  | bracketed (span : Span) (negated : Bool) (inner : ClassSet)
  | union (span : Span) (items : List ClassSet)
  | combined (span : Span) (operation : SetOperation) (left right : ClassSet)

namespace ClassSet

def span : ClassSet → Span
  | .nothing span | .named span _ _ | .property span _ | .shorthand span _ _
  | .bracketed span _ _ | .union span _ | .combined span _ _ _ => span
  | .letter l => l.span
  | .range first last => ⟨first.span.start, last.span.stop⟩

end ClassSet

/-- A pattern with the places of its parts. -/
inductive Tree
  | empty (span : Span)
  | flags (span : Span) (items : List FlagItem)
  | letter (letter : Letter)
  | dot (span : Span)
  | assertion (span : Span) (condition : Assertion)
  | property (span : Span) (property : Property)
  | shorthand (span : Span) (set : Shorthand) (negated : Bool)
  | bracketed (span : Span) (negated : Bool) (set : ClassSet)
  | repetition (span : Span) (least : Nat) (most : Option Nat) (inner : Tree)
  | group (span : Span) (flags : List FlagItem) (captures : Bool) (inner : Tree)
  | alternation (span : Span) (branches : List Tree)
  | concatenation (span : Span) (parts : List Tree)

namespace Tree

def span : Tree → Span
  | .empty span | .flags span _ | .dot span | .assertion span _ | .property span _
  | .shorthand span _ _ | .bracketed span _ _ | .repetition span _ _ _ | .group span _ _ _
  | .alternation span _ | .concatenation span _ => span
  | .letter l => l.span

def isRepeatable : Tree → Bool
  | .empty _ | .flags _ _ => false
  | _ => true

end Tree

end MethodMetadata.Pattern
