import Maml.Token.Lexer

/-! What a parser has to say about a document.

A `ParseError` names what was expected and the token that was found instead. An
empty range marks a gap: nothing was taken, and the token found belongs to what
comes next. Any other range covers tokens that were taken and do not fit. -/
namespace Maml

/-- What was expected where something else was found. -/
inductive Expected where
  /-- A value: behind a colon, in an array, or as the document. -/
  | value
  /-- The key of a member. -/
  | key
  /-- The colon behind a key. -/
  | colon
  /-- The comma between two siblings on one line. -/
  | comma
  /-- The brace that closes an object. -/
  | rBrace
  /-- The bracket that closes an array. -/
  | rBracket
  /-- The end of the document, which already has its value. -/
  | eof
  /-- A container that is not nested too deep. -/
  | nestingLimit
  deriving DecidableEq, Repr

/-- A mistake in a document. -/
structure ParseError where
  expected : Expected
  /-- The kind of the token that was found. -/
  foundKind : TokenKind
  /-- The text of the token that was found. -/
  foundText : Text
  range : Span
  deriving DecidableEq, Repr

namespace ParseError

/-- The error that reports a token at a range. -/
def ofToken (expected : Expected) (found : Token) (range : Span) : ParseError :=
  ⟨expected, found.kind, found.text, range⟩

/-- Whether something is missing, rather than in the way. -/
def isMissing (e : ParseError) : Bool := e.range.isEmpty

end ParseError

end Maml
