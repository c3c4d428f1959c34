import Maml.Container
import Maml.Edit
import Maml.Quoted

/-! Diagnostics.

A `Diagnostic` tells a reader about a problem and offers fixes, which are edits
of the text. `Diagnostic.ofParseError` makes the diagnostic of a parse error:
`Classification.ofParseError` decides the category, and `message` and `fixes`
follow from it. -/
namespace Maml

/-- What a diagnostic is about. -/
inductive Category where
  | expectedColon
  | expectedRBrace
  | expectedRBracket
  /-- Two siblings on one line without a comma between them. -/
  | expectedComma
  | expectedValue
  | expectedKey
  /-- A plus sign, which numbers do not take. -/
  | unexpectedPlus
  | unterminatedString
  /-- A bare word in the place of a value. -/
  | invalidIdentifierValue
  /-- Any other token that does not fit. -/
  | unexpectedToken (text : Text)
  /-- A key that an object already has. -/
  | duplicateKey
  /-- An escape that quoted strings do not have. -/
  | invalidEscape
  | nestingTooDeep
  deriving DecidableEq, Repr

/-- A category and the key under which its message can be translated. -/
structure Classification where
  category : Category
  messageKey : String
  deriving DecidableEq, Repr

inductive Severity where
  | error
  | warning
  deriving DecidableEq, Repr

/-- Edits that together resolve a problem. -/
structure Fix where
  title : String
  edits : List Edit
  deriving DecidableEq, Repr

/-- A text with a fix made. -/
def Fix.apply (fix : Fix) (source : Text) : Except Fault Text := applyEdits source fix.edits

/-- A problem as it is told to a reader. -/
structure Diagnostic where
  range : Span
  severity : Severity
  category : Category
  messageKey : String
  message : String
  /-- Another place that explains this one. -/
  related : Option Span
  fixes : List Fix
  deriving DecidableEq, Repr

/-! ## Classification -/

namespace Classification

/-- The classification of a token that fits nowhere. -/
def unexpected (e : ParseError) : Classification :=
  ⟨.unexpectedToken e.foundText, "syntax.error.unexpected.token"⟩

/-- A word that begins like a reserved one is probably a typing error. -/
def looksLikeReserved : Text → Bool
  | c :: _ => c == 't' || c == 'f' || c == 'n'
  | [] => false

/-- Whether the token found is a plus sign. -/
def isPlus (e : ParseError) : Bool := e.foundKind == .badCharacter && e.foundText == ['+']

/-- The classification of a token that stands where a value should be. -/
def ofValueError (e : ParseError) : Classification :=
  if e.isMissing then
    ⟨.expectedValue, "syntax.error.expected.value"⟩
  else
    match e.foundKind with
    | .identifier =>
      if looksLikeReserved e.foundText then
        ⟨.invalidIdentifierValue, "annotator.invalid.value.identifier"⟩
      else
        ⟨.invalidIdentifierValue, "annotator.invalid.value.identifier.generic"⟩
    | .unterminatedString =>
      ⟨.unterminatedString, "annotator.invalid.value.unterminated.string"⟩
    | .rBrace | .rBracket | .comma | .eof => ⟨.expectedValue, "syntax.error.expected.value"⟩
    | _ => unexpected e

/-- The classification of a parse error. -/
def ofParseError (e : ParseError) : Classification :=
  match e.expected with
  | .colon => ⟨.expectedColon, "syntax.error.expected.colon"⟩
  | .rBrace => ⟨.expectedRBrace, "syntax.error.expected.rbrace"⟩
  | .rBracket => ⟨.expectedRBracket, "syntax.error.expected.rbracket"⟩
  | .comma => ⟨.expectedComma, "annotator.missing.comma"⟩
  | .nestingLimit => ⟨.nestingTooDeep, "syntax.error.nesting.too.deep"⟩
  | .key =>
    if isPlus e then plus
    else if e.foundKind == .unterminatedString then
      ⟨.unterminatedString, "syntax.error.unterminated.string"⟩
    else
      ⟨.expectedKey, "syntax.error.expected.key"⟩
  | .value => if isPlus e then plus else ofValueError e
  | .eof => if isPlus e then plus else unexpected e
where
  /-- The classification of a plus sign. -/
  plus : Classification := ⟨.unexpectedPlus, "syntax.error.unexpected.plus"⟩

end Classification

/-! ## Messages and fixes -/

namespace ParseError

/-- Whether the token found would be a key if it were quoted. -/
def isQuotableKey (e : ParseError) : Bool :=
  e.expected == .key && (e.foundKind.isKeyword || e.foundKind == .number)

/-- The message of a parse error in a category. -/
def message (e : ParseError) (category : Category) : String :=
  let text := String.ofList e.foundText
  match category with
  | .expectedColon => "expected ':' after key"
  | .expectedRBrace => "expected '\x7d'"
  | .expectedRBracket => "expected ']'"
  | .expectedComma => "missing comma between items on the same line"
  | .expectedValue => "expected a value"
  | .expectedKey =>
    if isQuotableKey e then s!"'{text}' cannot be used as a bare key, quote it"
    else "expected a key"
  | .unexpectedPlus => "unexpected '+', numbers take no leading plus sign"
  | .unterminatedString => "unterminated string literal"
  | .invalidIdentifierValue =>
    if Classification.looksLikeReserved e.foundText then
      s!"invalid value '{text}', maybe a typo of true/false/null"
    else
      s!"invalid value '{text}', bare identifiers must be quoted"
  | .unexpectedToken token =>
    let token := String.ofList token
    s!"unexpected '{token}'"
  | .duplicateKey => s!"duplicate key {text}"
  | .invalidEscape => s!"invalid escape sequence '{text}'"
  | .nestingTooDeep =>
    let limit := Container.maxDepth
    s!"containers nested deeper than {limit} levels are not parsed"

/-- The reserved words that a text begins. -/
def completions (text : Text) : List Text :=
  (Lexer.reserved.map (·.1)).filter fun word => Text.startsWith word text && word != text

/-- The fix that writes a word in place of a range. -/
def replaceWith (range : Span) (word : Text) : Fix :=
  let title := String.ofList word
  ⟨s!"Replace with '{title}'", [⟨range, word⟩]⟩

/-- The fixes of a parse error in a category. -/
def fixes (e : ParseError) (category : Category) : List Fix :=
  match category with
  | .expectedColon => [⟨"Insert ':'", [.insert e.range.stop [':']]⟩]
  | .expectedComma => [⟨"Insert ','", [.insert e.range.start [',']]⟩]
  | .expectedRBrace => [⟨"Insert '\x7d'", [.insert e.range.start ['}']]⟩]
  | .expectedRBracket => [⟨"Insert ']'", [.insert e.range.start [']']]⟩]
  | .unexpectedPlus =>
    if e.isMissing then []
    else [⟨"Remove '+'", [.delete ⟨e.range.start, e.range.start + 1⟩]⟩]
  | .expectedKey =>
    if isQuotableKey e then [⟨"Quote key", [⟨e.range, Quoted.quote e.foundText⟩]⟩] else []
  | .unterminatedString =>
    [⟨"Close string", [.insert e.range.stop (Quoted.closer e.foundText)]⟩]
  | .invalidIdentifierValue =>
    (completions e.foundText).map (replaceWith e.range) ++
      [⟨"Wrap in quotes", [⟨e.range, Quoted.quote e.foundText⟩]⟩]
  | .expectedValue | .unexpectedToken _ | .duplicateKey | .invalidEscape | .nestingTooDeep => []

end ParseError

namespace Diagnostic

def ofParseError (e : ParseError) : Diagnostic :=
  let c := Classification.ofParseError e
  { range := e.range
    severity := .error
    category := c.category
    messageKey := c.messageKey
    message := e.message c.category
    related := none
    fixes := e.fixes c.category }

/-- A diagnostic on one line. -/
def display (d : Diagnostic) : String :=
  let message := d.message
  let start := d.range.start
  match d.severity with
  | .error => s!"error: {message} at offset {start}"
  | .warning => s!"warning: {message} at offset {start}"

end Diagnostic

end Maml
