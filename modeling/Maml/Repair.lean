import Maml.Check
import Maml.Defect
import Maml.Gap

/-! What fixes promise.

A fix that quotes a token makes a string of it that means what the token says. Nothing
else is to change: the significant tokens around it stay, and so do the mistakes met in
reading, but for the one that the fix is offered for.

A fix that begins a line between siblings changes the layout alone. The tree stays, apart
from its trivia, and commas are missing where they were, but for the list that the fix is
offered for. -/
namespace Maml

/-- A token without its place. -/
def Token.word (t : Token) : TokenKind × Text := (t.kind, t.text)

/-- The significant tokens of a text. -/
def significant (source : Text) : List Token := (tokenize source).filter (!·.isTrivia)

/-- What was expected at the mistakes met in reading, in their order. -/
def Parse.expectations (p : Parse) : List Expected := p.errors.map ParseError.expected

/-! ## Quoting -/

namespace Diagnostic

/-- Whether a diagnostic is about a word in the place of a value, or about a reserved word or a
number in front of a colon. -/
def AsksForQuotes (d : Diagnostic) (source : Text) : Prop :=
  d.category = .invalidIdentifierValue ∨
    d.category = .expectedKey ∧ ∃ front t colon back,
      significant source = front ++ t :: colon :: back ∧ t.span.start = d.range.start ∧
        (t.kind.isKeyword || t.kind == .number) = true ∧ colon.kind = .colon

/-- The title of the fix that quotes the token. -/
def quotingTitle (d : Diagnostic) : String :=
  if d.category = .expectedKey then "Quote key" else "Wrap in quotes"

end Diagnostic

/-- Whether a text is another one with the token at a range made a string that means the same, and
without the mistake at an index. -/
structure QuotesOnly (source text : Text) (range : Span) (i : Nat) : Prop where
  tokens : ∃ front t back quoted, significant source = front ++ t :: back ∧ t.span = range ∧
    Quoted.unescape quoted = t.text ∧
    (significant text).map Token.word =
      front.map Token.word ++ (.string, quoted) :: back.map Token.word
  expectations : (parse text).expectations = (parse source).expectations.eraseIdx i

/-- Whether an empty string ends at an offset. -/
def EndsEmptyString (source : Text) (offset : Nat) : Prop :=
  ∃ t ∈ tokenize source, t.text = ['"', '"'] ∧ t.span.stop = offset

/-! ## Putting in commas -/

namespace Span

/-- Where something starts that started at an offset, behind a byte put in at each of some
offsets. -/
def startBehind (cuts : List Nat) (offset : Nat) : Nat := offset + cuts.countP (· ≤ offset)

/-- Where something stops that stopped at an offset, behind a byte put in at each of some offsets:
what is put in where it stops comes behind it. -/
def stopBehind (cuts : List Nat) (offset : Nat) : Nat := offset + cuts.countP (· < offset)

/-- Where the bytes of a range are behind a byte put in at each of some offsets. An empty range
stays behind what it was behind. -/
def follow (cuts : List Nat) (s : Span) : Span :=
  if s.isEmpty then .empty (stopBehind cuts s.stop)
  else ⟨startBehind cuts s.start, stopBehind cuts s.stop⟩

end Span

def Token.follow (cuts : List Nat) (t : Token) : Token := { t with span := t.span.follow cuts }

def Edit.follow (cuts : List Nat) (e : Edit) : Edit := { e with range := e.range.follow cuts }

def Fix.follow (cuts : List Nat) (f : Fix) : Fix := { f with edits := f.edits.map (·.follow cuts) }

namespace Diagnostic

/-- A diagnostic behind a byte put in at each of some offsets. -/
def follow (cuts : List Nat) (d : Diagnostic) : Diagnostic :=
  { d with
    range := d.range.follow cuts
    related := d.related.map (·.follow cuts)
    fixes := d.fixes.map (·.follow cuts) }

/-- A diagnostic with no fix but its first. -/
def withFirstFix (d : Diagnostic) : Diagnostic := { d with fixes := d.fixes.take 1 }

end Diagnostic

/-- What a check tells of one category. -/
def findings (source : Text) (category : Category) : List Diagnostic :=
  (check .default source).filter (·.category == category)

/-- Whether a text is another one with a comma put in where each chosen one is missing, so that
these are missing no more and everything else is told as before. Only the fix that begins lines is
left aside, which reaches over the whole of a list. -/
structure PutsCommas (source text : Text) (chosen : Diagnostic → Bool) (cuts : List Nat) : Prop where
  cuts_eq : cuts = ((findings source .expectedComma).filter chosen).map (·.range.start)
  tokens : significant text = (significant source).flatMap fun t =>
    t.follow cuts :: if t.span.stop ∈ cuts then
      [⟨.comma, ⟨(t.follow cuts).span.stop, (t.follow cuts).span.stop + 1⟩, [',']⟩]
    else []
  count : (significant text).length = (significant source).length + cuts.length
  errors : (parse text).errors.map (fun e => (e.expected, e.range)) =
    (parse source).errors.map fun e => (e.expected, e.range.follow cuts)
  commas : (findings text .expectedComma).map Diagnostic.withFirstFix =
    ((findings source .expectedComma).filter (!chosen ·)).map fun d => (d.follow cuts).withFirstFix
  duplicates : findings text .duplicateKey = (findings source .duplicateKey).map (·.follow cuts)
  escapes : findings text .invalidEscape = (findings source .invalidEscape).map (·.follow cuts)

/-! ## Escaping backslashes -/

/-- What a node means, if it is a key or a string. -/
def AnyView.meaning? : AnyView → Option Text
  | ⟨.key, v⟩ => some (View.Key.meaning v)
  | ⟨.value, v⟩ => View.Value.string? v
  | _ => none

/-- What the nodes of a document mean, parents first. -/
def Parse.meanings (p : Parse) : List (Option Text) :=
  (Site.root p.tree).views.map AnyView.meaning?

/-- Whether a text is another one with another backslash at an offset in a string, and in which the
string means the same and has one invalid escape fewer. -/
structure EscapesOnly (source text : Text) (offset : Nat) : Prop where
  tokens : ∃ front t back a b, tokenize source = front ++ t :: back ∧
    t.kind = .string ∧ t.text = a ++ '\\' :: b ∧ offset = t.span.start + Text.size a ∧
    tokenize text = front ++
      ⟨.string, ⟨t.span.start, t.span.stop + 1⟩, a ++ '\\' :: '\\' :: b⟩ ::
        (back.map fun u => { u with span := ⟨u.span.start + 1, u.span.stop + 1⟩ }) ∧
    Quoted.unescape (a ++ '\\' :: '\\' :: b) = Quoted.unescape t.text
  expectations : (parse text).expectations = (parse source).expectations
  escapes : (check .default text).countP (·.category == .invalidEscape) + 1 =
    (check .default source).countP (·.category == .invalidEscape)
  meanings : (parse text).meanings = (parse source).meanings

/-! ## Removing plus signs -/

/-- Whether a kind is that of words without quotes, reserved or not. -/
def TokenKind.isName (kind : TokenKind) : Bool := kind == .identifier || kind.isKeyword

namespace Lexer

/-- Whether a number is written with an exponent. -/
def HasExponent (text : Text) : Prop := 'e' ∈ text ∨ 'E' ∈ text

/-- Whether tokens go on with a number that comes directly behind them. -/
inductive Joins (number : Text) : List (TokenKind × Text) → Prop where
  | name {kind text} (h : kind.isName = true) : Joins number [(kind, text)]
  | digits {text} (hn : startsWithDigit number = true) : Joins number [(.number, text)]
  | sign (hn : startsWithDigit number = true) : Joins number [(.badCharacter, ['-'])]
  | point {text} (hn : startsWithDigit number = true) (h : '.' ∉ text ∧ ¬ HasExponent text) :
      Joins number [(.number, text), (.badCharacter, ['.'])]
  | exponent {text e} (hn : startsWithDigit number = true) (he : e = 'e' ∨ e = 'E')
      (h : ¬ HasExponent text) :
      Joins number [(.number, text), (.identifier, [e]), (.badCharacter, ['+'])]
  | behind (t : TokenKind × Text) {ts} (h : Joins number ts) : Joins number (t :: ts)

end Lexer

/-- The tokens in front of an offset, without their places. -/
def wordsBefore (source : Text) (offset : Nat) : List (TokenKind × Text) :=
  ((tokenize source).filter (·.span.stop ≤ offset)).map Token.word

/-- Whether a diagnostic is about an invalid value of a plus sign and, directly behind it, a
number. -/
def Diagnostic.IsSigned (d : Diagnostic) (source number : Text) : Prop :=
  d.category = .unexpectedPlus ∧ ∃ s ∈ (parse source).sites, s.range = d.range ∧
    s.tree = .node (.node .invalidValue)
      [.leaf (.token .badCharacter) ['+'], .leaf (.token .number) number]

/-- Whether a text is another one without the plus sign at an offset, and without the mistake at an
index. -/
structure RemovesPlus (source text : Text) (offset i : Nat) : Prop where
  tokens : ∃ front plus back, significant source = front ++ plus :: back ∧
    plus.word = (.badCharacter, ['+']) ∧ plus.span.start = offset ∧
    (significant text).map Token.word = front.map Token.word ++ back.map Token.word
  expectations : (parse text).expectations = (parse source).expectations.eraseIdx i

/-- Whether a number is a value of its own at an offset. -/
def Parse.HasNumber (p : Parse) (number : Text) (offset : Nat) : Prop :=
  ∃ s ∈ p.sites, s.offset = offset ∧
    s.tree = .node (.node .value) [.leaf (.token .number) number]

/-! ## Completing words -/

namespace Tree

/-- Whether a tree is another one with one part in the place of another at an offset. -/
inductive Replaced (old new : Tree) : Nat → Tree → Tree → Prop where
  | here : Replaced old new 0 old new
  | inside {label front part part' back offset} (h : Replaced old new offset part part') :
      Replaced old new (sizeList front + offset) (.node label (front ++ part :: back))
        (.node label (front ++ part' :: back))

end Tree

/-- Whether a text is another one with a reserved word in the place of a name at a range, so that
the word is a value where the name was an invalid one, and without the mistake at an index. -/
structure CompletesName (source text : Text) (range : Span) (name word : Text) (kind : TokenKind)
    (i : Nat) : Prop where
  tokens : ∃ front back, tokenize source = front ++ ⟨.identifier, range, name⟩ :: back ∧
    tokenize text = front ++ ⟨kind, ⟨range.start, range.start + word.size⟩, word⟩ ::
      back.map fun t => { t with
        span := ⟨t.span.start + (word.size - name.size), t.span.stop + (word.size - name.size)⟩ }
  tree : Tree.Replaced (.node (.node .invalidValue) [.leaf (.token .identifier) name])
    (.leaf (.token kind) word) range.start (parse source).tree (parse text).tree
  expectations : (parse text).expectations = (parse source).expectations.eraseIdx i

/-! ## Putting in colons -/

/-- Whether a text is another one in which the key at a range has a colon and is told to have none no
more, and whose mistakes begin with those in front of the one at an index. -/
structure CompletesMember (source text : Text) (range : Span) (i : Nat) : Prop where
  member : ∃ s ∈ (parse text).sites, ∃ v key, s.view? .keyValue = some v ∧
    View.KeyValue.key? v = some key ∧ key.range = range ∧ range.slice source = .ok key.text
  errors : (parse source).errors.take i <+: (parse text).errors
  resolved : range ∉ (parse text).rangesOf .colon

/-! ## Breaking lines -/

namespace Text

/-- What stands behind the last line break of a text. -/
def lastLine (t : Text) : Text := (t.reverse.takeWhile (!Lexer.isLineBreak ·)).reverse

/-- The spaces and tabs at the start of the last line of a text. -/
def indent (t : Text) : Text := t.lastLine.takeWhile fun c => c == ' ' || c == '\t'

end Text

namespace Tree

mutual

/-- A tree without the trivia in it. -/
def bare : Tree → Tree
  | leaf label text => leaf label text
  | node label children => node label (bareList children)

def bareList : List Tree → List Tree
  | [] => []
  | t :: ts => if t.isTrivia then bareList ts else t.bare :: bareList ts

end

end Tree

/-- Whether a diagnostic is found at the view with an index among those of a document. -/
def Diagnostic.FoundAt (d : Diagnostic) (source : Text) (i : Nat) (v : AnyView) : Prop :=
  (Site.root (parse source).tree).views[i]? = some v ∧ d ∈ Validation.atNode .default v

/-- How many commas are missing in each node of a tree, parents first. -/
def Parse.commaCounts (p : Parse) : List Nat :=
  (Site.root p.tree).views.map fun v =>
    (Validation.atNode .default v).countP (·.category == .expectedComma)

/-- Whether a text is another one in a different layout, in which no comma is missing in the node
with an index any more, and as many as before in the other nodes. -/
structure BreaksLinesOnly (source text : Text) (i : Nat) : Prop where
  tokens : (significant text).map Token.word = (significant source).map Token.word
  expectations : (parse text).expectations = (parse source).expectations
  tree : (parse text).tree.bare = (parse source).tree.bare
  commas : (parse text).commaCounts = (parse source).commaCounts.set i 0

end Maml
