import Maml.Token.Lexer

/-! Tokens with lookahead past trivia.

A `TokenStream` hands out tokens one at a time, trivia and significant tokens by
separate operations, so that a consumer decides where trivia goes. Lookahead
sees significant tokens only. `TokenStream.bump` refuses to run past the end or
over trivia that has not been handed out. -/
namespace Maml

/-- Tokens not yet handed out, in order, and where the input ends. -/
structure TokenStream where
  rest : List Token
  /-- The offset at which the input ends. -/
  stop : Nat
  /-- The end of the last significant token handed out. -/
  lastEnd : Nat
  deriving DecidableEq, Repr

namespace TokenStream

def ofTokens (tokens : List Token) (stop : Nat) : TokenStream := ⟨tokens, stop, 0⟩

/-- The stream of a document's tokens. -/
def ofText (source : Text) : TokenStream := ofTokens (tokenize source) source.size

/-- The significant token `n` places ahead; the end of the input if there are not that many. -/
def nth (s : TokenStream) (n : Nat) : Token :=
  (s.rest.filter (!·.isTrivia))[n]?.getD (.eof s.stop)

/-- The next significant token. -/
def peek (s : TokenStream) : Token := s.nth 0

def isAt (s : TokenStream) (kind : TokenKind) : Bool := s.peek.kind == kind

def isAtEof (s : TokenStream) : Bool := s.isAt .eof

/-- Hands out the next token if it is trivia. -/
def nextTrivia? (s : TokenStream) : Option (Token × TokenStream) :=
  match s.rest with
  | t :: ts => if t.isTrivia then some (t, { s with rest := ts }) else none
  | [] => none

/-- Hands out the next token, which must be significant. -/
def bump (s : TokenStream) : Except Fault (Token × TokenStream) :=
  match s.rest with
  | [] => .error .exhausted
  | t :: ts =>
    if t.isTrivia then .error (.pendingTrivia t.kind)
    else .ok (t, { s with rest := ts, lastEnd := t.span.stop })

/-- The start of the next token, or the end of the input. -/
def offset (s : TokenStream) : Nat :=
  match s.rest with
  | t :: _ => t.span.start
  | [] => s.stop

end TokenStream

end Maml
