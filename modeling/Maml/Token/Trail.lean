import Maml.Token.Stream

/-! Streams and what they have handed out.

A `Trail` keeps with a stream the tokens that it has handed out. `Trail.perform` says what
a question to the stream answers and where it leads. Looking ahead leads nowhere, and
neither does a bump that fails: then the fault is the answer. -/
namespace Maml

/-- A stream and the tokens that it has handed out. -/
structure Trail where
  stream : TokenStream
  handed : List Token
  deriving DecidableEq, Repr

/-- What can be asked of a stream. -/
inductive StreamStep where
  /-- Looks at the next significant token. -/
  | peek
  /-- Looks at the significant token `n` places ahead. -/
  | nth (n : Nat)
  /-- Asks for the next token if it is trivia. -/
  | nextTrivia
  /-- Asks for the next token, which must be significant. -/
  | bump
  deriving DecidableEq, Repr

namespace Trail

/-- The trail of a stream that has handed out nothing. -/
def start (tokens : List Token) (stop : Nat) : Trail := ⟨.ofTokens tokens stop, []⟩

/-- The answer to a question, and the trail behind it. -/
def perform (t : Trail) : StreamStep → Except Fault (Option Token) × Trail
  | .peek => (.ok (some t.stream.peek), t)
  | .nth n => (.ok (some (t.stream.nth n)), t)
  | .nextTrivia =>
    match t.stream.nextTrivia? with
    | some (token, stream) => (.ok (some token), ⟨stream, t.handed ++ [token]⟩)
    | none => (.ok none, t)
  | .bump =>
    match t.stream.bump with
    | .ok (token, stream) => (.ok (some token), ⟨stream, t.handed ++ [token]⟩)
    | .error fault => (.error fault, t)

/-- The trail behind questions that are asked one after the other. -/
def performAll (t : Trail) (steps : List StreamStep) : Trail :=
  steps.foldl (fun t step => (t.perform step).2) t

/-- Whether asking for trivia again and again, until there is none, leads from one trail to
another. -/
inductive Drains : Trail → Trail → Prop where
  | done {t t'} (h : t.perform .nextTrivia = (.ok none, t')) : Drains t t'
  | more {t token t' t''} (h : t.perform .nextTrivia = (.ok (some token), t'))
      (hmore : Drains t' t'') : Drains t t''

end Trail

end Maml
