import Maml.Token.Lexer

/-! Lexing byte by byte.

`Cursor` says what the next token of a text is. A `Scanner` finds it in small steps: it
looks at single characters in front of it, goes forward by characters or by bytes, and then
cuts the token out of the whole text. It keeps what is left of the text and, apart from it,
a count of the bytes behind it, which has 32 bits.

A scanner fails if it goes into a character or past the end, if its count overflows, or if
it cuts between offsets that are no positions in the text or out of order.

Scanners can be copied and started anew where they stand. `ScanStep.performAll` takes such
steps and keeps, with every scanner, the tokens that it has handed out. -/
namespace Maml

/-- A lexer part way through a text. -/
structure Scanner where
  source : Text
  /-- What is left of the text. -/
  rest : Text
  /-- The number of bytes in front of that. -/
  position : Nat
  deriving DecidableEq, Repr

namespace Scanner

/-- Offsets are below this number, since they have 32 bits. -/
def offsetLimit : Nat := UInt32.size

/-- What is left of a text behind a number of bytes. -/
def dropBytes (t : Text) (n : Nat) : Except Fault Text :=
  match t.splitAt? n with
  | some (_, rest) => .ok rest
  | none => .error (.badSlice n t.size)

/-- A scanner at an offset of a text; tokens keep their places in the whole text. -/
def startingAt (source : Text) (offset : Nat) : Except Fault Scanner :=
  if source.isBoundary offset then
    return ⟨source, ← dropBytes source offset, offset⟩
  else
    .error (.restart offset)

/-! ## Small steps -/

def peek (s : Scanner) : Option Char := s.rest.head?

def peekNth (s : Scanner) (n : Nat) : Option Char := s.rest[n]?

/-- Goes forward by a number of bytes. -/
def advanceBy (s : Scanner) (n : Nat) : Except Fault Scanner :=
  -- the number itself is cut down to 32 bits; only the sum is checked
  if s.position + n % offsetLimit < offsetLimit then
    return { s with rest := ← dropBytes s.rest n, position := s.position + n % offsetLimit }
  else
    .error .overflow

def advance (s : Scanner) : Except Fault Scanner :=
  match s.peek with
  | some c => s.advanceBy c.utf8Size
  | none => .ok s

/-- The token from an offset up to here. -/
def token (s : Scanner) (kind : TokenKind) (start : Nat) : Except Fault Token := do
  let span ← Span.ofBounds start s.position
  return ⟨kind, span, ← span.slice s.source⟩

/-- A step forward by a character leaves fewer. -/
theorem length_rest_of_advance {s s' : Scanner} {c : Char} {cs : Text} (hrest : s.rest = c :: cs)
    (h : s.advance = .ok s') : s'.rest.length < s.rest.length := by
  have hsplit : s.rest.splitAt? c.utf8Size = some ([c], cs) := by
    have hsize := Text.splitAt?_size [c] cs
    rwa [Text.size_cons, Text.size_nil, Nat.add_zero, List.singleton_append, ← hrest] at hsize
  have hpeek : s.peek = some c := by rw [peek, hrest, List.head?_cons]
  rw [advance, hpeek] at h
  simp only [advanceBy, dropBytes, hsplit] at h
  split at h
  · cases h
    rw [hrest]
    exact Nat.lt_succ_self _
  · cases h

/-- Goes forward over the characters of a kind. -/
def advanceWhile (p : Char → Bool) (s : Scanner) : Except Fault Scanner :=
  match hrest : s.rest with
  | [] => .ok s
  | c :: _ =>
    if p c then
      match h : s.advance with
      | .ok s' =>
        have := length_rest_of_advance hrest h
        advanceWhile p s'
      | .error fault => .error fault
    else
      .ok s
termination_by s.rest.length

/-! ## Tokens -/

/-- The token that is gone over. -/
def take (s : Scanner) (kind : TokenKind) (go : Scanner → Except Fault Scanner) :
    Except Fault (Token × Scanner) := do
  let s' ← go s
  return (← s'.token kind s.position, s')

/-- How many bytes of the text behind a quote belong to the quoted string, and whether it is closed.
`i` bytes have been looked at, and the first structural character among them was at `structural`. -/
def scanQuoted (i : Nat) (structural : Option Nat) : Text → Nat × Bool
  | [] => (structural.getD i, false)
  | '\\' :: c :: cs =>
    if Lexer.isLineBreak c then (structural.getD (i + 1), false)
    else scanQuoted (i + 1 + c.utf8Size) structural cs
  | c :: cs =>
    if c == '"' then (i + 1, true)
    else if Lexer.isLineBreak c then (structural.getD i, false)
    else
      scanQuoted (i + c.utf8Size)
        (structural.or (if Lexer.isStructural c then some i else none)) cs

def quotedString (s : Scanner) : Except Fault (Token × Scanner) := do
  let body ← dropBytes s.rest 1
  let (size, closed) := scanQuoted 0 none body
  s.take (if closed then .string else .unterminatedString) (·.advanceBy (1 + size))

/-- The offset of the first occurrence of a text in another. -/
def find? (part : Text) : Text → Option Nat
  | [] => if part.isEmpty then some 0 else none
  | c :: cs =>
    if Text.startsWith (c :: cs) part then some 0 else (find? part cs).map (c.utf8Size + ·)

def multilineString (s : Scanner) : Except Fault (Token × Scanner) := do
  let s₁ ← s.advanceBy 3
  match find? Lexer.tripleQuote s₁.rest with
  | some n => do
    let s₂ ← s₁.advanceBy (n + 3)
    return (← s₂.token .multilineString s.position, s₂)
  | none => do
    let s₂ ← s₁.advanceBy s₁.rest.size
    return (← s₂.token .unterminatedString s.position, s₂)

/-- Whether the character `n` places ahead is a digit. -/
def digitAt (s : Scanner) (n : Nat) : Bool := (s.peekNth n).any Char.isDigit

/-- Goes over a minus, if there is one. -/
def eatMinus (s : Scanner) : Except Fault Scanner :=
  if s.peek == some '-' then s.advance else .ok s

def eatDigits (s : Scanner) : Except Fault Scanner := s.advanceWhile Char.isDigit

/-- Goes over a point and digits, if they come next. -/
def eatFraction (s : Scanner) : Except Fault Scanner :=
  if s.peek == some '.' && s.digitAt 1 then do (← s.advance).eatDigits else .ok s

/-- How many places ahead the digits of an exponent begin: behind the letter and a sign. -/
def digitsAhead (s : Scanner) : Nat :=
  if s.peekNth 1 == some '+' || s.peekNth 1 == some '-' then 2 else 1

/-- Goes over the letter `e` and signed digits, if they come next. -/
def eatExponent (s : Scanner) : Except Fault Scanner :=
  if (s.peek == some 'e' || s.peek == some 'E') && s.digitAt s.digitsAhead then do
    -- the letter and the sign have one byte each
    (← s.advanceBy s.digitsAhead).eatDigits
  else
    .ok s

def eatNumber (s : Scanner) : Except Fault Scanner := do
  let s ← s.eatMinus
  let s ← s.eatDigits
  let s ← s.eatFraction
  s.eatExponent

def word (s : Scanner) : Except Fault (Token × Scanner) := do
  let s' ← s.advanceWhile Lexer.isNameChar
  let word ← Span.slice ⟨s.position, s'.position⟩ s.source
  return (← s'.token (Lexer.wordKind word) s.position, s')

/-- The next token and the scanner behind it; at the end, an empty token again and again. -/
def nextToken (s : Scanner) : Except Fault (Token × Scanner) :=
  match s.peek with
  | none => return (← s.token .eof s.position, s)
  | some c =>
    match c with
    | '{' => s.take .lBrace advance
    | '}' => s.take .rBrace advance
    | '[' => s.take .lBracket advance
    | ']' => s.take .rBracket advance
    | ':' => s.take .colon advance
    | ',' => s.take .comma advance
    | '#' => s.take .comment (advanceWhile (!Lexer.isLineBreak ·))
    | '"' => if s.rest.startsWith Lexer.tripleQuote then s.multilineString else s.quotedString
    | '-' => if s.digitAt 1 then s.take .number eatNumber else s.take .badCharacter advance
    | c =>
      if Lexer.isBlank c then s.take .whitespace (advanceWhile Lexer.isBlank)
      else if c.isDigit then s.take .number eatNumber
      else if Lexer.isNameStart c then s.word
      else s.take .badCharacter advance

/-- The next token and the scanner behind it, if the text has not ended. -/
def next (s : Scanner) : Except Fault (Option Token × Scanner) := do
  let (t, s') ← s.nextToken
  return (if t.kind == .eof then none else some t, s')

/-- A new scanner where this one stands. -/
def restart (s : Scanner) : Except Fault Scanner := startingAt s.source s.position

/-- What asking for tokens until there are no more hands out, and the scanner it leaves. -/
inductive Collects : Scanner → List Token → Scanner → Prop where
  | done {s s'} (h : s.next = .ok (none, s')) : Collects s [] s'
  | more {s s' t ts s''} (h : s.next = .ok (some t, s')) (hmore : Collects s' ts s'') :
      Collects s (t :: ts) s''

end Scanner

/-! ## Steps -/

/-- A scanner and the tokens that it, or the scanner it was copied from, has handed out. -/
structure Track where
  scanner : Scanner
  handed : List Token
  deriving DecidableEq, Repr

/-- What can be done with one of several scanners, by its index. -/
inductive ScanStep where
  /-- Asks for a token, which at the end is an empty one. -/
  | nextToken (i : Nat)
  /-- Asks for a token, of which there are none at the end. -/
  | next (i : Nat)
  /-- Adds a copy of the scanner. -/
  | clone (i : Nat)
  /-- Starts the scanner anew where it stands. -/
  | restart (i : Nat)
  deriving DecidableEq, Repr

namespace Track

def nextToken (t : Track) : Except Fault Track := do
  let (token, scanner) ← t.scanner.nextToken
  return ⟨scanner, t.handed ++ [token]⟩

def next (t : Track) : Except Fault Track := do
  let (token, scanner) ← t.scanner.next
  return ⟨scanner, t.handed ++ token.toList⟩

def restart (t : Track) : Except Fault Track := do
  return { t with scanner := ← t.scanner.restart }

end Track

namespace ScanStep

/-- Changes the track at an index, if there is one. -/
def modify (i : Nat) (f : Track → Except Fault Track) (tracks : List Track) :
    Except Fault (List Track) :=
  match tracks[i]? with
  | some t => return tracks.set i (← f t)
  | none => .ok tracks

/-- What a step does to all scanners. -/
def perform (tracks : List Track) : ScanStep → Except Fault (List Track)
  | nextToken i => modify i Track.nextToken tracks
  | next i => modify i Track.next tracks
  | clone i => .ok (tracks ++ tracks[i]?.toList)
  | restart i => modify i Track.restart tracks

/-- What steps do one after the other. -/
def performAll (tracks : List Track) (steps : List ScanStep) : Except Fault (List Track) :=
  steps.foldlM perform tracks

end ScanStep

end Maml
