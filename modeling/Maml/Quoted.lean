import Maml.Token.Lexer

/-! The text of string tokens.

`unescape` reads what stands between the quotes of a quoted string character by
character: an escape is read as the character that it means, and everything else
is kept as it is written. `invalidEscapes` goes through the string with its
quotes and finds the escapes that mean nothing. `quote` writes any text as a
quoted string.

Both can be told of one way to divide a text into parts: plain characters, a
backslash with the character it escapes, and a backslash with `u` and four
hexadecimal digits. -/
namespace Maml.Quoted

/-- A text without a mark at both of its ends, if the mark stands at both. -/
def strip (mark text : Text) : Text :=
  let rest := text.drop mark.length
  if Text.startsWith text mark && Text.endsWith rest mark then
    rest.take (rest.length - mark.length)
  else
    text

/-- A text without one pair of quotes around it. -/
def stripQuotes : Text → Text := strip ['"']

/-- A text without one pair of triple quotes around it. -/
def stripTripleQuotes : Text → Text := strip Lexer.tripleQuote

/-! ## Codes and escapes -/

def isHexDigit (c : Char) : Bool :=
  c.isDigit || ('a' ≤ c && c ≤ 'f') || ('A' ≤ c && c ≤ 'F')

/-- The value of a hexadecimal digit. -/
def hexDigitValue (c : Char) : Nat :=
  if c.isDigit then c.toNat - '0'.toNat
  else if 'a' ≤ c then c.toNat - 'a'.toNat + 10
  else c.toNat - 'A'.toNat + 10

/-- The number that hexadecimal digits write. -/
def hexValue (digits : Text) : Nat := digits.foldl (fun n c => 16 * n + hexDigitValue c) 0

/-- The character with a given code, unless it is a surrogate or too large. -/
def charOfCode? (n : Nat) : Option Char := if n.isValidChar then some (Char.ofNat n) else none

/-- The number that a text writes if it is four hexadecimal digits. -/
def code? (text : Text) : Option Nat :=
  if text.size == 4 && text.all isHexDigit then some (hexValue text) else none

/-- The characters that mean another one behind a backslash, and which. -/
def escapes : List (Char × Char) :=
  [('"', '"'), ('\\', '\\'), ('/', '/'), ('b', '\x08'), ('f', '\x0c'), ('n', '\n'), ('r', '\r'),
    ('t', '\t')]

/-! ## Parts -/

/-- A part of a quoted string. -/
inductive Part where
  /-- A character that stands for itself. -/
  | plain (c : Char)
  /-- A backslash and the character behind it. -/
  | escape (c : Char)
  /-- A backslash, `u` and four hexadecimal digits. -/
  | code (digits : Text)
  deriving DecidableEq, Repr

/-- Whether a text begins with four hexadecimal digits. -/
def startsWithCode (cs : Text) : Bool := (cs.take 4).length == 4 && (cs.take 4).all isHexDigit

/-- The parts of a text. A backslash at the very end stands for itself. -/
def parts : Text → List Part
  | [] => []
  | '\\' :: c :: cs =>
    if c == 'u' && startsWithCode cs then .code (cs.take 4) :: parts (cs.drop 4)
    else .escape c :: parts cs
  | c :: cs => .plain c :: parts cs
termination_by text => text.length

namespace Part

def text : Part → Text
  | plain c => [c]
  | escape c => ['\\', c]
  | code digits => '\\' :: 'u' :: digits

/-- The character a part means, if it means one. -/
def meaning? : Part → Option Char
  | plain c => some c
  | escape c => escapes.lookup c
  | code digits => charOfCode? (hexValue digits)

/-- The character a part means; a part that means none is kept as it is written. -/
def decode (p : Part) : Text :=
  match p.meaning? with
  | some c => [c]
  | none => p.text

/-- Whether a part is an escape of a character that has none. -/
def isInvalid : Part → Bool
  | escape c => (escapes.lookup c).isNone
  | _ => false

end Part

/-- The places of the invalid escapes among parts that begin at an offset. -/
def invalidAmong (offset : Nat) : List Part → List Span
  | [] => []
  | p :: ps =>
    let stop := offset + p.text.size
    if p.isInvalid then ⟨offset, stop⟩ :: invalidAmong stop ps else invalidAmong stop ps

/-! ## Reading -/

theorem length_behind_escape (c : Char) (cs : Text) : cs.length < ('\\' :: c :: cs).length :=
  Nat.lt_add_of_pos_right Nat.two_pos

theorem length_behind_code (c : Char) (cs : Text) :
    (cs.drop 4).length < ('\\' :: c :: cs).length :=
  Nat.lt_of_le_of_lt (by simp) (length_behind_escape c cs)

/-- What the characters between the quotes of a string mean. Behind `\u` the digits of a code that
means no character are read as any others. -/
def unescapeChars : Text → Text
  | [] => []
  | '\\' :: c :: cs =>
    match escapes.lookup c with
    | some d => d :: unescapeChars cs
    | none =>
      if c == 'u' then
        match (code? (cs.take 4)).bind charOfCode? with
        | some d => d :: unescapeChars (cs.drop 4)
        | none => '\\' :: 'u' :: unescapeChars cs
      else
        '\\' :: c :: unescapeChars cs
  | c :: cs => c :: unescapeChars cs
termination_by text => text.length
decreasing_by
  · exact length_behind_escape c cs
  · exact length_behind_code c cs
  · exact length_behind_escape c cs
  · exact length_behind_escape c cs
  · exact Nat.lt_succ_self cs.length

/-- What a quoted string means. -/
def unescape (text : Text) : Text := unescapeChars (stripQuotes text)

/-- The places of the invalid escapes in a text that begins at an offset: each covers a backslash
and the character behind it. -/
def invalidFrom (offset : Nat) : Text → List Span
  | [] => []
  | '\\' :: c :: cs =>
    let stop := offset + Text.size ['\\', c]
    if (escapes.lookup c).isSome then invalidFrom stop cs
    else if c == 'u' && (code? (cs.take 4)).isSome then
      invalidFrom (stop + Text.size (cs.take 4)) (cs.drop 4)
    else ⟨offset, stop⟩ :: invalidFrom stop cs
  | c :: cs => invalidFrom (offset + c.utf8Size) cs
termination_by text => text.length
decreasing_by
  · exact length_behind_escape c cs
  · exact length_behind_code c cs
  · exact length_behind_escape c cs
  · exact Nat.lt_succ_self cs.length

/-- The places in a text of escapes that a quoted string does not have. -/
def invalidEscapes (text : Text) : List Span := invalidFrom 0 text

/-! ## Writing -/

def isControl (c : Char) : Bool := c.toNat < 0x20 || (0x7f ≤ c.toNat && c.toNat < 0xa0)

def hexDigit (n : Nat) : Char := Nat.digitChar n

def escapeChar (c : Char) : Text :=
  match c with
  | '"' => ['\\', '"']
  | '\\' => ['\\', '\\']
  | '\n' => ['\\', 'n']
  | '\r' => ['\\', 'r']
  | '\t' => ['\\', 't']
  | '\x08' => ['\\', 'b']
  | '\x0c' => ['\\', 'f']
  | c =>
    if isControl c then
      ['\\', 'u', '0', '0', hexDigit (c.toNat / 16), hexDigit (c.toNat % 16)]
    else
      [c]

def escape (text : Text) : Text := text.flatMap escapeChar

/-- A text as a quoted string. -/
def quote (text : Text) : Text := '"' :: escape text ++ ['"']

/-- Whether a text can be written as a key without quotes. -/
def isBareKey (name : Text) : Bool :=
  match name with
  | [] => false
  | c :: cs =>
    Lexer.isNameStart c && cs.all Lexer.isNameChar && (Lexer.reserved.lookup name).isNone

/-! ## Closing -/

/-- How many times a character stands at the end of a text. -/
def countAtEnd (c : Char) (text : Text) : Nat := (text.reverse.takeWhile (· == c)).length

/-- What to write behind a string without its closing quotes so that it ends there. Quotes that
already stand at the end of a multiline string count; a backslash that would take the closing
quote with it gets another. -/
def closer (text : Text) : Text :=
  if Text.startsWith text Lexer.tripleQuote then
    Lexer.tripleQuote.drop (min (countAtEnd '"' (text.drop 3)) 2)
  else
    let body := if Text.startsWith text ['"'] then text.drop 1 else text
    if countAtEnd '\\' body % 2 = 1 then ['\\', '"'] else ['"']

/-- The parts of a text are the text. -/
theorem flatMap_text_parts (text : Text) : (parts text).flatMap Part.text = text := by
  induction text using parts.induct with
  | case1 => simp [parts]
  | case2 c cs h ih =>
    rw [parts, if_pos h, List.flatMap_cons, ih]
    obtain rfl : c = 'u' := by simp_all
    simp [Part.text]
  | case3 c cs h ih =>
    rw [parts, if_neg h, List.flatMap_cons, ih]
    rfl
  | case4 c cs hne ih =>
    rw [parts.eq_3 _ _ hne]
    simp [ih, Part.text]

end Maml.Quoted
