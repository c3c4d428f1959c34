/-! The kinds of tokens.

Every character of a document belongs to exactly one token, so there are kinds
for what cannot be understood: a string whose closing quote is missing, and a
character that no other rule accepts. `eof` stands for the end of the input. -/
namespace Maml

/-- The kind of a token. -/
inductive TokenKind where
  | lBrace
  | rBrace
  | lBracket
  | rBracket
  | colon
  | comma
  | string
  | multilineString
  | unterminatedString
  | number
  | identifier
  | trueWord
  | falseWord
  | nullWord
  | comment
  | whitespace
  | badCharacter
  | eof
  deriving DecidableEq, Repr

namespace TokenKind

/-- Every kind of token, in the order of their codes. -/
def all : List TokenKind :=
  [lBrace, rBrace, lBracket, rBracket, colon, comma, string, multilineString,
    unterminatedString, number, identifier, trueWord, falseWord, nullWord, comment, whitespace,
    badCharacter, eof]

/-- Whitespace and comments separate tokens and mean nothing themselves. -/
def isTrivia : TokenKind → Bool
  | whitespace | comment => true
  | _ => false

/-- The reserved words. -/
def isKeyword : TokenKind → Bool
  | trueWord | falseWord | nullWord => true
  | _ => false

def isOpener : TokenKind → Bool
  | lBrace | lBracket => true
  | _ => false

def isCloser : TokenKind → Bool
  | rBrace | rBracket => true
  | _ => false

/-- The tokens a key can be written as. -/
def isKeyStart : TokenKind → Bool
  | string | identifier => true
  | _ => false

/-- The tokens that are a whole value by themselves. -/
def isScalar : TokenKind → Bool
  | string | multilineString | number | trueWord | falseWord | nullWord => true
  | _ => false

/-- The tokens a well-formed value begins with. -/
def startsValue (kind : TokenKind) : Bool := kind.isOpener || kind.isScalar

def name : TokenKind → String
  | lBrace => "LBrace"
  | rBrace => "RBrace"
  | lBracket => "LBracket"
  | rBracket => "RBracket"
  | colon => "Colon"
  | comma => "Comma"
  | string => "String"
  | multilineString => "MultilineString"
  | unterminatedString => "UnterminatedString"
  | number => "Number"
  | identifier => "Identifier"
  | trueWord => "True"
  | falseWord => "False"
  | nullWord => "Null"
  | comment => "Comment"
  | whitespace => "Whitespace"
  | badCharacter => "BadCharacter"
  | eof => "Eof"

/-- The list of all kinds is complete. -/
theorem mem_all (kind : TokenKind) : kind ∈ all := by
  cases kind <;> decide

/-- What is said of every kind is decided by going through all of them. -/
instance {P : TokenKind → Prop} [DecidablePred P] : Decidable (∀ kind, P kind) :=
  decidable_of_iff (∀ kind ∈ all, P kind) ⟨fun h kind => h kind (mem_all kind), fun h kind _ => h kind⟩

/-- Kinds that a test tells apart are different. -/
theorem beq_eq_false {p : TokenKind → Bool} {a b : TokenKind} (ha : p a = true)
    (hb : p b = false) : (a == b) = false := by
  apply beq_false_of_ne
  rintro rfl
  simp [ha] at hb

/-- Different kinds have different names. -/
theorem name_injective {a b : TokenKind} (h : a.name = b.name) : a = b := by
  revert h
  cases a <;> cases b <;> decide

end TokenKind

end Maml
