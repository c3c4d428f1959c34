import Maml.Span

/-! Labels of tree elements.

An element of a tree is labelled by a kind of token or by a kind of node. Labels
have codes below 30; code 18 lies between the two sorts and is not used. -/
namespace Maml

/-- The kind of an inner node of a document's tree. -/
inductive NodeKind where
  /-- The whole document. -/
  | file
  | value
  | object
  /-- What stands between the braces of an object. -/
  | members
  | keyValue
  /-- A key without a colon. -/
  | incompleteKeyValue
  | key
  | array
  /-- What stands between the brackets of an array. -/
  | items
  /-- Tokens in the place of a value that are not one. -/
  | invalidValue
  /-- Tokens that were skipped. -/
  | error
  deriving DecidableEq, Repr

/-- Every kind of node, in the order of their codes. -/
def NodeKind.all : List NodeKind :=
  [file, value, object, members, keyValue, incompleteKeyValue, key, array, items, invalidValue,
    error]

theorem NodeKind.mem_all (kind : NodeKind) : kind ∈ all := by
  cases kind <;> decide

/-- What labels an element of a tree. -/
inductive Label where
  | token (kind : TokenKind)
  | node (kind : NodeKind)
  deriving DecidableEq, Repr

namespace Label

/-- Every label, in the order of their codes. -/
def all : List Label := TokenKind.all.map token ++ NodeKind.all.map node

/-- The kind of token a label stands for, if it does for one. -/
def tokenKind? : Label → Option TokenKind
  | token kind => some kind
  | node _ => none

def isToken : Label → Bool
  | token _ => true
  | node _ => false

def isNode (l : Label) : Bool := !l.isToken

def isTrivia : Label → Bool
  | token kind => kind.isTrivia
  | node _ => false

/-- The code of a label: token kinds from 0, node kinds from 19. -/
def code : Label → Nat
  | token kind => kind.ctorIdx
  | node kind => 19 + kind.ctorIdx

/-- The label with a given code. -/
def ofCode? (n : Nat) : Option Label := all.find? (·.code == n)

/-- The label with a given code, which must stand for one. -/
def ofCode (n : Nat) : Except Fault Label :=
  match ofCode? n with
  | some label => .ok label
  | none => .error .unknownKind

def name : Label → String
  | token .lBrace => "L_BRACE"
  | token .rBrace => "R_BRACE"
  | token .lBracket => "L_BRACKET"
  | token .rBracket => "R_BRACKET"
  | token .colon => "COLON"
  | token .comma => "COMMA"
  | token .string => "STRING"
  | token .multilineString => "MULTILINE_STRING"
  | token .unterminatedString => "UNTERMINATED_STRING"
  | token .number => "NUMBER"
  | token .identifier => "IDENTIFIER"
  | token .trueWord => "TRUE_KW"
  | token .falseWord => "FALSE_KW"
  | token .nullWord => "NULL_KW"
  | token .comment => "COMMENT"
  | token .whitespace => "WHITESPACE"
  | token .badCharacter => "BAD_CHARACTER"
  | token .eof => "EOF"
  | node .file => "FILE"
  | node .value => "VALUE"
  | node .object => "OBJECT"
  | node .members => "MEMBERS"
  | node .keyValue => "KEY_VALUE"
  | node .incompleteKeyValue => "INCOMPLETE_KEY_VALUE"
  | node .key => "KEY"
  | node .array => "ARRAY"
  | node .items => "ITEMS"
  | node .invalidValue => "INVALID_VALUE"
  | node .error => "ERROR"

/-- The list of all labels is complete. -/
theorem mem_all (label : Label) : label ∈ all := by
  rcases label with kind | kind <;> cases kind <;> decide

/-- A label is found by its code. -/
theorem ofCode?_code (label : Label) : ofCode? label.code = some label := by
  rcases label with kind | kind <;> cases kind <;> rfl

/-- Different labels have different names. -/
theorem name_injective {a b : Label} (h : a.name = b.name) : a = b := by
  revert h
  rcases a with a | a <;> rcases b with b | b <;> cases a <;> cases b <;> decide

end Label

end Maml
