import Maml.Container
import Maml.Lexeme
import Maml.Tree

/-! Drafts of a tree.

A `Draft` is a tree over lexemes whose nodes note the mistakes that were met at
them: before their first part or after their last one. Every node has a first
part, so every draft begins and ends with a significant token.

`Draft.tree` is the lossless tree of a draft. A node's tree begins at its first
significant token: trivia in front of it is left to the node around it.
`Draft.errors` lists the mistakes in the order in which they were met. -/
namespace Maml

/-- A tree over lexemes that notes the mistakes met at its nodes. -/
inductive Draft where
  | leaf (lexeme : Lexeme)
  | node (kind : NodeKind) (before : Option ParseError) (first : Draft) (rest : List Draft)
      (after : Option ParseError)
  deriving Repr

namespace Draft

/-- A node without mistakes of its own. -/
def plain (kind : NodeKind) (first : Draft) (rest : List Draft) : Draft :=
  node kind none first rest none

/-- A row of drafts as one node; an empty row makes no node. -/
def wrap (kind : NodeKind) : List Draft → List Draft
  | [] => []
  | d :: ds => [plain kind d ds]

/-- Whether a draft is a single token of a kind. -/
def isToken (kind : TokenKind) : Draft → Bool
  | leaf l => l.kind == kind
  | node .. => false

theorem eq_leaf_of_isToken {kind : TokenKind} {d : Draft} (h : d.isToken kind = true) :
    ∃ l, d = leaf l ∧ l.kind = kind := by
  cases d with
  | leaf l => exact ⟨l, rfl, by simpa [isToken] using h⟩
  | node => simp [isToken] at h

def firstLexeme : Draft → Lexeme
  | leaf l => l
  | node _ _ first _ _ => first.firstLexeme

def firstToken (d : Draft) : Token := d.firstLexeme.token

def trivia (d : Draft) : List Token := d.firstLexeme.trivia

/-- The first significant token of a row of drafts, or the one that comes after them. -/
def nextToken (stop : Token) : List Draft → Token
  | [] => stop
  | d :: _ => d.firstToken

mutual

def lexemes : Draft → List Lexeme
  | leaf l => [l]
  | node _ _ first rest _ => first.lexemes ++ lexemesList rest

def lexemesList : List Draft → List Lexeme
  | [] => []
  | d :: ds => d.lexemes ++ lexemesList ds

end

mutual

def lastToken : Draft → Token
  | leaf l => l.token
  | node _ _ first rest _ => lastTokenFrom first.lastToken rest

/-- The last significant token of a row of drafts, or the one that comes before them. -/
def lastTokenFrom (t : Token) : List Draft → Token
  | [] => t
  | d :: ds => lastTokenFrom d.lastToken ds

end

mutual

/-- The mistakes met in a draft, in order. -/
def errors : Draft → List ParseError
  | leaf _ => []
  | node _ before first rest after =>
    before.toList ++ first.errors ++ errorsList rest ++ after.toList

def errorsList : List Draft → List ParseError
  | [] => []
  | d :: ds => d.errors ++ errorsList ds

end

@[simp] theorem errors_leaf (l : Lexeme) : (leaf l).errors = [] := rfl

@[simp] theorem errors_node (kind : NodeKind) (before : Option ParseError) (first : Draft)
    (rest : List Draft) (after : Option ParseError) :
    (node kind before first rest after).errors =
      before.toList ++ first.errors ++ errorsList rest ++ after.toList := rfl

@[simp] theorem errors_plain (kind : NodeKind) (first : Draft) (rest : List Draft) :
    (plain kind first rest).errors = first.errors ++ errorsList rest := by
  simp [plain]

@[simp] theorem errorsList_nil : errorsList [] = [] := rfl

@[simp] theorem errorsList_cons (d : Draft) (ds : List Draft) :
    errorsList (d :: ds) = d.errors ++ errorsList ds := rfl

@[simp] theorem errorsList_append (ds es : List Draft) :
    errorsList (ds ++ es) = errorsList ds ++ errorsList es := by
  induction ds with
  | nil => rfl
  | cons d ds ih => simp [ih, List.append_assoc]

@[simp] theorem errorsList_wrap (kind : NodeKind) (ds : List Draft) :
    errorsList (wrap kind ds) = errorsList ds := by
  cases ds <;> simp [wrap]

@[simp] theorem errorsList_map_leaf (ls : List Lexeme) : errorsList (ls.map leaf) = [] := by
  induction ls with
  | nil => rfl
  | cons l ls ih => simp [ih]

def tokenLeaf (t : Token) : Tree := .leaf (.token t.kind) t.text

mutual

/-- The tree of a draft, without the trivia in front of it. -/
def tree : Draft → Tree
  | leaf l => tokenLeaf l.token
  | node kind _ first rest _ => .node (.node kind) (first.tree :: trees rest)

/-- The trees of a row of drafts, with the trivia in front of each. -/
def trees : List Draft → List Tree
  | [] => []
  | d :: ds => d.trivia.map tokenLeaf ++ d.tree :: trees ds

end

end Draft

end Maml
