import Maml.Draft.Nesting
import Maml.Token.Stream

/-! Parsing.

A document is one value, if it begins like one; everything behind it is skipped
as a whole. `parse` gives the lossless tree of any text, with the mistakes met on
the way. `parseTokens` does the same for given tokens; their spans may be out of
order, and then the range of a mistake may be reversed, which is a fault. -/
namespace Maml

open Draft

/-- Whether a token is taken for the beginning of the document's value. -/
def beginsDocument (kind : TokenKind) : Bool :=
  kind.startsValue || kind == .identifier || kind == .unterminatedString

/-- The node of everything behind the document's value. -/
def trailingError (l : Lexeme) (ls : List Lexeme) : Draft :=
  let rest := ls.map leaf
  let range := ⟨l.token.span.start, (lastTokenFrom l.token rest).span.stop⟩
  node .error none (leaf l) rest (unexpected .eof l.token range)

/-- Everything behind the document's value as at most one node. -/
def trailing : List Lexeme → List Draft
  | [] => []
  | l :: ls => [trailingError l ls]

/-- The drafts of a document: its value, if it has one, and what is behind. -/
def documentDrafts (eof : Token) : List Lexeme → List Draft
  | [] => []
  | l :: ls =>
    if beginsDocument l.kind then
      let piece := pieceAt eof [] l ls
      piece.1.asValue :: trailing piece.2
    else
      trailing (l :: ls)

/-- A tree and the mistakes met in reading it. -/
structure Parse where
  tree : Tree
  errors : List ParseError
  deriving Repr

namespace Parse

/-- Whether no mistake was met. -/
def isOk (p : Parse) : Bool := p.errors.isEmpty

/-- The reading of tokens, whatever their spans. -/
def ofLexemes (input : Lexemes) : Parse :=
  let drafts := documentDrafts input.eof input.lexemes
  ⟨.node (.node .file) (trees drafts ++ input.trailing.map tokenLeaf), errorsList drafts⟩

end Parse

/-- The lossless tree of a text and the mistakes in it. -/
def parse (source : Text) : Parse :=
  .ofLexemes (.ofTokens (tokenize source) source.size)

/-- The reading of given tokens that end at an offset, if the ranges of all mistakes are in
order. -/
def parseTokens (tokens : List Token) (stop : Nat) : Except Fault Parse :=
  let p := Parse.ofLexemes (.ofTokens tokens stop)
  match p.errors.find? fun e => !decide e.range.Ordered with
  | some e => .error (.reversedRange e.range.start e.range.stop)
  | none => .ok p

/-- The reading of the tokens that a stream has not handed out. -/
def TokenStream.parse (s : TokenStream) : Except Fault Parse := parseTokens s.rest s.stop

end Maml
