import Maml.Container
import Maml.Parse
import Maml.Site

/-! Defects of a tree.

A tree shows by its shape where a document is not well formed: a container whose
last child is not its closer, a key without a colon, a member without a value, a
value that is not one, and nodes of skipped tokens. The tests here look at the
tree alone; they know nothing of how it was read. -/
namespace Maml

namespace Tree

/-! ## Looking at a node -/

def isNodeOf (kind : NodeKind) : Tree → Bool
  | node label _ => label == .node kind
  | leaf .. => false

def isTokenOf (kind : TokenKind) : Tree → Bool
  | leaf label _ => label == .token kind
  | node .. => false

def isTrivia : Tree → Bool
  | leaf label _ => label.isTrivia
  | node .. => false

def children : Tree → List Tree
  | node _ children => children
  | leaf .. => []

/-- The children of a node that are not trivia. -/
def significantChildren (t : Tree) : List Tree := t.children.filter (!·.isTrivia)

/-- Whether the first token of a tree passes a test. -/
def beginsWith (test : TokenKind → Bool) (t : Tree) : Bool :=
  match t.firstLeaf? with
  | some (.token kind, _) => test kind
  | _ => false

/-! ## Defects that a node shows by itself -/

/-- Whether a tree is a container whose last child is not its closer. -/
def isUnclosed (c : Container) (t : Tree) : Bool :=
  t.isNodeOf c.nodeKind && !(t.children.getLast?.any (·.isTokenOf c.closer))

/-- Whether a tree is a key without a colon. A key whose closing quote is missing does not count. -/
def lacksColon (t : Tree) : Bool :=
  t.isNodeOf .incompleteKeyValue && t.beginsWith (·.isKeyStart)

/-- Whether a tree is a container that is nested too deep. -/
def isTooDeep (t : Tree) : Bool := t.isNodeOf .invalidValue && t.beginsWith (·.isOpener)

/-- Whether the last token of a tree is a closer of its own: the tree is a container that has its
closer, or one that is nested too deep and ends with such a closer. -/
def endsWithCloser (c : Container) (t : Tree) : Bool :=
  (t.isNodeOf c.nodeKind && !t.isUnclosed c) ||
    (t.isTooDeep && t.lastLeaf?.any (·.1 == .token c.closer))

/-- Whether a tree is made of tokens that are no value, in the place of one. -/
def isNoValue (t : Tree) : Bool := t.isNodeOf .invalidValue && !t.beginsWith (·.isOpener)

/-- Whether a tree is a key and a colon without a value. -/
def lacksValue (t : Tree) : Bool :=
  t.isNodeOf .keyValue && !(t.children.any (·.isNodeOf .value))

/-- Whether a tree is a key whose closing quote is missing. -/
def isUnterminatedKey (t : Tree) : Bool :=
  t.isNodeOf .key && t.beginsWith (· == .unterminatedString)

/-- Whether a node holds one reserved word or number and a colon, and nothing else. -/
def isBareLiteralKey (t : Tree) : Bool :=
  match t.significantChildren with
  | [key, colon] => key.beginsWith Draft.isQuotable && !key.isNode && colon.isTokenOf .colon
  | _ => false

end Tree

namespace Site

/-- The children of a site in their places. -/
def parts (s : Site) : List Site := row s.offset s.before s.tree.children

/-- The range of the first token of a site. -/
def firstTokenRange (s : Site) : Span :=
  match s.tree.firstLeaf? with
  | some (_, text) => ⟨s.offset, s.offset + text.size⟩
  | none => .empty s.offset

/-! ## Nodes of skipped tokens -/

/-- The nodes of skipped tokens in a row. -/
def errorsAmong (sites : List Site) : List Site := sites.filter (·.tree.isNodeOf .error)

/-- The nodes of skipped tokens in a row that do not directly follow a key without a colon, trivia
aside; `follows` says whether such a key is directly in front of the row. -/
def errorsNotFollowing (follows : Bool) : List Site → List Site
  | [] => []
  | s :: rest =>
    if s.tree.isTrivia then
      errorsNotFollowing follows rest
    else if s.tree.isNodeOf .error && !follows then
      s :: errorsNotFollowing false rest
    else
      errorsNotFollowing (s.tree.isNodeOf .incompleteKeyValue) rest

/-- What was skipped in the place of an item, if a site is the list of an array. -/
def skippedItems (s : Site) : List Site :=
  if s.tree.isNodeOf .items then errorsAmong s.parts else []

/-- What was skipped in the place of a member, if a site is the list of an object. -/
def skippedMembers (s : Site) : List Site :=
  if s.tree.isNodeOf .members then errorsNotFollowing false s.parts else []

/-- What was skipped behind the value, if a site is a document. -/
def skippedBehind (s : Site) : List Site :=
  if s.tree.isNodeOf .file then errorsAmong s.parts else []

end Site

namespace Parse

/-! ## Readings -/

/-- The nodes of a reading in their places, parents first. -/
def sites (p : Parse) : List Site := (Site.root p.tree).descendants

/-- The ranges of the errors that expected something. -/
def rangesOf (p : Parse) (expected : Expected) : List Span :=
  (p.errors.filter (·.expected == expected)).map (·.range)

/-- Those of them that mark a gap, where nothing was taken. -/
def gapsOf (p : Parse) (expected : Expected) : List Span :=
  (p.errors.filter fun e => e.expected == expected && e.isMissing).map (·.range)

/-- Those of them that cover tokens. -/
def stretchesOf (p : Parse) (expected : Expected) : List Span :=
  (p.errors.filter fun e => e.expected == expected && !e.isMissing).map (·.range)

end Parse

end Maml
