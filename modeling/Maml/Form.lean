import Maml.Defect

/-! The forms of nodes.

A node of a kind has children of certain labels only, in a certain order, trivia
aside. `NodeKind.admits` says which rows of children these are, and `Tree.hasForm`
whether a tree is a node with such a row. Like the tests for defects, they look at
the tree alone. -/
namespace Maml

namespace Tree

def isTokenWith (test : TokenKind → Bool) : Tree → Bool
  | leaf label _ => label.tokenKind?.any test
  | node .. => false

def isPlus : Tree → Bool
  | leaf label text => label == .token .badCharacter && text == ['+']
  | node .. => false

end Tree

namespace Container

/-- Whether a tree can be an element of a container's list. -/
def isElement : Container → Tree → Bool
  | object, t => t.isNodeOf .keyValue || t.isNodeOf .incompleteKeyValue || t.isNodeOf .error
  | array, t => t.isNodeOf .value || t.isNodeOf .error

/-- Whether trees are elements of a container's list with at most one comma behind each;
`separated` says that a bracket or a comma is directly in front of them. -/
def separates (c : Container) (separated : Bool) : List Tree → Bool
  | [] => true
  | t :: ts =>
    if t.isTokenOf .comma then !separated && c.separates true ts
    else c.isElement t && c.separates false ts

/-- Whether trees are a container's opener, its list and its closer; there may be no list, and the
closer may be missing. -/
def encloses (c : Container) : List Tree → Bool
  | [o] => o.isTokenOf c.opener
  | [o, t] => o.isTokenOf c.opener && (t.isNodeOf c.listKind || t.isTokenOf c.closer)
  | [o, l, t] => o.isTokenOf c.opener && l.isNodeOf c.listKind && t.isTokenOf c.closer
  | _ => false

end Container

/-- Whether trees are tokens in the place of a value: one that begins none, a plus sign and a
number, or an opener and whatever was taken with it. -/
def isInvalidRow : List Tree → Bool
  | [] => false
  | t :: ts =>
    (t.isTokenWith (!·.startsValue) && ts.isEmpty) ||
      (t.isPlus && ts.length == 1 && ts.all (·.isTokenOf .number)) ||
      (t.isTokenWith (·.isOpener) && ts.all (·.isTokenWith fun _ => true))

/-- Whether a tree can be skipped. -/
def Tree.isSkippable (t : Tree) : Bool := t.isTokenWith (fun _ => true) || t.isNodeOf .value

/-- Whether a node of a kind can have these children, trivia aside. -/
def NodeKind.admits : NodeKind → List Tree → Bool
  | .file, [] => true
  | .file, [t] => t.isNodeOf .value || t.isNodeOf .error
  | .file, [t, u] => t.isNodeOf .value && u.isNodeOf .error
  | .value, [t] =>
    t.isNodeOf .object || t.isNodeOf .array || t.isNodeOf .invalidValue ||
      t.isTokenWith (·.isScalar)
  | .object, ts => Container.object.encloses ts
  | .members, t :: ts => Container.object.separates true (t :: ts)
  | .keyValue, [k, t] => k.isNodeOf .key && t.isTokenOf .colon
  | .keyValue, [k, t, v] => k.isNodeOf .key && t.isTokenOf .colon && v.isNodeOf .value
  | .incompleteKeyValue, [k] => k.isNodeOf .key
  | .key, [t] => t.isTokenWith Draft.isKey
  | .array, ts => Container.array.encloses ts
  | .items, t :: ts => Container.array.separates true (t :: ts)
  | .invalidValue, ts => isInvalidRow ts
  | .error, t :: ts => (t :: ts).all Tree.isSkippable
  | _, _ => false

/-- Whether a tree is a node with children that its kind admits. -/
def Tree.hasForm : Tree → Bool
  | .node (.node kind) children => kind.admits (children.filter (!·.isTrivia))
  | _ => false

end Maml
