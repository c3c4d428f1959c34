import Maml.Tree
import Maml.Token.Lexer

/-! Trees in their places.

A `Site` is a part of a tree together with where it stands: its byte offset, and
what comes before it. Of what comes before it remembers one slot for each leaf
and one for each node without children, nearest first. Such an empty node holds
no token, and looking back from a token ends there. -/
namespace Maml

namespace Tree

mutual

/-- The slots behind a tree, nearest first, given those in front of it: one with the text of each
leaf, and `none` for an empty node. -/
def slotsAfter (before : List (Option Text)) : Tree → List (Option Text)
  | leaf _ text => some text :: before
  | node _ [] => none :: before
  | node _ (t :: ts) => slotsAfterRow (slotsAfter before t) ts

/-- The slots behind a row of trees, given those in front of it. -/
def slotsAfterRow (before : List (Option Text)) : List Tree → List (Option Text)
  | [] => before
  | t :: ts => slotsAfterRow (slotsAfter before t) ts

end

/-- The leaf found by going to the first child again and again. -/
def firstLeaf? : Tree → Option (Label × Text)
  | leaf label text => some (label, text)
  | node _ [] => none
  | node _ (t :: _) => t.firstLeaf?

mutual

/-- The leaf found by going to the last child again and again. -/
def lastLeaf? : Tree → Option (Label × Text)
  | leaf label text => some (label, text)
  | node _ children => lastLeafList? children

/-- The same for a row of trees. -/
def lastLeafList? : List Tree → Option (Label × Text)
  | [] => none
  | t :: ts =>
    match ts with
    | [] => t.lastLeaf?
    | _ :: _ => lastLeafList? ts

end

def isNode : Tree → Bool
  | leaf .. => false
  | node .. => true

end Tree

/-- A part of a tree in its place. -/
structure Site where
  offset : Nat
  /-- The slots in front of this part, nearest first. -/
  before : List (Option Text)
  tree : Tree

namespace Site

/-- A whole tree. -/
def root (tree : Tree) : Site := ⟨0, [], tree⟩

/-- The trees of a row in their places. -/
def row (offset : Nat) (before : List (Option Text)) : List Tree → List Site
  | [] => []
  | t :: ts => ⟨offset, before, t⟩ :: row (offset + t.size) (t.slotsAfter before) ts

def stop (s : Site) : Nat := s.offset + s.tree.size

def range (s : Site) : Span := ⟨s.offset, s.stop⟩

mutual

/-- The nodes of a tree in their places, parents first. -/
def nodesOf (offset : Nat) (before : List (Option Text)) : Tree → List Site
  | .leaf .. => []
  | .node label children =>
    ⟨offset, before, .node label children⟩ :: nodesOfRow offset before children

/-- The nodes of a row of trees in their places. -/
def nodesOfRow (offset : Nat) (before : List (Option Text)) : List Tree → List Site
  | [] => []
  | t :: ts =>
    nodesOf offset before t ++ nodesOfRow (offset + t.size) (t.slotsAfter before) ts

end

/-- The nodes at and below a site, parents first. -/
def descendants (s : Site) : List Site := nodesOf s.offset s.before s.tree

/-- The texts just before a place, back to the last line break or an empty node. -/
def lineBefore : List (Option Text) → Text
  | some text :: before =>
    if text.any Lexer.isLineBreak then
      (text.reverse.takeWhile (!Lexer.isLineBreak ·)).reverse
    else
      lineBefore before ++ text
  | none :: _ => []
  | [] => []

/-- The blanks at the start of the line on which a site starts. A site without a first token is
on no line. -/
def indent (s : Site) : Text :=
  match s.tree.firstLeaf? with
  | some _ => (lineBefore s.before).takeWhile fun c => c == ' ' || c == '\t'
  | none => []

end Site

end Maml
