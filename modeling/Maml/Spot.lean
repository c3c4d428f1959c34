import Maml.Defect
import Maml.View

/-! Parts of a tree with the nodes around them.

A `Spot` is a part of a tree in its place, a node or a leaf, together with the nodes
around it. A `Site` says where a part is; a spot also says inside what. -/
namespace Maml

/-- A part of a tree with the nodes around it. -/
structure Spot where
  /-- The nodes around the part, innermost first. -/
  around : List Site
  site : Site

namespace Site

mutual

/-- A tree and all its parts, with the nodes around them, in order. -/
def spotsOf (around : List Site) (offset : Nat) (before : List (Option Text)) : Tree → List Spot
  | .leaf label text => [⟨around, offset, before, .leaf label text⟩]
  | .node label children =>
    ⟨around, offset, before, .node label children⟩ ::
      spotsOfRow (⟨offset, before, .node label children⟩ :: around) offset before children

def spotsOfRow (around : List Site) (offset : Nat) (before : List (Option Text)) :
    List Tree → List Spot
  | [] => []
  | t :: ts =>
    spotsOf around offset before t ++
      spotsOfRow around (offset + t.size) (t.slotsAfter before) ts

end

/-- The last part of a node, if it is a leaf. -/
def end? (s : Site) : Option LeafView := s.parts.getLast?.bind (·.leaf?)

end Site

/-- The innermost of the nodes around a part that is a container of a sort. -/
def Container.nearest? (c : Container) (around : List Site) : Option Site :=
  around.find? (·.tree.isNodeOf c.nodeKind)

namespace Spot

/-- Whether a part was skipped without being looked into: in a container nested too deep, or behind
the document's value. -/
def isUnread (x : Spot) : Bool :=
  x.around.any (·.tree.isTooDeep) || x.around.dropLast.getLast?.any (·.tree.isNodeOf .error)

end Spot

/-- Leaves that follow one another from an offset. -/
def LeafView.row (offset : Nat) : List (Label × Text) → List LeafView
  | [] => []
  | (label, text) :: rest => ⟨offset, label, text⟩ :: row (offset + text.size) rest

namespace Parse

/-- A document's tree and all its parts. -/
def spots (p : Parse) : List Spot := Site.spotsOf [] 0 [] p.tree

/-- The leaves of a document's tree that are not trivia. -/
def significantLeaves (p : Parse) : List LeafView :=
  (LeafView.row 0 p.tree.leaves).filter (!·.label.isTrivia)

/-- The last of them in front of an offset. -/
def leafBefore? (p : Parse) (offset : Nat) : Option LeafView :=
  (p.significantLeaves.filter (·.offset < offset)).getLast?

/-- The first of them behind an offset. -/
def leafBehind? (p : Parse) (offset : Nat) : Option LeafView :=
  p.significantLeaves.find? (offset ≤ ·.offset)

end Parse

end Maml
