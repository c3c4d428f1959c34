import Maml.Spot

/-! Leaves inside nodes.

The leaves of a node stand where they do in the document. Of the nodes that two leaves
are in, the innermost is in all others. -/
namespace Maml

namespace Site

/-- The leaves of a part of a tree, where they stand. -/
def leaves (s : Site) : List LeafView := LeafView.row s.offset s.tree.leaves

/-- Those of them that are not trivia. -/
def significantLeaves (s : Site) : List LeafView := s.leaves.filter (!·.label.isTrivia)

/-- Whether two leaves are both in a part of a tree. -/
def HoldsBoth (s : Site) (l r : LeafView) : Prop := l ∈ s.leaves ∧ r ∈ s.leaves

/-- Whether a part of a tree begins and ends with a leaf that is not trivia. -/
def HasSignificantEnds (s : Site) : Prop :=
  (∃ l, s.leaves.head? = some l ∧ l.label.isTrivia = false) ∧
    ∃ l, s.leaves.getLast? = some l ∧ l.label.isTrivia = false

end Site

/-- Whether a node is the innermost of those that two leaves of a document are in. -/
structure Parse.IsInnermost (p : Parse) (s : Site) (l r : LeafView) : Prop where
  mem : s ∈ p.sites
  holds : s.HoldsBoth l r
  /-- It is at or below every other such node. -/
  inside : ∀ u ∈ p.sites, u.HoldsBoth l r → s ∈ u.descendants

end Maml
