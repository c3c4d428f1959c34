import Maml.Leaves

/-! How deep a document is nested.

Containers are nested in one another up to a limit. What is nested deeper is cut off:
its tokens are taken without being looked into, up to the first point at which as many
brackets were closed as opened. -/
namespace Maml

def Tree.isContainer (t : Tree) : Bool := t.isNodeOf .object || t.isNodeOf .array

/-- How many of some nodes are containers. -/
def containersAmong (sites : List Site) : Nat := sites.countP (·.tree.isContainer)

/-- How many containers are around a part. -/
def Spot.depth (x : Spot) : Nat := containersAmong x.around

namespace LeafView

/-- Whether a leaf is a token whose kind passes a test. -/
def isTokenWith (test : TokenKind → Bool) (l : LeafView) : Bool := l.label.tokenKind?.any test

/-- How many leaves open a container, of either sort. -/
def openers (ls : List LeafView) : Nat := ls.countP (isTokenWith (·.isOpener))

def closers (ls : List LeafView) : Nat := ls.countP (isTokenWith (·.isCloser))

/-- Whether a run is the shortest one at the start of given leaves in which as many brackets are
closed as opened, or all the leaves if there is no such run. -/
structure IsShortestBalanced (run all : List LeafView) : Prop where
  isPrefix : run <+: all
  ne_nil : run ≠ []
  shortest : ∀ k, 0 < k → k < run.length → openers (run.take k) ≠ closers (run.take k)
  ends : openers run = closers run ∨ run = all

end LeafView

end Maml
