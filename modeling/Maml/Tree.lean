import Maml.Tree.Label

/-! Lossless trees.

The leaves of a `Tree` are tokens with their texts, so the tree of a document
holds the whole document, trivia and mistakes included. Trees can also be built
by hand: any label may stand at a leaf or at a node, and a node may be empty. -/
namespace Maml

/-- A tree whose leaves are labelled texts. -/
inductive Tree where
  | leaf (label : Label) (text : Text)
  | node (label : Label) (children : List Tree)
  deriving Repr

namespace Tree

def label : Tree → Label
  | leaf label _ => label
  | node label _ => label

mutual

/-- The texts of all leaves, in order. -/
def text : Tree → Text
  | leaf _ text => text
  | node _ children => textList children

def textList : List Tree → Text
  | [] => []
  | t :: ts => t.text ++ textList ts

end

mutual

/-- All leaves, in order. -/
def leaves : Tree → List (Label × Text)
  | leaf label text => [(label, text)]
  | node _ children => leavesList children

def leavesList : List Tree → List (Label × Text)
  | [] => []
  | t :: ts => t.leaves ++ leavesList ts

end

mutual

/-- The number of bytes a tree covers. -/
def size : Tree → Nat
  | leaf _ text => text.size
  | node _ children => sizeList children

def sizeList : List Tree → Nat
  | [] => 0
  | t :: ts => t.size + sizeList ts

end

mutual

/-- The size of a tree is the size of its text. -/
theorem size_eq : ∀ t : Tree, t.size = t.text.size
  | leaf _ _ => rfl
  | node _ children => sizeList_eq children

theorem sizeList_eq : ∀ ts : List Tree, sizeList ts = (textList ts).size
  | [] => rfl
  | t :: ts => by rw [sizeList, textList, Text.size_append, size_eq t, sizeList_eq ts]

end

end Tree

end Maml
