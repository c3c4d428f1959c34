import Maml.Defect
import Maml.View

/-! Gaps between the elements of a list.

The children of a kind in a list follow one another; what stands between each two of
them is a gap. A gap can hold anything: blanks and comments, commas, or nodes of other
kinds. Like the tests for defects, gaps are found in the tree alone, and whether a gap
holds more than spaces and tabs is a question about the text. -/
namespace Maml

/-- Whether a text is made of spaces and tabs only. -/
def Text.isInline (t : Text) : Bool := t.all fun c => c == ' ' || c == '\t'

/-- Whether a range of a text holds nothing but spaces and tabs. -/
def Span.isInlineIn (s : Span) (source : Text) : Bool :=
  (source.slice? s.start s.stop).any Text.isInline

namespace Site

/-- The gaps between the sites of a kind in a row; `previous` is the last such site in front of
the row. -/
def gapsFrom (kind : NodeKind) (previous : Option Site) : List Site → List Span
  | [] => []
  | s :: rest =>
    if s.tree.isNodeOf kind then
      (previous.map fun p => ⟨p.stop, s.offset⟩).toList ++ gapsFrom kind (some s) rest
    else
      gapsFrom kind previous rest

end Site

/-- The gaps between the children of a kind. -/
def View.gaps {k : NodeKind} (kind : NodeKind) (v : View k) : List Span :=
  Site.gapsFrom kind none v.parts

/-- The gaps between the members of an object or between the items of an array. -/
def AnyView.gaps : AnyView → List Span
  | ⟨.members, v⟩ => v.gaps .keyValue
  | ⟨.items, v⟩ => v.gaps .value
  | _ => []

end Maml
