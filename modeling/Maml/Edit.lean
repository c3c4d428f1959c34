import Maml.Span

/-! Edits of a text.

An `Edit` replaces a range of a text. `applyEdits` makes several edits at once:
it takes them in the order of their ranges, edits at one range in the order in
which they are given, and refuses edits that overlap or lie outside the text. -/
namespace Maml

/-- The replacement of a range of a text. -/
structure Edit where
  range : Span
  replacement : Text
  deriving DecidableEq, Repr

namespace Edit

def insert (offset : Nat) (text : Text) : Edit := ⟨.empty offset, text⟩

def delete (range : Span) : Edit := ⟨range, []⟩

end Edit

/-- The text from an offset on, which must be a position in it. -/
def textFrom (source : Text) (offset : Nat) : Except Fault Text :=
  match source.splitAt? offset with
  | some (_, rest) => .ok rest
  | none => .error (.badSlice offset source.size)

/-- What becomes of a text from an offset on under sorted edits. -/
def spliceFrom (source : Text) (cursor : Nat) : List Edit → Except Fault Text
  | [] => textFrom source cursor
  | e :: es =>
    if e.range.start < cursor then
      .error (.overlappingEdits e.range.start)
    else do
      let kept ← Span.slice ⟨cursor, e.range.start⟩ source
      let rest ← spliceFrom source e.range.stop es
      return kept ++ e.replacement ++ rest

/-- A text with all edits made. -/
def applyEdits (source : Text) (edits : List Edit) : Except Fault Text :=
  spliceFrom source 0 (sortByRange Edit.range edits)

/-- Without edits a text stays as it is. -/
theorem applyEdits_nil (source : Text) : applyEdits source [] = .ok source := by
  simp [applyEdits, sortByRange, spliceFrom, textFrom]

end Maml
