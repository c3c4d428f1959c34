import Maml.Text
import Maml.Token.Kind

/-! Byte ranges, and the ways an operation on them can fail.

A `Span` is a half-open range of byte offsets. Spans that come from elsewhere go
through `Span.ofBounds` or `Span.checked`, which refuse those that start after
their end. A `Fault` is the reason why an operation has no answer. `sortByRange`
is the stable order of things that have spans. -/
namespace Maml

/-- The reason why an operation has no answer. -/
inductive Fault where
  /-- A span was to start after its end. -/
  | reversedSpan (start stop : Nat)
  /-- Lexing was to resume inside a character or past the end. -/
  | restart (offset : Nat)
  /-- A token was asked for past the end of the input. -/
  | exhausted
  /-- A significant token was asked for while trivia stood before it. -/
  | pendingTrivia (kind : TokenKind)
  /-- An edit began before the previous one ended. -/
  | overlappingEdits (start : Nat)
  /-- A code stands for no kind of tree element. -/
  | unknownKind
  /-- The range of an error or edit was to start after its end. -/
  | reversedRange (start stop : Nat)
  /-- A part of a text was asked for between offsets that are not positions in it. -/
  | badSlice (start stop : Nat)
  /-- A node was closed that was not open, or the tree was not whole at the end. -/
  | unbalanced
  /-- A count went below zero. -/
  | underflow
  /-- A count of bytes did not fit into its 32 bits. -/
  | overflow
  deriving DecidableEq, Repr

/-- What a fault says, for the faults that have a wording. -/
def Fault.message : Fault → Option String
  | reversedSpan start stop => some s!"span {start}..{stop} is reversed"
  | restart offset => some s!"restart offset {offset} is not a char boundary"
  | exhausted => some "token stream bumped past end of input"
  | pendingTrivia kind => some s!"token stream bumped over pending trivia {kind.name}"
  | overlappingEdits start => some s!"overlapping edits at {start}"
  | unknownKind => some "invalid SyntaxKind value from rowan"
  | reversedRange .. | badSlice .. | unbalanced | underflow | overflow => none

/-- A half-open range of byte offsets. -/
structure Span where
  /-- The offset of the first byte. -/
  start : Nat
  /-- The offset after the last byte. -/
  stop : Nat
  deriving DecidableEq, Repr

namespace Span

/-- The span between two offsets, which must be in order. -/
def ofBounds (start stop : Nat) : Except Fault Span :=
  if start ≤ stop then .ok ⟨start, stop⟩ else .error (.reversedSpan start stop)

/-- The span of no bytes at an offset. -/
def empty (offset : Nat) : Span := ⟨offset, offset⟩

def length (s : Span) : Nat := s.stop - s.start

def isEmpty (s : Span) : Bool := s.start == s.stop

/-- Whether a span does not start after its end. -/
def Ordered (s : Span) : Prop := s.start ≤ s.stop

instance (s : Span) : Decidable s.Ordered := inferInstanceAs (Decidable (_ ≤ _))

/-- The span itself, or a fault if it starts after its end. -/
def checked (s : Span) : Except Fault Span :=
  if s.Ordered then .ok s else .error (.reversedRange s.start s.stop)

/-- The least span that contains two others. -/
def cover (s t : Span) : Span := ⟨min s.start t.start, max s.stop t.stop⟩

def slice (s : Span) (source : Text) : Except Fault Text :=
  match source.slice? s.start s.stop with
  | some part => .ok part
  | none => .error (.badSlice s.start s.stop)

/-- Whether a span sorts no later than another: by start, then by end. -/
def sortsBefore (s t : Span) : Bool :=
  s.start < t.start || (s.start == t.start && s.stop ≤ t.stop)

/-- The span between two offsets starts and ends at them. -/
theorem ofBounds_eq_ok {start stop : Nat} {s : Span} :
    ofBounds start stop = .ok s ↔ start ≤ stop ∧ s = ⟨start, stop⟩ := by
  unfold ofBounds
  split
  · rename_i h
    simp [h, eq_comm]
  · rename_i h
    simp [h]

theorem ordered_empty (offset : Nat) : (empty offset).Ordered := Nat.le_refl offset

/-- The cover of two spans is in order if one of them is. -/
theorem ordered_cover {s : Span} (hs : s.Ordered) (t : Span) : (s.cover t).Ordered := by
  unfold Ordered cover at *
  simp only
  omega

end Span

/-! ## Sorting by range -/

/-- Puts an item into a list sorted by range, in front of those with the same range. -/
def insertByRange {α : Type} (range : α → Span) (a : α) : List α → List α
  | [] => [a]
  | b :: bs =>
    if (range a).sortsBefore (range b) then a :: b :: bs else b :: insertByRange range a bs

/-- Sorts a list by range; items with the same range keep their order. -/
def sortByRange {α : Type} (range : α → Span) (as : List α) : List α :=
  as.foldr (insertByRange range) []

theorem mem_insertByRange {α : Type} (range : α → Span) {a b : α} {as : List α} :
    b ∈ insertByRange range a as ↔ b = a ∨ b ∈ as := by
  induction as with
  | nil => simp [insertByRange]
  | cons c cs ih =>
    unfold insertByRange
    split
    · simp
    · simp only [List.mem_cons, ih]
      exact or_left_comm

/-- Sorting keeps the items. -/
theorem mem_sortByRange {α : Type} (range : α → Span) {a : α} {as : List α} :
    a ∈ sortByRange range as ↔ a ∈ as := by
  induction as with
  | nil => simp [sortByRange]
  | cons b bs ih =>
    show a ∈ insertByRange range b (sortByRange range bs) ↔ _
    rw [mem_insertByRange, ih, List.mem_cons]

end Maml
