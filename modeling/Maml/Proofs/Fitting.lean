import Maml.Proofs.Sorting
import Maml.Report

/-! Ranges, edits and fixes that fit a text.

1. A range that fits a text is in order and begins and ends between characters. It is the
   place of a part of the text (`Span.FitsIn.exists_append`).
2. Edits that fit a text and follow one another can be made (`exists_applyEdits`), so a fix
   that consists of such edits does what it says (`Fix.fitsIn_of_pairwise`).
3. The label of a range that fits a text has something to point at
   (`Span.FitsIn.exists_labelRange`). -/
namespace Maml

/-! ## Ranges -/

/-- Whether a range is in order and begins and ends between characters of a text. -/
structure Span.FitsIn (s : Span) (text : Text) : Prop where
  ordered : s.Ordered
  start : text.isBoundary s.start = true
  stop : text.isBoundary s.stop = true

namespace Span

theorem fitsIn_append (a b c : Text) : FitsIn ⟨a.size, a.size + b.size⟩ (a ++ b ++ c) where
  ordered := Nat.le_add_right _ _
  start := by
    rw [List.append_assoc]
    exact Text.isBoundary_size a (b ++ c)
  stop := by
    rw [← Text.size_append]
    exact Text.isBoundary_size (a ++ b) c

theorem fitsIn_empty {text : Text} {offset : Nat} (h : text.isBoundary offset = true) :
    FitsIn (empty offset) text :=
  ⟨ordered_empty offset, h, h⟩

namespace FitsIn

variable {s : Span} {text : Text}

/-- A range that fits a text is the place of a part of it. -/
theorem exists_append (h : s.FitsIn text) :
    ∃ a b c, text = a ++ b ++ c ∧ s = ⟨a.size, a.size + b.size⟩ := by
  obtain ⟨start, stop⟩ := s
  obtain ⟨a, rest, rfl, hstart⟩ := Text.exists_append_of_isBoundary h.start
  obtain ⟨front, c, htext, hstop⟩ := Text.exists_append_of_isBoundary h.stop
  have horder : start ≤ stop := h.ordered
  simp only at hstart hstop
  subst hstart hstop
  rcases List.append_eq_append_iff.mp htext with ⟨b, rfl, rfl⟩ | ⟨b, rfl, rfl⟩
  · exact ⟨a, b, c, by rw [List.append_assoc], by rw [Text.size_append]⟩
  · -- the end is not in front of the start, so there is nothing between them
    obtain rfl : b = [] := by
      rw [Text.size_append] at horder
      exact Text.size_eq_zero.mp (by omega)
    exact ⟨front, [], rest, by simp, by simp⟩

theorem exists_slice (h : s.FitsIn text) : ∃ part, s.slice text = .ok part := by
  obtain ⟨a, b, c, rfl, rfl⟩ := h.exists_append
  exact ⟨b, by simp only [slice, Text.slice?_size]⟩

/-- A range that fits a text has a label that points at something, unless there is no text. -/
theorem exists_labelRange (h : s.FitsIn text) (hne : text ≠ []) :
    ∃ label, Report.labelRange text s = .ok label ∧ label.start < label.stop ∧
      label.FitsIn text := by
  cases hempty : s.isEmpty with
  | false =>
    have horder : s.start ≤ s.stop := h.ordered
    have hdiffer : s.start ≠ s.stop := by simpa [isEmpty] using hempty
    exact ⟨s, by rw [Report.labelRange, hempty]; rfl, by omega, h⟩
  | true =>
    obtain ⟨a, b, c, rfl, rfl⟩ := h.exists_append
    obtain rfl : b = [] := by
      have hsize : a.size = a.size + b.size := by simpa [isEmpty] using hempty
      exact Text.size_eq_zero.mp (by omega)
    rw [List.append_nil] at hne ⊢
    have hmin : min a.size (Text.size (a ++ c)) = a.size := by
      rw [Text.size_append]
      omega
    rw [Report.labelRange, hempty, if_pos rfl, hmin]
    simp only [Text.splitAt?_size]
    cases c with
    | cons c cs =>
      have hfits := fitsIn_append a [c] cs
      have hpos := c.utf8Size_pos
      rw [List.append_assoc] at hfits
      exact ⟨_, rfl, by simp only; omega, hfits⟩
    | nil =>
      -- at the end of the text it is the last character
      rcases List.eq_nil_or_concat a with rfl | ⟨front, c, hlast⟩
      · exact absurd rfl hne
      · rw [List.concat_eq_append] at hlast
        subst hlast
        have hfits := fitsIn_append front [c] []
        have hpos := c.utf8Size_pos
        have hstart : Text.size (front ++ [c]) - c.utf8Size = Text.size front := by simp
        simp only [List.getLast?_concat, hstart]
        refine ⟨_, rfl, ?_, ?_⟩
        · simp only [Text.size_append, Text.size_cons, Text.size_nil]
          omega
        · simpa using hfits

end FitsIn

end Span

/-! ## Edits -/

theorem exists_spliceFrom {text : Text} {cursor : Nat} {edits : List Edit}
    (hcursor : text.isBoundary cursor = true) (hfits : ∀ e ∈ edits, e.range.FitsIn text)
    (hbehind : ∀ e ∈ edits, cursor ≤ e.range.start)
    (hrow : edits.Pairwise fun a b => a.range.stop ≤ b.range.start) :
    ∃ result, spliceFrom text cursor edits = .ok result := by
  induction edits generalizing cursor with
  | nil =>
    obtain ⟨a, b, rfl, rfl⟩ := Text.exists_append_of_isBoundary hcursor
    exact ⟨b, by rw [spliceFrom, textFrom, Text.splitAt?_size]⟩
  | cons e es ih =>
    obtain ⟨hfirst, hrest⟩ := List.pairwise_cons.mp hrow
    have he := hfits e List.mem_cons_self
    have hle := hbehind e List.mem_cons_self
    have hkept : Span.FitsIn ⟨cursor, e.range.start⟩ text := ⟨hle, hcursor, he.start⟩
    obtain ⟨kept, hkept⟩ := hkept.exists_slice
    obtain ⟨rest, hrest⟩ := ih he.stop (fun e' he' => hfits e' (List.mem_cons_of_mem _ he'))
      hfirst hrest
    refine ⟨kept ++ e.replacement ++ rest, ?_⟩
    rw [spliceFrom, if_neg (Nat.not_lt.mpr hle), hkept, hrest]
    rfl

/-- Edits that fit a text and follow one another can be made. -/
theorem exists_applyEdits {text : Text} {edits : List Edit}
    (hfits : ∀ e ∈ edits, e.range.FitsIn text)
    (hrow : edits.Pairwise fun a b => a.range.stop ≤ b.range.start) :
    ∃ result, applyEdits text edits = .ok result := by
  have hsorted : sortByRange Edit.range edits = edits := by
    apply sortByRange_of_pairwise
    refine hrow.imp_of_mem fun {a b} ha hb hab => ?_
    have hordera : a.range.start ≤ a.range.stop := (hfits a ha).ordered
    have horderb : b.range.start ≤ b.range.stop := (hfits b hb).ordered
    rw [Span.sortsBefore_iff]
    omega
  rw [applyEdits, hsorted]
  exact exists_spliceFrom (Text.isBoundary_size [] text) hfits (fun _ _ => Nat.zero_le _) hrow

/-! ## Fixes -/

def Edit.Apart (a b : Edit) : Prop :=
  a.range.stop ≤ b.range.start ∨ b.range.stop ≤ a.range.start

/-- Whether a fix changes something, where a text has it, and can be made. -/
structure Fix.FitsIn (f : Fix) (text : Text) : Prop where
  nonempty : f.edits ≠ []
  fits : ∀ e ∈ f.edits, e.range.FitsIn text
  apart : f.edits.Pairwise Edit.Apart
  applies : ∃ result, f.apply text = .ok result

theorem Fix.fitsIn_of_pairwise {f : Fix} {text : Text} (hne : f.edits ≠ [])
    (hfits : ∀ e ∈ f.edits, e.range.FitsIn text)
    (hrow : f.edits.Pairwise fun a b => a.range.stop ≤ b.range.start) : f.FitsIn text :=
  ⟨hne, hfits, hrow.imp Or.inl, exists_applyEdits hfits hrow⟩

theorem Fix.fitsIn_singleton {text : Text} {e : Edit} (title : String) (h : e.range.FitsIn text) :
    Fix.FitsIn ⟨title, [e]⟩ text := by
  refine fitsIn_of_pairwise (List.cons_ne_nil _ _) ?_ (List.pairwise_singleton _ _)
  intro e' he'
  rwa [List.mem_singleton.mp he']

end Maml
