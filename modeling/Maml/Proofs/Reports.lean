import Maml.Proofs.Usable
import Maml.Report

/-! Diagnostics can be reported.

1. The lines of a text are the text (`flatten_lines`), so every place between two characters of it
   has a line and a column (`exists_positionIn`).
2. A label that fits a text is shown, and its place is told (`ariadne_draws`).
3. What is told of a text has a label that fits it, so whatever draws such labels draws a report of
   it (`exists_reportBy`, `exists_report`). -/
namespace Maml

namespace Text

variable {a b : Text} {n : Nat}

theorem le_size_of_isBoundary (h : a.isBoundary n = true) : n ≤ a.size := by
  obtain ⟨front, back, rfl, rfl⟩ := exists_append_of_isBoundary h
  rw [size_append]
  exact Nat.le_add_right _ _

theorem isBoundary_of_append (h : (a ++ b).isBoundary n = true) (hn : n ≤ a.size) :
    a.isBoundary n = true := by
  obtain ⟨front, back, happend, rfl⟩ := exists_append_of_isBoundary h
  rcases List.append_eq_append_iff.mp happend with ⟨between, rfl, rfl⟩ | ⟨between, rfl, rfl⟩
  · obtain rfl : between = [] := by
      rw [size_append] at hn
      exact size_eq_zero.mp (by omega)
    rw [List.append_nil]
    simpa using isBoundary_size a []
  · exact isBoundary_size front between

theorem isBoundary_sub_of_append (h : (a ++ b).isBoundary n = true) (hn : a.size ≤ n) :
    b.isBoundary (n - a.size) = true := by
  obtain ⟨front, back, happend, rfl⟩ := exists_append_of_isBoundary h
  rcases List.append_eq_append_iff.mp happend with ⟨between, rfl, rfl⟩ | ⟨between, rfl, rfl⟩
  · rw [size_append, Nat.add_sub_cancel_left]
    exact isBoundary_size between back
  · obtain rfl : between = [] := by
      rw [size_append] at hn
      exact size_eq_zero.mp (by omega)
    rw [List.append_nil, Nat.sub_self]
    exact isBoundary_size [] b

end Text

theorem Span.FitsIn.ne_nil {source : Text} {label : Span} (h : label.FitsIn source)
    (hne : label.start < label.stop) : source ≠ [] := by
  rintro rfl
  have hle := Text.le_size_of_isBoundary h.stop
  rw [Text.size_nil] at hle
  omega

namespace Renderer

/-! ## Positions -/

theorem flatten_lines (source : Text) : (lines source).flatten = source := by
  induction source using lines.induct with
  | case1 => rfl
  | case2 cs ih =>
    rw [lines, List.flatten_cons, ih]
    rfl
  | case3 c cs hbreak hends ih =>
    rw [lines, if_pos hends, List.flatten_cons, ih]
    · rfl
    · exact hbreak
  | case4 c cs hbreak hends hnil ih =>
    rw [lines, if_neg hends, hnil]
    · rw [hnil] at ih
      rw [← ih]
      rfl
    · exact hbreak
  | case5 c cs hbreak hends l ls hlines ih =>
    rw [lines, if_neg hends, hlines]
    · rw [hlines, List.flatten_cons] at ih
      rw [List.flatten_cons, List.cons_append, ih]
    · exact hbreak

/-- Whether a position is that of an offset in lines of which the first has the given number: that
many lines are in front of its own, and that many characters of its own line. -/
def Position.IsOf (p : Position) (line offset : Nat) (ls : List Text) : Prop :=
  ∃ front part rest back, ls = front ++ (part ++ rest) :: back ∧
    offset = Text.size (front.flatten ++ part) ∧ p = ⟨line + front.length, part.length + 1⟩

theorem exists_columnIn {l : Text} {offset : Nat} (h : l.isBoundary offset = true) (line : Nat)
    (back : List Text) :
    ∃ p, positionIn.columnIn line offset l = .ok p ∧ p.IsOf line offset (l :: back) := by
  obtain ⟨part, rest, rfl, rfl⟩ := Text.exists_append_of_isBoundary h
  refine ⟨⟨line, part.length + 1⟩, ?_, [], part, rest, back, rfl, rfl, rfl⟩
  rw [positionIn.columnIn, Text.splitAt?_size]

theorem Position.IsOf.cons {p : Position} {line offset : Nat} {ls : List Text} (l : Text)
    (h : p.IsOf (line + 1) offset ls) : p.IsOf line (l.size + offset) (l :: ls) := by
  obtain ⟨front, part, rest, back, rfl, rfl, rfl⟩ := h
  refine ⟨l :: front, part, rest, back, rfl, by simp, ?_⟩
  rw [List.length_cons, Nat.add_right_comm, Nat.add_assoc]

theorem positionIn_cons (line offset : Nat) (l next : Text) (ls : List Text) :
    positionIn line offset (l :: next :: ls) =
      if offset < l.size then positionIn.columnIn line offset l
      else positionIn (line + 1) (offset - l.size) (next :: ls) := rfl

theorem exists_positionIn {ls : List Text} {offset : Nat} (hne : ls ≠ [])
    (h : Text.isBoundary ls.flatten offset = true) (line : Nat) :
    ∃ p, positionIn line offset ls = .ok p ∧ p.IsOf line offset ls := by
  induction ls generalizing line offset with
  | nil => exact absurd rfl hne
  | cons l ls ih =>
    cases ls with
    | nil =>
      rw [List.flatten_singleton] at h
      exact exists_columnIn h line []
    | cons next ls =>
      rw [List.flatten_cons] at h
      rw [positionIn_cons]
      by_cases hoffset : offset < l.size
      · rw [if_pos hoffset]
        exact exists_columnIn (Text.isBoundary_of_append h (Nat.le_of_lt hoffset)) line _
      · have hle : l.size ≤ offset := Nat.le_of_not_lt hoffset
        obtain ⟨p, hp, hposition⟩ := ih (List.cons_ne_nil _ _)
          (Text.isBoundary_sub_of_append h hle) (line + 1)
        rw [if_neg hoffset]
        refine ⟨p, hp, ?_⟩
        have hcons := hposition.cons l
        rwa [Nat.add_sub_cancel' hle] at hcons

theorem exists_position {source : Text} {offset : Nat} (hne : source ≠ [])
    (h : source.isBoundary offset = true) :
    ∃ p, positionIn 1 offset (lines source) = .ok p ∧ p.IsOf 1 offset (lines source) := by
  have hlines : lines source ≠ [] := by
    intro hnil
    have hflatten := flatten_lines source
    rw [hnil] at hflatten
    exact hne hflatten.symm
  rw [← flatten_lines source] at h
  exact exists_positionIn hlines h 1

/-! ## Labels -/

/-- Whether a renderer shows every label that covers a part of a text, and tells its place. -/
structure Draws (r : Renderer) : Prop where
  shows {source : Text} {label : Span} (h : label.FitsIn source) (hne : label.start < label.stop) :
    r.shows source label = .ok true
  locates {source : Text} {label : Span} (h : label.FitsIn source) (hne : label.start < label.stop)
    (name : String) : ∃ place, r.locate name source label = .ok place

theorem showsLabel_of_fitsIn {source : Text} {label : Span} (h : label.FitsIn source) :
    showsLabel source label = .ok true := by
  have hstart := Nat.not_lt.mpr (Text.le_size_of_isBoundary h.start)
  have hstop : ¬ source.size + 1 < label.stop := by
    have hle := Text.le_size_of_isBoundary h.stop
    omega
  rw [showsLabel, if_neg hstart, h.start, if_neg (by decide), if_neg hstop, if_pos h.stop]

theorem exists_locationOf {source : Text} {label : Span} (h : label.FitsIn source)
    (hne : source ≠ []) (name : String) : ∃ line column,
      locationOf name source label = .ok s!"{name}:{line}:{column}" ∧
        Position.IsOf ⟨line, column⟩ 1 label.start (lines source) := by
  obtain ⟨p, hp, hposition⟩ := exists_position hne h.start
  refine ⟨p.line, p.column, ?_, hposition⟩
  rw [locationOf, if_neg (Nat.not_lt.mpr (Text.le_size_of_isBoundary h.start)), hp]
  rfl

theorem ariadne_draws : ariadne.Draws where
  shows h _ := showsLabel_of_fitsIn h
  locates h hne name := by
    obtain ⟨line, column, hplace, -⟩ := exists_locationOf h (h.ne_nil hne) name
    exact ⟨_, hplace⟩

theorem Draws.mapM_shows {r : Renderer} (hr : r.Draws) {source : Text} {labels : List Span}
    (h : ∀ label ∈ labels, label.FitsIn source ∧ label.start < label.stop) :
    labels.mapM (r.shows source) = .ok (labels.map fun _ => true) := by
  induction labels with
  | nil => rfl
  | cons label labels ih =>
    obtain ⟨hfits, hne⟩ := h label List.mem_cons_self
    rw [List.mapM_cons, hr.shows hfits hne, ih fun l hl => h l (List.mem_cons_of_mem _ hl)]
    rfl

end Renderer

/-! ## Reports -/

namespace Diagnostic

variable {o : ValidationOptions} {source : Text} {d : Diagnostic} {r : Renderer}

theorem FitsIn.exists_related (h : d.FitsIn source) (hne : source ≠ []) :
    ∃ related, d.related.mapM (Report.labelRange source) = .ok related ∧
      ∀ label ∈ related, label.FitsIn source ∧ label.start < label.stop := by
  cases hrelated : d.related with
  | none => exact ⟨none, rfl, by simp⟩
  | some range =>
    obtain ⟨label, hlabel, hlt, hfits⟩ := (h.related range hrelated).exists_labelRange hne
    refine ⟨some label, ?_, ?_⟩
    · rw [Option.mapM_some, hlabel]
      rfl
    · intro l hl
      obtain rfl := Option.some.inj hl
      exact ⟨hfits, hlt⟩

/-- What fits a text has a report there, at the place of the label of its range, if the labels that
fit the text are drawn. -/
theorem FitsIn.exists_reportBy (h : d.FitsIn source) (hne : source ≠ []) (hr : r.Draws)
    (name : String) : ∃ label place, Report.labelRange source d.range = .ok label ∧
      label.FitsIn source ∧ r.locate name source label = .ok place ∧ d.reportBy r name source =
        .ok ⟨d.headline, place, d.related.isSome, (d.fixes.head?).map Fix.title⟩ := by
  obtain ⟨label, hlabel, hlt, hfits⟩ := h.range.exists_labelRange hne
  obtain ⟨related, hrelated, hlabels⟩ := h.exists_related hne
  obtain ⟨place, hplace⟩ := hr.locates hfits hlt name
  refine ⟨label, place, hlabel, hfits, hplace, ?_⟩
  have hshown : (related.toList ++ [label]).mapM (r.shows source) =
      .ok ((related.toList ++ [label]).map fun _ => true) := by
    refine hr.mapM_shows fun l hl => ?_
    rcases List.mem_append.mp hl with hl | hl
    · exact hlabels l (Option.mem_toList.mp hl)
    · obtain rfl := List.mem_singleton.mp hl
      exact ⟨hfits, hlt⟩
  have hcontains : ((related.toList ++ [label]).map fun _ => true).contains true = true := by
    simp
  rw [reportBy, hlabel, hrelated]
  simp only [bind, Except.bind, hshown]
  rw [if_pos hcontains, hplace]
  rfl

/-- Everything that is told of a text can be reported, with the line and the column at which the
label of its range begins. -/
theorem exists_report (h : d ∈ check o source) (name : String) : ∃ label line column,
    Report.labelRange source d.range = .ok label ∧
      Renderer.Position.IsOf ⟨line, column⟩ 1 label.start (Renderer.lines source) ∧
      d.report name source = .ok ⟨d.headline, s!"{name}:{line}:{column}", d.related.isSome,
        (d.fixes.head?).map Fix.title⟩ := by
  have hne : source ≠ [] := by
    rintro rfl
    rw [check_nil] at h
    exact absurd h (List.not_mem_nil)
  obtain ⟨label, place, hlabel, hfits, hplace, hreport⟩ :=
    (fitsIn_of_mem_check h).exists_reportBy hne Renderer.ariadne_draws name
  obtain ⟨line, column, hlocation, hposition⟩ := Renderer.exists_locationOf hfits hne name
  obtain rfl := Except.ok.inj (hlocation.symm.trans hplace)
  exact ⟨label, line, column, hlabel, hposition, hreport⟩

end Diagnostic

end Maml
