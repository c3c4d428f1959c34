import Maml.Check
import Maml.Proofs.Defects
import Maml.Proofs.Sorting

/-! What the options of a check change.

1. Each rule gives diagnostics of its own category only (`category_of_mem_missingCommas`,
   `category_of_mem_duplicateKeys`, `category_of_mem_invalidEscapes`), so to choose categories
   among what is found at a node is to switch rules off (`Validation.filter_atNode_default`),
   and switching rules off leaves out what they would have given (`Validation.atNode_eq_filter`).
2. No mistake met in reading is of the category of a rule (`filter_diagnostics_parse`).
3. So the options choose among the diagnostics that there are when all rules are checked,
   and change neither their order nor what they say (`check_validate_eq_filter`). -/
namespace Maml

namespace Validation

/-! ## The category of each rule -/

theorem category_missingComma (lines : Fix) (n : Neighbours) :
    (missingComma lines n).category = .expectedComma := rfl

theorem category_of_mem_missingCommas {k kind : NodeKind} {list : View k} {d : Diagnostic}
    (hd : d ∈ missingCommas kind list) : d.category = .expectedComma := by
  obtain ⟨n, -, rfl⟩ := List.mem_map.mp hd
  exact category_missingComma _ n

theorem category_of_mem_duplicatesAmong {seen : List (Text × Span)} {keys : List View.Key}
    {d : Diagnostic} (hd : d ∈ duplicatesAmong seen keys) : d.category = .duplicateKey := by
  induction keys generalizing seen with
  | nil => exact absurd hd List.not_mem_nil
  | cons k ks ih =>
    rw [duplicatesAmong] at hd
    split at hd
    · rcases List.mem_cons.mp hd with rfl | hd
      · rfl
      · exact ih hd
    · exact ih hd

theorem category_of_mem_duplicateKeys {m : View.Members} {d : Diagnostic}
    (hd : d ∈ duplicateKeys m) : d.category = .duplicateKey :=
  category_of_mem_duplicatesAmong hd

theorem category_of_mem_invalidEscapes {l : LeafView} {d : Diagnostic}
    (hd : d ∈ invalidEscapes l) : d.category = .invalidEscape := by
  rw [invalidEscapes] at hd
  split at hd
  · obtain ⟨span, -, rfl⟩ := List.mem_map.mp hd
    rfl
  · exact absurd hd List.not_mem_nil

/-! ## A rule that is switched off -/

section
variable (p : Category → Bool)

theorem filter_of_category {c : Category} {ds : List Diagnostic}
    (h : ∀ d ∈ ds, d.category = c) :
    ds.filter (p ·.category) = if p c then ds else [] := by
  split
  · rename_i hc
    apply List.filter_eq_self.mpr
    intro d hd
    rw [h d hd, hc]
  · rename_i hc
    apply List.filter_eq_nil_iff.mpr
    intro d hd
    rw [h d hd]
    exact hc

theorem filter_missingCommas {k : NodeKind} (kind : NodeKind) (list : View k) :
    (missingCommas kind list).filter (p ·.category) =
      if p .expectedComma then missingCommas kind list else [] :=
  filter_of_category p fun _ => category_of_mem_missingCommas

theorem filter_duplicateKeys (m : View.Members) :
    (duplicateKeys m).filter (p ·.category) = if p .duplicateKey then duplicateKeys m else [] :=
  filter_of_category p fun _ => category_of_mem_duplicateKeys

theorem filter_invalidEscapes (l : LeafView) :
    (invalidEscapes l).filter (p ·.category) = if p .invalidEscape then invalidEscapes l else [] :=
  filter_of_category p fun _ => category_of_mem_invalidEscapes

/-- To choose categories among what breaks the rules at a node is to switch rules off there. -/
theorem filter_atNode_default (v : AnyView) :
    (atNode .default v).filter (p ·.category) =
      atNode ⟨p .expectedComma, p .duplicateKey, p .invalidEscape⟩ v := by
  obtain ⟨kind, v⟩ := v
  cases kind with
  | members =>
    calc (atNode .default ⟨.members, v⟩).filter (p ·.category)
        = (missingCommas .keyValue v).filter (p ·.category) ++
            (duplicateKeys v).filter (p ·.category) := List.filter_append _ _
      _ = atNode ⟨p .expectedComma, p .duplicateKey, p .invalidEscape⟩ ⟨.members, v⟩ := by
          rw [filter_missingCommas, filter_duplicateKeys]
          rfl
  | items => exact filter_missingCommas p .value v
  | key =>
    show ((View.Key.leaf? v).toList.flatMap invalidEscapes).filter (p ·.category) =
      if p .invalidEscape then (View.Key.leaf? v).toList.flatMap invalidEscapes else []
    cases View.Key.leaf? v with
    | none => exact (ite_self []).symm
    | some l => simpa using filter_invalidEscapes p l
  | value =>
    simp only [atNode, ValidationOptions.default, if_true]
    cases View.Value.content v with
    | string l => exact filter_invalidEscapes p l
    | _ => exact (ite_self []).symm
  | _ => rfl

end

/-- What breaks the rules at a node is what breaks all of them there, without the rules that are
switched off. -/
theorem atNode_eq_filter (o : ValidationOptions) (v : AnyView) :
    atNode o v = (atNode .default v).filter (o.reports ·.category) :=
  (filter_atNode_default o.reports v).symm

end Validation

theorem validate_eq_filter_reports (o : ValidationOptions) (s : Site) :
    validate o s = (validate .default s).filter (o.reports ·.category) := by
  calc validate o s
      = s.views.flatMap fun v => (Validation.atNode .default v).filter (o.reports ·.category) :=
        congrArg (s.views.flatMap ·) (funext (Validation.atNode_eq_filter o))
    _ = (validate .default s).filter (o.reports ·.category) := List.filter_flatMap.symm

theorem category_of_mem_validate {o : ValidationOptions} {s : Site} {d : Diagnostic}
    (h : d ∈ validate o s) : ValidationOptions.reports ⟨false, false, false⟩ d.category = false := by
  have hnone : validate ⟨false, false, false⟩ s = [] := by
    rw [validate, List.flatMap_eq_nil_iff]
    rintro ⟨kind, v⟩ -
    cases kind <;> rfl
  have hd : d ∈ validate .default s := by
    rw [validate_eq_filter_reports] at h
    exact (List.mem_filter.mp h).1
  rw [validate_eq_filter_reports, List.filter_eq_nil_iff] at hnone
  exact Bool.eq_false_iff.mpr (hnone d hd)

theorem exists_error_of_mem_check {o : ValidationOptions} {source : Text} {d : Diagnostic}
    (hd : d ∈ check o source)
    (hcategory : ValidationOptions.reports ⟨false, false, false⟩ d.category = true) :
    ∃ e ∈ (parse source).errors, Diagnostic.ofParseError e = d := by
  rw [check, mem_sortByRange, List.mem_append] at hd
  rcases hd with hd | hd
  · exact List.mem_map.mp hd
  · exact absurd hcategory (by simp [category_of_mem_validate hd])

/-! ## Mistakes met in reading -/

/-- An error of a category that a rule has is one of a missing comma. -/
theorem reports_ofParseError (o : ValidationOptions) {e : ParseError} (he : e.expected ≠ .comma) :
    o.reports (Diagnostic.ofParseError e).category = true := by
  show o.reports (Classification.ofParseError e).category = true
  unfold Classification.ofParseError Classification.ofValueError Classification.ofParseError.plus
    Classification.unexpected
  -- the error of a missing comma apart, no classification is one of a rule
  split
  case h_4 hcomma => exact absurd hcomma he
  all_goals repeat' split
  all_goals rfl

theorem expected_ne_comma_of_mem_errors {source : Text} {e : ParseError}
    (he : e ∈ (parse source).errors) : e.expected ≠ .comma := by
  intro hcomma
  have hperm := perm_ranges_marks source fun expected _ => expected == .comma
  simp only [rangesOf_marks_comma, List.flatMap_eq_nil_iff.mpr fun _ _ => rfl] at hperm
  have hnone := List.map_eq_nil_iff.mp hperm.eq_nil
  have hmem : e ∈ (parse source).errors.filter (·.expected == .comma) :=
    List.mem_filter.mpr ⟨he, beq_iff_eq.mpr hcomma⟩
  rw [hnone] at hmem
  exact List.not_mem_nil hmem

/-- The mistakes met in reading are told whatever the options. -/
theorem filter_diagnostics_parse (o : ValidationOptions) (source : Text) :
    (parse source).diagnostics.filter (o.reports ·.category) = (parse source).diagnostics := by
  apply List.filter_eq_self.mpr
  intro d hd
  obtain ⟨e, he, rfl⟩ := List.mem_map.mp hd
  exact reports_ofParseError o (expected_ne_comma_of_mem_errors he)

/-! ## All diagnostics -/

/-- The options of a check choose among the diagnostics that there are when all rules are checked:
those of a rule that is switched off are left out, and the others are the same, in the same order.
This holds for a text, and for the rules alone on any tree, in any place and of whatever shape. -/
theorem check_validate_eq_filter (o : ValidationOptions) :
    (∀ source, check o source = (check .default source).filter (o.reports ·.category)) ∧
      ∀ s : Site, validate o s = (validate .default s).filter (o.reports ·.category) := by
  refine ⟨fun source => ?_, validate_eq_filter_reports o⟩
  let root := Site.root (parse source).tree
  calc check o source
      = sortByRange Diagnostic.range ((parse source).diagnostics ++ validate o root) := rfl
    _ = sortByRange Diagnostic.range
          (((parse source).diagnostics ++ validate .default root).filter
            (o.reports ·.category)) := by
        rw [List.filter_append, filter_diagnostics_parse, validate_eq_filter_reports]
    _ = (check .default source).filter (o.reports ·.category) :=
        (filter_sortByRange Diagnostic.range _ _).symm

end Maml
