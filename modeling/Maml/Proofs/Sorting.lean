import Maml.Span

/-! Sorting by range.

1. Ranges are in one order, by start and then by end (`Span.sortsBefore_trans`,
   `Span.sortsBefore_of_not`).
2. Sorted things are in that order (`pairwise_sortByRange`), and things in that order
   stay where they are (`sortByRange_of_pairwise`).
3. It makes no difference whether things are left out before sorting or after it
   (`filter_sortByRange`), for things with the same range keep their order.
4. So those with one range stand together, as they stood, between the ones that sort before
   and behind them (`sortByRange_around`). -/
namespace Maml

namespace Span

theorem sortsBefore_iff {s t : Span} :
    s.sortsBefore t = true ↔ s.start < t.start ∨ s.start = t.start ∧ s.stop ≤ t.stop := by
  simp [sortsBefore]

theorem sortsBefore_trans {s t u : Span} (hst : s.sortsBefore t = true)
    (htu : t.sortsBefore u = true) : s.sortsBefore u = true := by
  rw [sortsBefore_iff] at hst htu ⊢
  omega

/-- Of two ranges one sorts no later than the other. -/
theorem sortsBefore_of_not {s t : Span} (h : ¬ s.sortsBefore t = true) :
    t.sortsBefore s = true := by
  rw [sortsBefore_iff] at h ⊢
  omega

theorem sortsBefore_antisymm {s t : Span} (hst : s.sortsBefore t = true)
    (hts : t.sortsBefore s = true) : s = t := by
  obtain ⟨start, stop⟩ := s
  obtain ⟨start', stop'⟩ := t
  rw [sortsBefore_iff] at hst hts
  rw [mk.injEq]
  simp only at hst hts
  omega

end Span

section
variable {α : Type} {range : α → Span}

def SortedByRange (range : α → Span) (as : List α) : Prop :=
  as.Pairwise fun a b => (range a).sortsBefore (range b) = true

theorem sortByRange_cons (range : α → Span) (a : α) (as : List α) :
    sortByRange range (a :: as) = insertByRange range a (sortByRange range as) := rfl

theorem perm_insertByRange (a : α) (as : List α) : (insertByRange range a as).Perm (a :: as) := by
  induction as with
  | nil => exact List.Perm.refl _
  | cons b bs ih =>
    rw [insertByRange]
    split
    · exact List.Perm.refl _
    · exact (ih.cons b).trans (List.Perm.swap a b bs)

theorem perm_sortByRange (range : α → Span) (as : List α) : (sortByRange range as).Perm as := by
  induction as with
  | nil => exact List.Perm.refl _
  | cons a as ih =>
    rw [sortByRange_cons]
    exact (perm_insertByRange a _).trans (ih.cons a)

theorem insertByRange_of_forall {a : α} {as : List α}
    (h : ∀ b ∈ as, (range a).sortsBefore (range b) = true) :
    insertByRange range a as = a :: as := by
  cases as with
  | nil => rfl
  | cons b bs => rw [insertByRange, if_pos (h b List.mem_cons_self)]

/-- Things that are already in order stay where they are. -/
theorem sortByRange_of_pairwise {as : List α} (hrow : SortedByRange range as) :
    sortByRange range as = as := by
  induction as with
  | nil => rfl
  | cons a as ih =>
    obtain ⟨hfirst, hrest⟩ := List.pairwise_cons.mp hrow
    rw [sortByRange_cons, ih hrest, insertByRange_of_forall hfirst]

theorem pairwise_insertByRange {a : α} {as : List α} (h : SortedByRange range as) :
    SortedByRange range (insertByRange range a as) := by
  induction as with
  | nil => exact List.pairwise_singleton _ _
  | cons b bs ih =>
    obtain ⟨hb, hbs⟩ := List.pairwise_cons.mp h
    rw [insertByRange]
    split
    · rename_i hab
      apply List.pairwise_cons.mpr
      refine ⟨fun c hc => ?_, h⟩
      rcases List.mem_cons.mp hc with rfl | hc
      · exact hab
      · exact Span.sortsBefore_trans hab (hb c hc)
    · rename_i hab
      apply List.pairwise_cons.mpr
      refine ⟨fun c hc => ?_, ih hbs⟩
      rcases (mem_insertByRange range).mp hc with rfl | hc
      · exact Span.sortsBefore_of_not hab
      · exact hb c hc

/-- Sorting puts things in the order of their ranges. -/
theorem pairwise_sortByRange (range : α → Span) (as : List α) :
    SortedByRange range (sortByRange range as) := by
  induction as with
  | nil => exact List.Pairwise.nil
  | cons a as ih => exact pairwise_insertByRange ih

/-! ## Leaving things out -/

variable {keep : α → Bool}

theorem filter_insertByRange_of_not {a : α} (ha : ¬ keep a = true) (as : List α) :
    (insertByRange range a as).filter keep = as.filter keep := by
  induction as with
  | nil => rw [insertByRange, List.filter_cons_of_neg ha]
  | cons b bs ih =>
    rw [insertByRange]
    split
    · rw [List.filter_cons_of_neg ha]
    · rw [List.filter_cons, ih, List.filter_cons]

theorem filter_insertByRange {a : α} (ha : keep a = true) {as : List α}
    (h : SortedByRange range as) :
    (insertByRange range a as).filter keep = insertByRange range a (as.filter keep) := by
  induction as with
  | nil => exact List.filter_cons_of_pos ha
  | cons b bs ih =>
    obtain ⟨hb, hbs⟩ := List.pairwise_cons.mp h
    rw [insertByRange]
    split
    · -- everything behind sorts later, also when the next one is left out
      rename_i hab
      have hall : ∀ c ∈ (b :: bs).filter keep, (range a).sortsBefore (range c) = true := by
        intro c hc
        rcases List.mem_cons.mp (List.mem_filter.mp hc).1 with rfl | hc
        · exact hab
        · exact Span.sortsBefore_trans hab (hb c hc)
      rw [List.filter_cons_of_pos ha, insertByRange_of_forall hall]
    · rename_i hab
      by_cases hkeep : keep b = true
      · rw [List.filter_cons_of_pos hkeep, List.filter_cons_of_pos hkeep, insertByRange,
          if_neg hab, ih hbs]
      · rw [List.filter_cons_of_neg hkeep, List.filter_cons_of_neg hkeep, ih hbs]

/-- Leaving things out and sorting can be done in either order. -/
theorem filter_sortByRange (range : α → Span) (keep : α → Bool) (as : List α) :
    (sortByRange range as).filter keep = sortByRange range (as.filter keep) := by
  induction as with
  | nil => rfl
  | cons a as ih =>
    rw [sortByRange_cons]
    by_cases ha : keep a = true
    · rw [filter_insertByRange ha (pairwise_sortByRange range as), ih, List.filter_cons_of_pos ha,
        sortByRange_cons]
    · rw [filter_insertByRange_of_not ha, ih, List.filter_cons_of_neg ha]

/-! ## Around a range -/

/-- If something holds of whatever stands in front of a thing it holds of, it holds of a beginning. -/
theorem filter_append_filter_not {as : List α}
    (h : as.Pairwise fun a b => keep b = true → keep a = true) :
    as.filter keep ++ as.filter (!keep ·) = as := by
  induction as with
  | nil => rfl
  | cons a as ih =>
    obtain ⟨ha, has⟩ := List.pairwise_cons.mp h
    by_cases hkeep : keep a = true
    · rw [List.filter_cons_of_pos hkeep, List.filter_cons_of_neg (by simp [hkeep]), List.cons_append,
        ih has]
    · have hnone : (a :: as).filter keep = [] := by
        rw [List.filter_eq_nil_iff]
        exact List.forall_mem_cons.mpr ⟨hkeep, fun b hb hkeepb => hkeep (ha b hb hkeepb)⟩
      have hall : (a :: as).filter (!keep ·) = a :: as := by
        rw [List.filter_eq_self]
        intro b hb
        rw [List.filter_eq_nil_iff] at hnone
        simp [hnone b hb]
      rw [hnone, hall, List.nil_append]

/-- Sorting leaves the things with one range as they stand among each other, and puts what sorts
before in front of them and what sorts behind after them. -/
theorem sortByRange_around (range : α → Span) (s : Span) (as : List α) :
    sortByRange range as =
      sortByRange range (as.filter fun a => !s.sortsBefore (range a)) ++
        (as.filter (range · == s) ++
          sortByRange range (as.filter fun a => !(range a).sortsBefore s)) := by
  have hsorted := pairwise_sortByRange range as
  have hbefore := @filter_append_filter_not _ (fun a => !s.sortsBefore (range a)) _
    (hsorted.imp fun {a b} hab => by
      intro hb
      rw [Bool.not_eq_true', Bool.eq_false_iff] at hb ⊢
      exact fun ha => hb (Span.sortsBefore_trans ha hab))
  have hbehind := @filter_append_filter_not _ (fun a => (range a).sortsBefore s) _
    ((hsorted.filter fun a => s.sortsBefore (range a)).imp fun hab hb =>
      Span.sortsBefore_trans hab hb)
  -- what is neither before nor behind has the range
  have hsame : (fun a => (range a).sortsBefore s && s.sortsBefore (range a)) = (range · == s) := by
    funext a
    rw [Bool.eq_iff_iff, Bool.and_eq_true, beq_iff_eq]
    refine ⟨fun ⟨h, h'⟩ => Span.sortsBefore_antisymm h h', ?_⟩
    rintro rfl
    simp [Span.sortsBefore]
  have hlast : (fun a => !(range a).sortsBefore s && s.sortsBefore (range a)) =
      fun a => !(range a).sortsBefore s := by
    funext a
    rw [Bool.and_eq_left_iff_imp, Bool.not_eq_true', Bool.eq_false_iff]
    exact Span.sortsBefore_of_not
  have hkept : sortByRange range (as.filter (range · == s)) = as.filter (range · == s) := by
    refine sortByRange_of_pairwise (List.pairwise_of_forall_mem_list fun a ha b hb => ?_)
    rw [eq_of_beq (List.mem_filter.mp ha).2, eq_of_beq (List.mem_filter.mp hb).2]
    simp [Span.sortsBefore]
  simp only [Bool.not_not, List.filter_filter, hsame, hlast, filter_sortByRange, hkept]
    at hbefore hbehind
  rw [← hbehind] at hbefore
  exact hbefore.symm

end

end Maml
