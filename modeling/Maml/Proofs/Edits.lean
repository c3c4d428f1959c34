import Maml.Proofs.Fitting
import Maml.Proofs.Splicing

/-! Edits are made at once.

1. What sorted edits make of a text is what `Spliced` says piece by piece (`spliceFrom_eq_ok_iff`).
   So they can be made exactly if they fit the text and none begins before the end of the one in
   front of it (`exists_applyEdits_iff`), which is to say that they are apart
   (`pairwise_apart_iff`).
2. The same comes of replacing one range after the other, from the last to the first
   (`Spliced.foldrM_replaceIn`).
3. Edits that are apart and have the same range are insertions. So the order in which edits are given
   makes no difference if there is one insertion at most at each offset (`sortByRange_of_perm`).
   Several insertions at an offset are one insertion of all that they insert
   (`spliceFrom_insertions`). -/
namespace Maml

/-! ## One edit -/

namespace Edit

def replaceIn (e : Edit) (text : Text) : Except Fault Text := do
  let front ← Span.slice ⟨0, e.range.start⟩ text
  let back ← textFrom text e.range.stop
  return front ++ e.replacement ++ back

def insertsAt (offset : Nat) (e : Edit) : Bool := e.range == .empty offset

theorem replaceIn_append (front old new back : Text) :
    replaceIn ⟨⟨front.size, front.size + old.size⟩, new⟩ (front ++ (old ++ back)) =
      .ok (front ++ (new ++ back)) := by
  have hfront : Span.slice ⟨0, front.size⟩ (front ++ (old ++ back)) = .ok front := by
    have hslice := Text.slice?_size [] front (old ++ back)
    rw [List.nil_append, Text.size_nil, Nat.zero_add] at hslice
    rw [Span.slice, hslice]
  have hback : textFrom (front ++ (old ++ back)) (front.size + old.size) = .ok back := by
    rw [textFrom, ← List.append_assoc, ← Text.size_append, Text.splitAt?_size]
  rw [replaceIn, hfront, hback, ← List.append_assoc]
  rfl

theorem Apart.symm {a b : Edit} (h : a.Apart b) : b.Apart a := Or.symm h

theorem Apart.insertsAt {a b : Edit} (h : a.Apart b) (ha : a.range.Ordered)
    (hrange : a.range = b.range) : a.insertsAt a.range.start = true := by
  have hle : a.range.start ≤ a.range.stop := ha
  have hstop : a.range.stop = a.range.start := by
    rw [Apart, ← hrange] at h
    omega
  rw [Edit.insertsAt, beq_iff_eq]
  exact congrArg (Span.mk a.range.start) hstop

end Edit

/-! ## Edits in order -/

theorem Text.append_inj_of_size {a b c d : Text} (h : a ++ b = c ++ d) (hsize : a.size = c.size) :
    a = c ∧ b = d := by
  have hsplit := Text.splitAt?_size a b
  rw [h, hsize, Text.splitAt?_size] at hsplit
  exact ⟨(Prod.mk.inj (Option.some.inj hsplit)).1.symm, (Prod.mk.inj (Option.some.inj hsplit)).2.symm⟩

/-- What can be cut out of a text fits it. -/
theorem Span.fitsIn_of_slice {source part : Text} {s : Span} (h : s.slice source = .ok part) :
    s.FitsIn source := by
  have hslice : source.slice? s.start s.stop = some part := by
    rw [slice] at h
    split at h
    · rename_i hpart
      rw [hpart, Except.ok.inj h]
    · cases h
  rw [Text.slice?] at hslice
  split at hslice
  · rename_i hordered
    obtain ⟨⟨before, back⟩, hbefore, hmore⟩ := Option.bind_eq_some_iff.mp hslice
    obtain ⟨⟨front, part'⟩, hfront, -⟩ := Option.bind_eq_some_iff.mp hmore
    obtain ⟨rfl, -⟩ := Text.eq_append_of_splitAt? hbefore
    obtain ⟨rfl, hstart⟩ := Text.eq_append_of_splitAt? hfront
    refine ⟨hordered, ?_, by rw [Text.isBoundary, hbefore]; rfl⟩
    rw [← hstart, List.append_assoc]
    exact Text.isBoundary_size _ _
  · cases hslice

theorem exists_append_of_slice {front text kept : Text} {start : Nat}
    (h : Span.slice ⟨front.size, start⟩ (front ++ text) = .ok kept) :
    ∃ back, text = kept ++ back ∧ start = front.size + kept.size := by
  obtain ⟨a, part, back, hsource, hspan⟩ := (Span.fitsIn_of_slice h).exists_append
  obtain ⟨hstart, hstop⟩ := Span.mk.inj hspan
  rw [List.append_assoc] at hsource
  obtain ⟨rfl, rfl⟩ := Text.append_inj_of_size hsource hstart
  rw [hstop, Span.slice, ← List.append_assoc, Text.slice?_size] at h
  obtain rfl := Except.ok.inj h
  exact ⟨back, rfl, hstop⟩

theorem spliceFrom_cons_eq_ok {source result : Text} {cursor : Nat} {e : Edit} {es : List Edit}
    (h : spliceFrom source cursor (e :: es) = .ok result) :
    ∃ kept rest, Span.slice ⟨cursor, e.range.start⟩ source = .ok kept ∧
      spliceFrom source e.range.stop es = .ok rest ∧ kept ++ e.replacement ++ rest = result := by
  rw [spliceFrom] at h
  split at h
  · cases h
  cases hkept : Span.slice ⟨cursor, e.range.start⟩ source with
  | error fault =>
    rw [hkept] at h
    cases h
  | ok kept =>
    cases hrest : spliceFrom source e.range.stop es with
    | error fault =>
      rw [hkept, hrest] at h
      cases h
    | ok rest =>
      rw [hkept, hrest] at h
      exact ⟨kept, rest, rfl, rfl, Except.ok.inj h⟩

theorem isBoundary_of_spliceFrom {source result : Text} {cursor : Nat} {edits : List Edit}
    (h : spliceFrom source cursor edits = .ok result) : source.isBoundary cursor = true := by
  cases edits with
  | nil =>
    rw [spliceFrom, textFrom] at h
    rw [Text.isBoundary]
    split at h
    · rename_i hsplit
      rw [hsplit]
      rfl
    · cases h
  | cons e es =>
    obtain ⟨kept, rest, hkept, -⟩ := spliceFrom_cons_eq_ok h
    exact (Span.fitsIn_of_slice hkept).start

namespace Spliced

variable {o : Nat} {text text' : Text} {edits : List Edit}

theorem fitsIn (h : Spliced o text edits text') {front : Text} (ho : front.size = o) :
    ∀ e ∈ edits, e.range.FitsIn (front ++ text) := by
  induction h generalizing front with
  | nothing => simp
  | @keep o a text text' edits _ ih =>
    rw [← List.append_assoc]
    exact ih (by rw [Text.size_append, ho])
  | @change o a b text text' edits _ ih =>
    rw [← List.append_assoc]
    refine List.forall_mem_cons.mpr ⟨?_, ih (by rw [Text.size_append, ho])⟩
    rw [← ho]
    exact Span.fitsIn_append front a text

/-- What the edits make of the text is what replacing their ranges makes of it, from the last edit
to the first. -/
theorem foldrM_replaceIn (h : Spliced o text edits text') {front : Text} (ho : front.size = o) :
    edits.foldrM Edit.replaceIn (front ++ text) = .ok (front ++ text') := by
  induction h generalizing front with
  | nothing => rfl
  | @keep o a text text' edits _ ih =>
    rw [← List.append_assoc, ih (by rw [Text.size_append, ho]), List.append_assoc]
  | @change o a b text text' edits _ ih =>
    have hrest := @ih (front ++ a) (by rw [Text.size_append, ho])
    rw [List.append_assoc, List.append_assoc] at hrest
    rw [List.foldrM_cons, hrest, ← ho]
    exact Edit.replaceIn_append front a b text'

end Spliced

/-- What edits make of a text from an offset on is what they make of it piece by piece. -/
theorem spliceFrom_eq_ok_iff {front text result : Text} {edits : List Edit}
    (hordered : ∀ e ∈ edits, e.range.Ordered) :
    spliceFrom (front ++ text) front.size edits = .ok result ↔
      Spliced front.size text edits result := by
  refine ⟨fun h => ?_, fun h => ?_⟩
  · induction edits generalizing front text result with
    | nil =>
      rw [spliceFrom, textFrom, Text.splitAt?_size] at h
      obtain rfl := Except.ok.inj h
      have hkeep := Spliced.keep text (Spliced.nothing (front.size + text.size))
      rwa [List.append_nil] at hkeep
    | cons e es ih =>
      obtain ⟨range, replacement⟩ := e
      obtain ⟨hrange, hes⟩ := List.forall_mem_cons.mp hordered
      obtain ⟨kept, rest, hkept, hrest, rfl⟩ := spliceFrom_cons_eq_ok h
      obtain ⟨more, rfl, hstart⟩ := exists_append_of_slice hkept
      have hfits : range.FitsIn (front ++ (kept ++ more)) :=
        ⟨hrange, (Span.fitsIn_of_slice hkept).stop, isBoundary_of_spliceFrom hrest⟩
      obtain ⟨a, old, back, hsource, rfl⟩ := hfits.exists_append
      rw [← List.append_assoc, List.append_assoc a] at hsource
      obtain ⟨rfl, rfl⟩ := Text.append_inj_of_size hsource
        (by rw [Text.size_append]; exact hstart.symm)
      have hspliced := @ih (front ++ kept ++ old) back rest hes (by
        simpa only [Text.size_append, List.append_assoc, Nat.add_assoc] using hrest)
      simp only [Text.size_append] at hspliced
      have hchange := Spliced.keep kept (Spliced.change old replacement hspliced)
      simpa only [Text.size_append, List.append_assoc] using hchange
  · have hspliced := h.spliceFrom_eq front [] (by rw [Text.size_nil, Nat.add_zero])
    rwa [List.append_nil, List.nil_append] at hspliced

theorem applyEdits_eq_ok_iff {source text : Text} {edits : List Edit}
    (hordered : ∀ e ∈ edits, e.range.Ordered) :
    applyEdits source edits = .ok text ↔
      Spliced 0 source (sortByRange Edit.range edits) text :=
  @spliceFrom_eq_ok_iff [] source text _ fun e he => hordered e ((mem_sortByRange _).mp he)

/-! ## Edits that are apart -/

/-- Edits in order that each begin behind the end of the one in front begin behind the ends of all
in front of them. -/
theorem pairwise_of_isChain {edits : List Edit} (hordered : ∀ e ∈ edits, e.range.Ordered)
    (h : edits.IsChain fun a b => a.range.stop ≤ b.range.start) :
    edits.Pairwise fun a b => a.range.stop ≤ b.range.start := by
  induction edits with
  | nil => exact .nil
  | cons a es ih =>
    cases es with
    | nil => exact List.pairwise_singleton _ _
    | cons b es =>
      obtain ⟨hab, hchain⟩ := List.isChain_cons_cons.mp h
      obtain ⟨-, hes⟩ := List.forall_mem_cons.mp hordered
      have hrow := ih hes hchain
      have hb : b.range.start ≤ b.range.stop := hes b List.mem_cons_self
      refine .cons (List.forall_mem_cons.mpr ⟨hab, fun c hc => ?_⟩) hrow
      have hbc := (List.pairwise_cons.mp hrow).1 c hc
      exact Nat.le_trans hab (Nat.le_trans hb hbc)

/-- Edits are apart exactly if each, when they are sorted, begins behind the end of the one in front
of it. -/
theorem pairwise_apart_iff {edits : List Edit} (hordered : ∀ e ∈ edits, e.range.Ordered) :
    edits.Pairwise Edit.Apart ↔
      (sortByRange Edit.range edits).IsChain fun a b => a.range.stop ≤ b.range.start := by
  have hsortedOrdered : ∀ e ∈ sortByRange Edit.range edits, e.range.Ordered :=
    fun e he => hordered e ((mem_sortByRange _).mp he)
  rw [← (perm_sortByRange Edit.range edits).pairwise_iff Edit.Apart.symm]
  constructor
  · intro h
    refine List.Pairwise.isChain ?_
    refine (h.and (pairwise_sortByRange Edit.range edits)).imp_of_mem fun {a b} ha hb hab => ?_
    have haordered : a.range.start ≤ a.range.stop := hsortedOrdered a ha
    have hbordered : b.range.start ≤ b.range.stop := hsortedOrdered b hb
    obtain ⟨hapart, hsorted⟩ := hab
    rw [Edit.Apart] at hapart
    rw [Span.sortsBefore_iff] at hsorted
    omega
  · intro h
    exact (pairwise_of_isChain hsortedOrdered h).imp Or.inl

/-- Edits can be made exactly if they begin and end between characters of the text and are apart. -/
theorem exists_applyEdits_iff {source : Text} {edits : List Edit}
    (hordered : ∀ e ∈ edits, e.range.Ordered) :
    (∃ text, applyEdits source edits = .ok text) ↔
      (∀ e ∈ edits, source.isBoundary e.range.start = true ∧ source.isBoundary e.range.stop = true) ∧
        edits.Pairwise Edit.Apart := by
  have hsortedOrdered : ∀ e ∈ sortByRange Edit.range edits, e.range.Ordered :=
    fun e he => hordered e ((mem_sortByRange _).mp he)
  constructor
  · rintro ⟨text, h⟩
    have hspliced := (applyEdits_eq_ok_iff hordered).mp h
    refine ⟨fun e he => ?_, ?_⟩
    · have hfits := @Spliced.fitsIn _ _ _ _ hspliced [] rfl e ((mem_sortByRange _).mpr he)
      exact ⟨hfits.start, hfits.stop⟩
    · rw [pairwise_apart_iff hordered]
      exact hspliced.pairwise.isChain
  · rintro ⟨hboundary, hapart⟩
    have hchain := (pairwise_apart_iff hordered).mp hapart
    refine exists_spliceFrom (Text.isBoundary_size [] source) (fun e he => ?_)
      (fun _ _ => Nat.zero_le _) (pairwise_of_isChain hsortedOrdered hchain)
    have he := (mem_sortByRange _).mp he
    exact ⟨hordered e he, (hboundary e he).1, (hboundary e he).2⟩

/-! ## The order in which edits are given -/

theorem eq_of_mem_of_length_le_one {α : Type} {as : List α} (h : as.length ≤ 1) {a b : α}
    (ha : a ∈ as) (hb : b ∈ as) : a = b := by
  rcases as with _ | ⟨c, _ | ⟨d, as⟩⟩
  · exact absurd ha List.not_mem_nil
  · rw [List.mem_singleton.mp ha, List.mem_singleton.mp hb]
  · simp at h

/-- Edits that are apart are sorted in one way, in whatever order they are given, if there is one
insertion at most at each offset. -/
theorem sortByRange_of_perm {edits edits' : List Edit} (hordered : ∀ e ∈ edits, e.range.Ordered)
    (hapart : edits.Pairwise Edit.Apart)
    (hone : ∀ offset, (edits.filter (·.insertsAt offset)).length ≤ 1) (hperm : edits'.Perm edits) :
    sortByRange Edit.range edits' = sortByRange Edit.range edits := by
  have hsame : ∀ a ∈ edits, ∀ b ∈ edits, a.range = b.range → a = b := by
    intro a ha b hb hrange
    by_contra hne
    have : Std.Symm Edit.Apart := ⟨fun _ _ => Edit.Apart.symm⟩
    have hinsert := (hapart.forall ha hb hne).insertsAt (hordered a ha) hrange
    have hinsert' : b.insertsAt a.range.start = true := by rwa [Edit.insertsAt, ← hrange]
    have hmem := List.mem_filter.mpr ⟨ha, hinsert⟩
    have hmem' := List.mem_filter.mpr ⟨hb, hinsert'⟩
    exact hne (eq_of_mem_of_length_le_one (hone _) hmem hmem')
  refine List.Perm.eq_of_pairwise (fun a b ha hb hab hba => ?_) (pairwise_sortByRange _ _)
    (pairwise_sortByRange _ _) ?_
  · have ha : a ∈ edits := hperm.mem_iff.mp ((mem_sortByRange _).mp ha)
    exact hsame a ha b ((mem_sortByRange _).mp hb) (Span.sortsBefore_antisymm hab hba)
  · exact (perm_sortByRange _ _).trans (hperm.trans (perm_sortByRange _ _).symm)

/-! ## Insertions -/

theorem spliceFrom_insert (source : Text) (cursor offset : Nat) (inserted : Text) (es : List Edit) :
    spliceFrom source cursor (.insert offset inserted :: es) =
      if offset < cursor then .error (.overlappingEdits offset)
      else do
        let kept ← Span.slice ⟨cursor, offset⟩ source
        let rest ← spliceFrom source offset es
        return kept ++ inserted ++ rest := by
  rw [spliceFrom]
  rfl

theorem spliceFrom_two_insertions (source : Text) (cursor offset : Nat) (a b : Text)
    (es : List Edit) :
    spliceFrom source cursor (.insert offset a :: .insert offset b :: es) =
      spliceFrom source cursor (.insert offset (a ++ b) :: es) := by
  rw [spliceFrom_insert, spliceFrom_insert, spliceFrom_insert, if_neg (Nat.lt_irrefl offset)]
  split
  · rfl
  cases hkept : Span.slice ⟨cursor, offset⟩ source with
  | error fault => rfl
  | ok kept =>
    -- nothing stands between the two
    have hnothing : Span.slice ⟨offset, offset⟩ source = .ok [] := by
      have hstop : source.isBoundary offset = true := (Span.fitsIn_of_slice hkept).stop
      obtain ⟨front, back, rfl, rfl⟩ := Text.exists_append_of_isBoundary hstop
      have hslice := Text.slice?_size front [] back
      rw [List.append_nil, Text.size_nil, Nat.add_zero] at hslice
      rw [Span.slice, hslice]
    rw [hnothing]
    cases spliceFrom source offset es with
    | error fault => rfl
    | ok rest =>
      show Except.ok (kept ++ a ++ ([] ++ b ++ rest)) = Except.ok (kept ++ (a ++ b) ++ rest)
      simp only [List.nil_append, List.append_assoc]

/-- Insertions at an offset are one insertion of all that they insert. -/
theorem spliceFrom_insertions (source : Text) (cursor offset : Nat) {inserts : List Edit}
    (hne : inserts ≠ []) (hinserts : ∀ e ∈ inserts, e.insertsAt offset = true) (es : List Edit) :
    spliceFrom source cursor (inserts ++ es) =
      spliceFrom source cursor (.insert offset (inserts.flatMap Edit.replacement) :: es) := by
  have heq {e : Edit} (h : e.insertsAt offset = true) : e = .insert offset e.replacement := by
    obtain ⟨range, replacement⟩ := e
    obtain rfl := eq_of_beq h
    rfl
  obtain ⟨e, more, rfl⟩ := List.exists_cons_of_ne_nil hne
  obtain ⟨he, hmore⟩ := List.forall_mem_cons.mp hinserts
  clear hne
  induction more generalizing e with
  | nil =>
    rw [List.flatMap_singleton, List.singleton_append, ← heq he]
  | cons f more ih =>
    obtain ⟨hf, hmore⟩ := List.forall_mem_cons.mp hmore
    have hboth : (Edit.insert offset (e.replacement ++ f.replacement)).insertsAt offset = true :=
      beq_self_eq_true (Span.empty offset)
    have hrest := ih _ (List.forall_mem_cons.mpr ⟨hboth, hmore⟩) hboth hmore
    calc spliceFrom source cursor (e :: f :: more ++ es)
        = spliceFrom source cursor (.insert offset e.replacement :: .insert offset f.replacement ::
            (more ++ es)) := by rw [← heq he, ← heq hf]; rfl
      _ = spliceFrom source cursor
            (.insert offset (e.replacement ++ f.replacement) :: (more ++ es)) :=
          spliceFrom_two_insertions _ _ _ _ _ _
      _ = spliceFrom source cursor
            (.insert offset ((e :: f :: more).flatMap Edit.replacement) :: es) := by
          rw [← List.cons_append, hrest]
          simp only [List.flatMap_cons, Edit.insert, List.append_assoc]

theorem spliceFrom_append_congr {source : Text} {es es' : List Edit}
    (h : ∀ cursor, spliceFrom source cursor es = spliceFrom source cursor es')
    (front : List Edit) (cursor : Nat) :
    spliceFrom source cursor (front ++ es) = spliceFrom source cursor (front ++ es') := by
  induction front generalizing cursor with
  | nil => exact h cursor
  | cons e front ih => rw [List.cons_append, List.cons_append, spliceFrom, spliceFrom, ih]

/-- Edits of which some insert something at an offset do what is done by one insertion of all that
these insert, in the order in which they are given, and the other edits. -/
theorem applyEdits_insertions (source : Text) {edits : List Edit} {offset : Nat}
    (h : ∃ e ∈ edits, e.insertsAt offset = true) :
    applyEdits source (.insert offset ((edits.filter (·.insertsAt offset)).flatMap
        Edit.replacement) :: edits.filter (!·.insertsAt offset)) = applyEdits source edits := by
  generalize hmerged : Edit.insert offset ((edits.filter (·.insertsAt offset)).flatMap
    Edit.replacement) = merged
  have hrange : merged.range = .empty offset := hmerged ▸ rfl
  have hself : (Span.empty offset).sortsBefore (.empty offset) = true := by simp [Span.sortsBefore]
  -- what sorts before or behind the insertions is not one of them
  have hothers (p : Edit → Bool) (hp : ∀ e, e.range = .empty offset → p e = false) :
      (merged :: edits.filter (!·.insertsAt offset)).filter p = edits.filter p := by
    rw [List.filter_cons_of_neg (by simp [hp merged hrange]), List.filter_filter]
    refine List.filter_congr fun e _ => ?_
    rw [Bool.and_eq_left_iff_imp, Edit.insertsAt, Bool.not_eq_true', beq_eq_false_iff_ne]
    exact fun he hsame => Bool.false_ne_true ((hp e hsame).symm.trans he)
  have hinserts : (merged :: edits.filter (!·.insertsAt offset)).filter
      (Edit.range · == .empty offset) = [merged] := by
    rw [List.filter_cons_of_pos (by simp [hrange]), List.filter_filter, List.cons.injEq]
    refine ⟨rfl, List.filter_eq_nil_iff.mpr fun e _ => ?_⟩
    simp [Edit.insertsAt]
  rw [applyEdits, applyEdits, sortByRange_around Edit.range (.empty offset) edits,
    sortByRange_around Edit.range (.empty offset) (merged :: _), hinserts,
    hothers _ (fun e he => by simp [he, hself]), hothers _ (fun e he => by simp [he, hself])]
  refine spliceFrom_append_congr (fun cursor => ?_) _ 0
  obtain ⟨e, he, hinsert⟩ := h
  have hne : edits.filter (·.insertsAt offset) ≠ [] :=
    List.ne_nil_of_mem (List.mem_filter.mpr ⟨he, hinsert⟩)
  rw [List.singleton_append, ← hmerged]
  exact (spliceFrom_insertions source cursor offset hne
    (fun e he => (List.mem_filter.mp he).2) _).symm

/-! ## Edits at once -/

/-- Edits can be made exactly if they begin and end between characters of the text and are apart,
which is to say that each, when they are sorted, begins behind the end of the one in front of it.
What is made of the text then is what comes of replacing their ranges one after the other, from the
last to the first. The order in which they are given makes no difference if there is one insertion
at most at each offset; several at one offset do what is done by one insertion of all that they
insert, in the order in which they are given. -/
theorem applyEdits_at_once {source : Text} {edits : List Edit}
    (hordered : ∀ e ∈ edits, e.range.Ordered) :
    ((∃ text, applyEdits source edits = .ok text) ↔
      (∀ e ∈ edits, source.isBoundary e.range.start = true ∧ source.isBoundary e.range.stop = true) ∧
        edits.Pairwise Edit.Apart) ∧
    (edits.Pairwise Edit.Apart ↔
      (sortByRange Edit.range edits).IsChain fun a b => a.range.stop ≤ b.range.start) ∧
    ∀ text, applyEdits source edits = .ok text →
      (sortByRange Edit.range edits).foldrM Edit.replaceIn source = .ok text ∧
      ((∀ offset, (edits.filter (·.insertsAt offset)).length ≤ 1) →
        ∀ edits', edits'.Perm edits → applyEdits source edits' = .ok text) ∧
      ∀ offset, (∃ e ∈ edits, e.insertsAt offset = true) →
        applyEdits source (.insert offset ((edits.filter (·.insertsAt offset)).flatMap
          Edit.replacement) :: edits.filter (!·.insertsAt offset)) = .ok text := by
  refine ⟨exists_applyEdits_iff hordered, pairwise_apart_iff hordered, fun text h => ⟨?_, ?_, ?_⟩⟩
  · have hspliced := (applyEdits_eq_ok_iff hordered).mp h
    exact @Spliced.foldrM_replaceIn _ _ _ _ hspliced [] rfl
  · intro hone edits' hperm
    obtain ⟨-, hapart⟩ := (exists_applyEdits_iff hordered).mp ⟨text, h⟩
    rwa [applyEdits, sortByRange_of_perm hordered hapart hone hperm]
  · intro offset hinsert
    rw [applyEdits_insertions source hinsert, h]

/-- Two insertions at an offset of `(1 2 +` with a replacement and a deletion around them; and the
deletion, the replacement and one of the insertions in another order. -/
theorem applyEdits_at_once_around_insertions :
    (∀ e ∈ [Edit.insert 3 [','], ⟨⟨0, 1⟩, ['[']⟩, .delete ⟨5, 6⟩, .insert 3 [' ']], e.range.Ordered) ∧
      applyEdits ['(', '1', ' ', '2', ' ', '+']
          [.insert 3 [','], ⟨⟨0, 1⟩, ['[']⟩, .delete ⟨5, 6⟩, .insert 3 [' ']] =
        .ok ['[', '1', ' ', ',', ' ', '2', ' '] ∧
      applyEdits ['(', '1', ' ', '2', ' ', '+']
          [.insert 3 [',', ' '], ⟨⟨0, 1⟩, ['[']⟩, .delete ⟨5, 6⟩] =
        .ok ['[', '1', ' ', ',', ' ', '2', ' '] ∧
      applyEdits ['(', '1', ' ', '2', ' ', '+']
          [.delete ⟨5, 6⟩, ⟨⟨0, 1⟩, ['[']⟩, .insert 3 [',', ' ']] =
        .ok ['[', '1', ' ', ',', ' ', '2', ' '] := by
  have hordered : ∀ e ∈ [Edit.insert 3 [','], ⟨⟨0, 1⟩, ['[']⟩, .delete ⟨5, 6⟩, .insert 3 [' ']],
      e.range.Ordered := by decide
  have hordered' : ∀ e ∈ [Edit.insert 3 [',', ' '], ⟨⟨0, 1⟩, ['[']⟩, .delete ⟨5, 6⟩],
      e.range.Ordered := by decide
  have hone (offset : Nat) : ([Edit.insert 3 [',', ' '], ⟨⟨0, 1⟩, ['[']⟩, .delete ⟨5, 6⟩].filter
      (·.insertsAt offset)).length ≤ 1 := by
    have hnone : [⟨⟨0, 1⟩, ['[']⟩, Edit.delete ⟨5, 6⟩].filter (·.insertsAt offset) = [] := by
      simp only [List.filter_eq_nil_iff, List.forall_mem_cons, Edit.insertsAt, Edit.delete,
        Span.empty, beq_iff_eq, Span.mk.injEq]
      refine ⟨by omega, by omega, by simp⟩
    rw [List.filter_cons, hnone]
    split <;> simp
  obtain ⟨-, -, hmade⟩ := @applyEdits_at_once ['(', '1', ' ', '2', ' ', '+'] _ hordered
  obtain ⟨-, -, hmade'⟩ := @applyEdits_at_once ['(', '1', ' ', '2', ' ', '+'] _ hordered'
  obtain ⟨-, -, hmerged⟩ := hmade _ rfl
  have hinsertions := hmerged 3 ⟨_, List.mem_cons_self, rfl⟩
  obtain ⟨-, hperm, -⟩ := hmade' _ hinsertions
  exact ⟨hordered, rfl, hinsertions, hperm hone _ (List.reverse_perm [_, _, _])⟩

end Maml
