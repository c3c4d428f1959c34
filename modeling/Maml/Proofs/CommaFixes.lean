import Maml.Proofs.CommaPlaces
import Maml.Proofs.EscapeFixes

/-! Fixes that put in commas.

With commas put in where they are missing, a comma is missing where none was put in
(`CommasPut.gaps_text`), and names of keys and escapes are told as before
(`CommasPut.findings_duplicateKey`, `CommasPut.findings_invalidEscape`). So the fixes of missing
commas do that and nothing else (`comma_fixes_put_commas`). -/
namespace Maml

open Draft

/-! ## What is told, moved -/

theorem map_filter_eq_of_forall₂ {α β γ : Type} {R : α → β → Prop} {p : α → Bool} {q : β → Bool}
    {f : α → γ} {g : β → γ} {as : List α} {bs : List β} (h : List.Forall₂ R as bs)
    (hkeep : ∀ a ∈ as, ∀ b, R a b → q b = p a)
    (hfg : ∀ a ∈ as, p a = true → ∀ b, R a b → g b = f a) :
    (bs.filter q).map g = (as.filter p).map f := by
  induction h with
  | nil => rfl
  | @cons a b as bs hab _ ih =>
    obtain ⟨ha, has⟩ := List.forall_mem_cons.mp hkeep
    obtain ⟨hfa, hfas⟩ := List.forall_mem_cons.mp hfg
    have htail := ih has hfas
    cases hp : p a with
    | true =>
      rw [List.filter_cons_of_pos ((ha b hab).trans hp), List.filter_cons_of_pos hp, List.map_cons,
        List.map_cons, htail, hfa hp b hab]
    | false =>
      rw [List.filter_cons_of_neg (by rw [ha b hab, hp]; exact Bool.false_ne_true),
        List.filter_cons_of_neg (by rw [hp]; exact Bool.false_ne_true), htail]

section
variable {cuts : List Nat}

theorem onNewLine_carried (l : Lexeme) : (l.carried cuts).onNewLine = l.onNewLine :=
  List.any_map ..


theorem Diagnostic.range_follow (d : Diagnostic) : (d.follow cuts).range = d.range.follow cuts := rfl

/-- Diagnostics that move are sorted as they were, if nothing is put in at an empty range. -/
theorem sortByRange_follow {ds : List Diagnostic}
    (h : ∀ d ∈ ds, d.range.isEmpty = true → d.range.start ∉ cuts) :
    sortByRange Diagnostic.range (ds.map (·.follow cuts)) =
      (sortByRange Diagnostic.range ds).map (·.follow cuts) := by
  refine sortByRange_map fun a ha b hb => ?_
  rw [Diagnostic.range_follow, Diagnostic.range_follow, Span.follow_eq_carried (h a ha),
    Span.follow_eq_carried (h b hb), Span.sortsBefore_carried]

/-! ## Keys -/

theorem lookup_map_follow (name : Text) (seen : List (Text × Span)) :
    (seen.map fun p => (p.1, p.2.follow cuts)).lookup name =
      (seen.lookup name).map (·.follow cuts) := by
  induction seen with
  | nil => rfl
  | cons p seen ih =>
    rw [List.map_cons, List.lookup_cons, List.lookup_cons, ih]
    cases name == p.1 <;> rfl

theorem Validation.repeated_follow (ts : List Token) : ∀ seen,
    repeated (seen.map fun p => (p.1, p.2.follow cuts)) (ts.map (·.follow cuts)) =
      (repeated seen ts).map (·.follow cuts) := by
  induction ts with
  | nil => exact fun _ => rfl
  | cons t ts ih =>
    intro seen
    have hname : (t.follow cuts).keyName = t.keyName := rfl
    rw [List.map_cons, repeated, repeated, hname, lookup_map_follow]
    cases seen.lookup t.keyName with
    | none => exact ih ((t.keyName, t.span) :: seen)
    | some first =>
      rw [Option.map_some, List.map_cons, ← ih seen]
      rfl

theorem Validation.range_of_mem_repeated {ts : List Token} {d : Diagnostic} :
    ∀ {seen}, d ∈ repeated seen ts → ∃ t ∈ ts, d.range = t.span := by
  induction ts with
  | nil => exact fun h => absurd h List.not_mem_nil
  | cons t ts ih =>
    intro seen h
    rw [repeated] at h
    split at h
    · rcases List.mem_cons.mp h with rfl | h
      · exact ⟨t, List.mem_cons_self, rfl⟩
      · obtain ⟨u, hu, hrange⟩ := ih h
        exact ⟨u, List.mem_cons_of_mem _ hu, hrange⟩
    · obtain ⟨u, hu, hrange⟩ := ih h
      exact ⟨u, List.mem_cons_of_mem _ hu, hrange⟩

end

theorem Draft.mem_lexemes_of_mem_keys {d : Draft} {l : Lexeme} (h : l ∈ d.keys) : l ∈ d.lexemes := by
  unfold keys at h
  split at h
  · obtain ⟨e, he, hl⟩ := List.mem_filterMap.mp h
    have hfirst : e.firstLexeme = l := by
      unfold keyLexeme? at hl
      split at hl
      · exact Option.some.inj hl
      · exact absurd hl (by simp)
    exact hfirst ▸ firstLexeme_mem_lexemesList he
  · exact absurd h List.not_mem_nil

namespace CommasPut

variable {source text : Text} {cuts : List Nat}

theorem renews (h : CommasPut source text cuts) :
    List.Forall₂ (fun x x' => (Recasting.commas cuts).Renews x.draft x'.draft)
      (Parse.standings source) (Parse.standings text) :=
  standingsRow_of_recast (fun _ => rfl) h.recast 0 0 [] []

theorem findings_duplicateKey (h : CommasPut source text cuts) :
    findings text .duplicateKey = (findings source .duplicateKey).map (·.follow cuts) := by
  have hlexemes {x : Standing} (hx : x ∈ Parse.standings source) :
      ∀ l ∈ x.draft.keys, l ∈ Parse.lexemes source := by
    obtain ⟨-, -, -, -, hall⟩ := Parse.exists_text_of_mem_standings hx
    exact fun l hl => hall l (mem_lexemes_of_mem_keys hl)
  have hkeys : (Parse.standings text).flatMap (fun x =>
      Validation.repeated [] (x.draft.keys.map Lexeme.token)) =
        ((Parse.standings source).flatMap fun x =>
          Validation.repeated [] (x.draft.keys.map Lexeme.token)).map (·.follow cuts) := by
    rw [List.map_flatMap]
    refine flatMap_eq_of_forall₂ h.renews fun x hx x' _ hrenews => ?_
    have hmoved : (x.draft.keys.map (Lexeme.carried cuts)).map Lexeme.token =
        (x.draft.keys.map Lexeme.token).map (·.follow cuts) := by
      rw [List.map_map, List.map_map]
      exact List.map_congr_left fun l hl => token_carried (hlexemes hx l hl)
    rw [hrenews.keys_eq (fun _ => rfl) (Parse.formed_of_mem_standings hx)]
    exact (congrArg _ hmoved).trans (Validation.repeated_follow _ [])
  rw [Parse.findings_duplicateKey, Parse.findings_duplicateKey, hkeys]
  refine sortByRange_follow fun d hd hempty => ?_
  obtain ⟨x, hx, hd⟩ := List.mem_flatMap.mp hd
  obtain ⟨t, ht, hrange⟩ := Validation.range_of_mem_repeated hd
  obtain ⟨l, hl, rfl⟩ := List.mem_map.mp ht
  have hbounds := bounds_of_placed (Parse.placed_lexemes source) l (hlexemes hx l hl)
  have hsame : d.range.start = d.range.stop := beq_iff_eq.mp hempty
  rw [hrange] at hsame
  omega

/-! ## Escapes -/

theorem invalidEscape_follow (sequence : Text) {a a' b b' : Nat} (h : a < b)
    (hstart : Span.startBehind cuts a = a') (hinsert : Span.stopBehind cuts a = a')
    (hstop : Span.stopBehind cuts b = b') :
    (Validation.invalidEscape sequence ⟨a, b⟩).follow cuts =
      Validation.invalidEscape sequence ⟨a', b'⟩ := by
  subst hstart hstop
  have hempty : Span.isEmpty ⟨a, b⟩ = false := beq_false_of_ne (Nat.ne_of_lt h)
  have hedit : (Edit.insert a ['\\']).follow cuts = Edit.insert (Span.startBehind cuts a) ['\\'] := by
    rw [← hinsert]
    exact congrArg (Edit.mk · ['\\']) (if_pos (beq_self_eq_true a))
  rw [Diagnostic.follow, Validation.invalidEscape, Validation.invalidEscape, Span.follow, hempty]
  simp only [Fix.follow, List.map_singleton, hedit]
  rfl

theorem behind_within (h : CommasPut source text cuts) {l : Lexeme} (hl : l ∈ Parse.lexemes source)
    (i : Nat) :
    (i < l.token.text.size → Span.startBehind cuts (l.token.span.start + i) =
      Span.startBehind cuts l.token.span.start + i) ∧
    (0 < i → i ≤ l.token.text.size → Span.stopBehind cuts (l.token.span.start + i) =
      Span.startBehind cuts l.token.span.start + i) := by
  have hstop : l.token.span.stop = l.token.span.start + l.token.text.size :=
    (Lexer.bounds_of_mem_place (Parse.mem_tokenize_of_mem_lexemes hl)).2.1
  have hcuts : ∀ c ∈ cuts, c ≤ l.token.span.start ∨ l.token.span.stop ≤ c := fun c hc => by
    have hc := h.le_start_or_stop_le hl c hc
    rw [Lexeme.start] at hc
    omega
  have hbetween := Span.countP_between hcuts (p := l.token.span.start + i)
  refine ⟨fun hi => ?_, fun hpos hi => ?_⟩
  · rw [Span.startBehind, Span.startBehind, hbetween.1 (by omega) (by omega), Nat.add_right_comm]
  · rw [Span.stopBehind, Span.startBehind, hbetween.2 (by omega) (by omega), Nat.add_right_comm]

theorem bounds_of_mem_invalidEscapes {l : Lexeme} (hl : l ∈ Parse.lexemes source)
    (hkind : l.kind = .string) {span : Span} (hspan : span ∈ Quoted.invalidEscapes l.token.text) :
    0 < span.start ∧ span.start < span.stop ∧ span.stop ≤ l.token.text.size := by
  obtain ⟨front, c, back, htext, hstart, -⟩ := Quoted.exists_of_mem_invalidFrom hspan
  rw [Quoted.invalidEscapes, Quoted.invalidFrom_eq] at hspan
  obtain ⟨hlt, hle⟩ := Quoted.bounds_of_mem_invalidAmong hspan
  rw [Quoted.flatMap_text_parts, Nat.zero_add] at hle
  refine ⟨?_, hlt, hle⟩
  obtain ⟨body, hquote⟩ := Parse.exists_quote_of_string hl hkind
  cases front with
  | nil =>
    rw [hquote] at htext
    exact absurd (List.cons.inj htext).1 (by decide)
  | cons d ds =>
    have hpos := Char.utf8Size_pos d
    rw [hstart, Text.size_cons]
    omega

theorem invalidEscapes_carried (h : CommasPut source text cuts) {l : Lexeme}
    (hl : l ∈ Parse.lexemes source) :
    Validation.invalidEscapes (l.carried cuts).token.leafView =
      (Validation.invalidEscapes l.token.leafView).map (·.follow cuts) := by
  by_cases hkind : l.kind = .string
  · have hlabel : l.token.leafView.label = .token .string := congrArg Label.token hkind
    have hlabel' : (l.carried cuts).token.leafView.label = .token .string := hlabel
    rw [Validation.invalidEscapes, if_pos hlabel', Validation.invalidEscapes, if_pos hlabel,
      List.map_map]
    refine List.map_congr_left fun span hspan => ?_
    obtain ⟨hpos, hlt, hle⟩ := bounds_of_mem_invalidEscapes hl hkind hspan
    have hstart := (h.behind_within hl span.start).1 (by omega)
    have hinsert := (h.behind_within hl span.start).2 hpos (by omega)
    have hstop := (h.behind_within hl span.stop).2 (by omega) hle
    exact (invalidEscape_follow _ (Nat.add_lt_add_left hlt _) hstart hinsert hstop).symm
  · rw [Validation.invalidEscapes_of_ne fun hlabel => hkind (Label.token.inj hlabel),
      Validation.invalidEscapes_of_ne fun hlabel => hkind (Label.token.inj hlabel)]
    rfl

theorem findings_invalidEscape (h : CommasPut source text cuts) :
    findings text .invalidEscape = (findings source .invalidEscape).map (·.follow cuts) := by
  have hescapes : (Parse.scalars text).flatMap (Validation.invalidEscapes ·.token.leafView) =
      ((Parse.scalars source).flatMap (Validation.invalidEscapes ·.token.leafView)).map
        (·.follow cuts) := by
    rw [Parse.scalars_of_recast (fun _ => rfl) h.recast, List.flatMap_map, List.map_flatMap]
    exact List.flatMap_congr fun l hl =>
      h.invalidEscapes_carried (Parse.mem_lexemes_of_mem_scalars hl)
  rw [Parse.findings_invalidEscape, Parse.findings_invalidEscape, hescapes]
  refine sortByRange_follow fun d hd hempty => ?_
  obtain ⟨l, hl, hd⟩ := List.mem_flatMap.mp hd
  obtain ⟨hkind, span, hspan, rfl⟩ := exists_of_mem_invalidEscapes hd
  have hlt := (bounds_of_mem_invalidEscapes (Parse.mem_lexemes_of_mem_scalars hl) hkind hspan).2.1
  have hsame : l.token.span.start + span.start = l.token.span.start + span.stop :=
    beq_iff_eq.mp hempty
  omega

/-! ## Commas -/

theorem gap_of_rejoins (h : CommasPut source text cuts) {x : Standing} {k : NodeKind}
    {row : List Draft} {p p' : Siblings} (hadjoins : Parse.Adjoins source x k row p.first p.next)
    (hrejoins : (Recasting.commas cuts).Rejoins k p p') (hcut : p.gap.start ∉ cuts) :
    p'.gap = p.gap.carried cuts := by
  obtain ⟨m, hm, hm'⟩ := hrejoins.first.exists_lastToken p.next.firstLexeme
  obtain ⟨d, ds, hrow, hfirst⟩ := hrejoins.next.exists_cons
  obtain ⟨rfl, -⟩ := List.cons.inj hrow
  have hstart : p.next.firstLexeme.start = p.gap.start := hadjoins.start_eq
  have hmem := hadjoins.mem_lexemes
  have hbounds := bounds_of_placed (Parse.placed_lexemes source) _ hmem
  -- nothing is put in within the second sibling's first lexeme
  have hstop : p.gap.stop ∉ cuts := fun hcut' => by
    rcases h.le_start_or_stop_le hmem _ hcut' with hle | hle
    · have hge : p.next.firstLexeme.start ≤ p.gap.stop := Nat.sub_le _ _
      exact hcut (hstart ▸ Nat.le_antisymm hge hle ▸ hcut')
    · exact absurd hle (Nat.not_le.mpr hbounds.2.1)
  have hlast : p'.first.lastToken = (m.carried cuts).token := hm'
  have hlast' : p.first.lastToken = m.token := hm
  rw [Siblings.gap, hlast, firstToken, hfirst, Siblings.gap, hlast', Span.carried,
    Span.startBehind_eq_stopBehind (hlast' ▸ hcut)]
  exact congrArg (Span.mk _) (Span.startBehind_eq_stopBehind hstop)

/-- The gaps of a list in which a comma is missing are those in which none was put in. -/
theorem commaGaps_of_recast (h : CommasPut source text cuts) {c : Container}
    {x : Standing} (hx : x ∈ Parse.standings source) {before after : Option ParseError}
    {first first' : Draft} {rest rest' : List Draft}
    (hdraft : x.draft = node c.listKind before first rest after)
    (hparts : Recast (Recasting.commas cuts) c.listKind (first :: rest) (first' :: rest')) :
    commaGaps c.elementKind (first' :: rest') =
      ((commaGaps c.elementKind (first :: rest)).filter (decide <| ·.start ∉ cuts)).map
        (·.carried cuts) := by
  obtain ⟨e, hshape⟩ := exists_shaped_of_formed (hdraft ▸ Parse.formed_of_mem_standings hx)
  have hleaf := kind_of_leaf_mem hshape
  have hsiblings := siblings_of_recast_list (fun _ => rfl) (fun _ => false)
    (fun _ _ => Recasting.onNewLine_of_mem_cut) hparts
    (fun d _ => (onNewLine_carried d.firstLexeme).trans (Bool.or_false _).symm)
    fun l hl => ⟨hleaf l hl, rfl⟩
  simp only [Bool.not_false, List.filter_true] at hsiblings
  rw [commaGaps, commaGaps, List.filter_map, List.filter_filter, List.map_map]
  refine map_filter_eq_of_forall₂ hsiblings (fun p _ p' hp => ?_) fun p hp hkeep p' hrejoins => ?_
  · rw [hp.comma, Recasting.isNone_cut_commas, Bool.and_comm]
    rfl
  · obtain ⟨hcut, hnone⟩ := (Bool.and_eq_true ..).mp hkeep
    obtain ⟨-, hinfix | ⟨-, hfalse, -⟩⟩ := adjacent_of_mem_siblings hleaf (by simp) p hp
      (Option.isNone_iff_eq_none.mp hnone)
    · exact h.gap_of_rejoins ⟨hx, ⟨_, _, _, _, hdraft, rfl⟩, hinfix⟩ hrejoins
        (of_decide_eq_true hcut)
    · exact absurd hfalse (by simp)

/-- In a document with commas a comma is missing where none was put in. -/
theorem gaps_text (h : CommasPut source text cuts) : Parse.gaps text =
    ((Parse.gaps source).filter (decide <| ·.start ∉ cuts)).map (·.carried cuts) := by
  rw [Parse.gaps, Parse.gaps, List.filter_flatMap, List.map_flatMap]
  refine flatMap_eq_of_forall₂ h.renews fun x hx x' _ hrenews => ?_
  obtain ⟨kind, before, first, rest, after, hdraft⟩ := Parse.exists_node_of_mem_standings hx
  rw [hdraft] at hrenews
  obtain ⟨before', first', rest', after', hdraft', hparts⟩ := hrenews.exists_node
  rw [hdraft, hdraft']
  by_cases hlist : ∃ c : Container, kind = c.listKind
  · obtain ⟨c, rfl⟩ := hlist
    rw [ownGaps_list, ownGaps_list]
    exact h.commaGaps_of_recast hx hdraft hparts
  · rw [ownGaps_of_not_list fun c hc => hlist ⟨c, hc⟩, ownGaps_of_not_list fun c hc => hlist ⟨c, hc⟩]
    rfl

end CommasPut

/-! ## Missing commas of a document -/

def bareComma (gap : Span) : Diagnostic := .ofParseError ⟨.comma, .eof, [], gap⟩

namespace Parse

variable {source : Text}

theorem map_findings_expectedComma (source : Text) :
    (findings source .expectedComma).map Diagnostic.withFirstFix =
      sortByRange Diagnostic.range ((gaps source).map bareComma) := by
  have hfind := @findings_eq .expectedComma rfl source
    (fun x => (x.site.anyView?.toList.flatMap (Validation.atNode .default)).filter
      (·.category == .expectedComma)) fun x _ v hv => by
        rw [hv, Option.toList_some, List.flatMap_singleton]
  have hbare (ds : List Diagnostic) :
      sortByRange Diagnostic.range (ds.map Diagnostic.withFirstFix) =
        (sortByRange Diagnostic.range ds).map Diagnostic.withFirstFix :=
    sortByRange_map fun _ _ _ _ => rfl
  rw [hfind, ← hbare, gaps, List.map_flatMap, List.map_flatMap]
  refine congrArg _ (List.flatMap_congr fun x hx => ?_)
  obtain ⟨lines, hlines⟩ := Validation.exists_filter_atNode (isPlaced_of_mem_standings hx)
  rw [hlines, List.map_map]
  rfl

theorem exists_gap_of_mem_findings {d : Diagnostic} (h : d ∈ findings source .expectedComma) :
    ∃ gap ∈ gaps source, d.withFirstFix = bareComma gap := by
  have hmem := List.mem_map_of_mem (f := Diagnostic.withFirstFix) h
  rw [map_findings_expectedComma, mem_sortByRange] at hmem
  obtain ⟨gap, hgap, heq⟩ := List.mem_map.mp hmem
  exact ⟨gap, hgap, heq.symm⟩

theorem pairwise_findings_expectedComma (source : Text) :
    ((findings source .expectedComma).map (·.range.start)).Pairwise (· < ·) := by
  have hstarts : (findings source .expectedComma).map (·.range.start) =
      (sortByRange Diagnostic.range ((gaps source).map bareComma)).map (·.range.start) := by
    rw [← map_findings_expectedComma, List.map_map]
    rfl
  have hnodup : ((sortByRange Diagnostic.range ((gaps source).map bareComma)).map
      (·.range.start)).Nodup := by
    rw [((perm_sortByRange _ _).map _).nodup_iff, List.map_map]
    exact nodup_gaps source
  have hsorted := pairwise_sortByRange Diagnostic.range ((gaps source).map bareComma)
  rw [hstarts]
  have hle : ((sortByRange Diagnostic.range ((gaps source).map bareComma)).map
      (·.range.start)).Pairwise (· ≤ ·) := by
    refine List.pairwise_map.mpr (hsorted.imp fun hbefore => ?_)
    rcases Span.sortsBefore_iff.mp hbefore with hlt | ⟨heq, -⟩
    · exact Nat.le_of_lt hlt
    · exact Nat.le_of_eq heq
  exact (hle.and hnodup).imp fun ⟨hle, hne⟩ => Nat.lt_of_le_of_ne hle hne

end Parse

theorem bareComma_follow {cuts : List Nat} {gap : Span} (h : gap.start ∉ cuts) :
    (bareComma gap).follow cuts = bareComma (gap.carried cuts) := by
  have hedit : (Edit.insert gap.start [',']).follow cuts =
      Edit.insert (Span.startBehind cuts gap.start) [','] := by
    rw [Span.startBehind_eq_stopBehind h]
    exact congrArg (Edit.mk · [',']) (if_pos (beq_self_eq_true gap.start))
  have hrange : gap.follow cuts = gap.carried cuts := Span.follow_eq_carried fun _ => h
  have hfixes : (bareComma gap).fixes.map (·.follow cuts) = (bareComma (gap.carried cuts)).fixes :=
    congrArg (fun e => [Fix.mk "Insert ','" [e]]) hedit
  rw [Diagnostic.follow, hfixes]
  exact congrArg (Diagnostic.mk · _ _ _ _ _ _) hrange

namespace CommasPut

variable {source text : Text} {cuts : List Nat}

/-- Missing commas are told where they were, but for those that were put in. -/
theorem map_findings_expectedComma (h : CommasPut source text cuts) :
    (findings text .expectedComma).map Diagnostic.withFirstFix =
      ((findings source .expectedComma).filter (decide <| ·.range.start ∉ cuts)).map fun d =>
        (d.follow cuts).withFirstFix := by
  have hfollow : (fun d : Diagnostic => (d.follow cuts).withFirstFix) =
      (·.follow cuts) ∘ Diagnostic.withFirstFix := by
    funext d
    exact congrArg (Diagnostic.mk _ _ _ _ _ _) List.map_take.symm
  calc (findings text .expectedComma).map Diagnostic.withFirstFix
      = sortByRange Diagnostic.range ((Parse.gaps text).map bareComma) :=
        Parse.map_findings_expectedComma text
    _ = sortByRange Diagnostic.range
          ((((Parse.gaps source).filter (decide <| ·.start ∉ cuts)).map bareComma).map
            (·.follow cuts)) := by
        rw [h.gaps_text, List.map_map, List.map_map]
        refine congrArg _ (List.map_congr_left fun gap hgap => ?_)
        exact (bareComma_follow (of_decide_eq_true (List.mem_filter.mp hgap).2)).symm
    _ = (sortByRange Diagnostic.range
          (((Parse.gaps source).filter (decide <| ·.start ∉ cuts)).map bareComma)).map
            (·.follow cuts) := by
        refine sortByRange_follow fun d hd _ => ?_
        obtain ⟨gap, hgap, rfl⟩ := List.mem_map.mp hd
        exact of_decide_eq_true (List.mem_filter.mp hgap).2
    _ = (((findings source .expectedComma).map Diagnostic.withFirstFix).filter
          (decide <| ·.range.start ∉ cuts)).map (·.follow cuts) := by
        rw [Parse.map_findings_expectedComma, filter_sortByRange, List.filter_map]
        rfl
    _ = _ := by
        rw [List.filter_map, List.map_map, hfollow]
        rfl

end CommasPut

/-- The fixes of missing commas put them in, and nothing else changes: whichever are made at once,
the tokens are the old ones with one more comma for each, and everything that a check tells is told
as before, where its tokens are now, but for the commas that were put in. -/
theorem comma_fixes_put_commas {source : Text}
    (hclosed : ∀ t ∈ tokenize source, t.kind ≠ .unterminatedString) (chosen : Diagnostic → Bool) :
    (∀ d ∈ findings source .expectedComma, ∃ comma rest, d.fixes = comma :: rest ∧
      comma.title = "Insert ','") ∧
    ∃ text cuts, applyEdits source (((findings source .expectedComma).filter chosen).flatMap fun d =>
      (d.fixes.take 1).flatMap Fix.edits) = .ok text ∧ PutsCommas source text chosen cuts := by
  have hbare : ∀ d ∈ findings source .expectedComma,
      d.fixes.take 1 = [⟨"Insert ','", [.insert d.range.start [',']]⟩] := by
    intro d hd
    obtain ⟨gap, -, heq⟩ := Parse.exists_gap_of_mem_findings hd
    have hrange : d.range = gap := congrArg Diagnostic.range heq
    have hfixes : d.fixes.take 1 = (bareComma gap).fixes := congrArg Diagnostic.fixes heq
    rw [hfixes, hrange]
    rfl
  refine ⟨fun d hd => ?_, ?_⟩
  · cases hfixes : d.fixes with
    | nil => simpa [hfixes] using hbare d hd
    | cons comma rest =>
      have htake := hbare d hd
      rw [hfixes, List.take_succ_cons] at htake
      exact ⟨comma, rest, rfl, congrArg Fix.title (List.cons.inj htake).1⟩
  · have hsorted := Parse.pairwise_findings_expectedComma source
    generalize hcuts : ((findings source .expectedComma).filter chosen).map (·.range.start) = cuts
    have hmissing : Parse.IsMissingAt source cuts := by
      intro c hc
      rw [← hcuts] at hc
      obtain ⟨d, hd, rfl⟩ := List.mem_map.mp hc
      obtain ⟨gap, hgap, heq⟩ := Parse.exists_gap_of_mem_findings (List.mem_filter.mp hd).1
      exact ⟨gap, hgap, congrArg (·.range.start) heq⟩
    have hlt : cuts.Pairwise (· < ·) := hcuts ▸ hsorted.sublist (List.filter_sublist.map _)
    have hedits : ((findings source .expectedComma).filter chosen).flatMap (fun d =>
        (d.fixes.take 1).flatMap Fix.edits) = cuts.map (Edit.insert · [',']) := by
      rw [← hcuts, List.map_map, List.map_eq_flatMap]
      refine List.flatMap_congr fun d hd => ?_
      rw [hbare d (List.mem_filter.mp hd).1]
      rfl
    -- where a comma is put in tells which one it is
    have hchosen : ∀ d ∈ findings source .expectedComma,
        (!chosen d) = decide (d.range.start ∉ cuts) := by
      intro d hd
      rw [Bool.eq_iff_iff, Bool.not_eq_true', decide_eq_true_eq, ← Bool.not_eq_true, not_iff_not,
        ← hcuts]
      refine ⟨fun h => List.mem_map_of_mem (List.mem_filter.mpr ⟨hd, h⟩), fun h => ?_⟩
      obtain ⟨e, he, hsame⟩ := List.mem_map.mp h
      obtain ⟨he, hchosen⟩ := List.mem_filter.mp he
      obtain rfl : e = d := List.inj_on_of_nodup_map (hsorted.imp Nat.ne_of_lt) he hd hsame
      exact hchosen
    obtain ⟨text, happly, hlexemes⟩ := Parse.exists_text_of_cuts hclosed hlt fun c hc =>
      hmissing.exists_lexeme hc
    have hput : CommasPut source text cuts := ⟨hmissing, hlt, hlexemes⟩
    refine ⟨text, cuts, hedits ▸ happly, hcuts.symm, hput.significant_text, hput.length_significant,
      hput.errors_eq, ?_, hput.findings_duplicateKey, hput.findings_invalidEscape⟩
    rw [hput.map_findings_expectedComma, List.filter_congr hchosen]

/-- One of two commas that are missing, behind a member without a value. -/
theorem comma_fixes_put_commas_behind_colon :
    let source : Text := ['{', 'a', ':', ' ', 'b', ':', '1', ' ', 'c', ':', '2', '}']
    let chosen : Diagnostic → Bool := fun d => d.range.start == 3
    (∀ t ∈ tokenize source, t.kind ≠ .unterminatedString) ∧
      ((findings source .expectedComma).filter chosen).length = 1 ∧
      (findings source .expectedComma).length = 2 ∧
      (∀ d ∈ findings source .expectedComma, ∃ comma rest, d.fixes = comma :: rest ∧
        comma.title = "Insert ','") ∧
      ∃ text cuts, applyEdits source (((findings source .expectedComma).filter chosen).flatMap
        fun d => (d.fixes.take 1).flatMap Fix.edits) = .ok text ∧
          PutsCommas source text chosen cuts := by
  have hclosed : ∀ t ∈ tokenize ['{', 'a', ':', ' ', 'b', ':', '1', ' ', 'c', ':', '2', '}'],
      t.kind ≠ .unterminatedString := by
    decide +kernel
  exact ⟨hclosed, by decide +kernel, by decide +kernel, comma_fixes_put_commas hclosed _⟩

end Maml
