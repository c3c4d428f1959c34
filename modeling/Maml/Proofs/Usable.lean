import Maml.Check
import Maml.Proofs.Cuts
import Maml.Proofs.Escapes
import Maml.Proofs.Fitting
import Maml.Proofs.Forms
import Maml.Proofs.Nesting
import Maml.Proofs.Notes
import Maml.Proofs.Ranges

/-! Diagnostics can be used on the text that they are about.

1. Every mistake has a range that fits the text, and where a plus sign is to be removed
   there is one (`fitsIn_of_mem_errors`, `fitsIn_plus`). So what is told of mistakes fits
   the text, with its fixes (`Diagnostic.fitsIn_ofParseError`).
2. Every node is where its text stands (`liesIn_of_mem_descendants`), and so are its parts
   (`View.liesIn_parts`).
3. The siblings on one line that are found in a row of parts follow one another, with what
   is between them (`neighbours_row`); so the fix that breaks all those lines can be made.
   Keys and escapes are where their nodes are.
4. So everything that is told of a text fits it (`check_usable`). -/
namespace Maml

/-- Whether a diagnostic is about a part of a text, and so is all that it refers to or changes. -/
structure Diagnostic.FitsIn (d : Diagnostic) (text : Text) : Prop where
  range : d.range.FitsIn text
  related : ∀ r ∈ d.related, r.FitsIn text
  fixes : ∀ f ∈ d.fixes, f.FitsIn text

/-! ## Mistakes -/

open Lexer in
theorem exists_append_of_mem_tokenize {source : Text} {t : Token} (h : t ∈ tokenize source) :
    ∃ a b, source = a ++ t.text ++ b ∧ t.span = ⟨a.size, a.size + t.text.size⟩ := by
  obtain ⟨front, back, hlex, hspan⟩ := exists_append_of_mem_place h
  refine ⟨front.flatMap (·.2), back.flatMap (·.2), ?_, by rw [hspan, Nat.zero_add]⟩
  rw [← flatMap_lex source, hlex, List.flatMap_append, List.flatMap_cons, List.append_assoc]

theorem fitsIn_of_mem_tokenize {source : Text} {t : Token} (h : t ∈ tokenize source) :
    t.span.FitsIn source := by
  obtain ⟨a, b, rfl, hspan⟩ := exists_append_of_mem_tokenize h
  rw [hspan]
  exact Span.fitsIn_append a t.text b

open Draft

namespace Parse

theorem mem_tokenize_of_mem_lexemes {source : Text} {l : Lexeme} (h : l ∈ lexemes source) :
    l.token ∈ tokenize source := by
  have hmem := List.mem_map_of_mem (f := Lexeme.token) h
  rw [lexemes, map_token_lexemes] at hmem
  exact (List.mem_filter.mp hmem).1

theorem fitsIn_of_within {source : Text} {range : Span} (h : Within (lexemes source) range)
    (horder : range.Ordered) : range.FitsIn source := by
  have htoken (l : Lexeme) (hl : l ∈ lexemes source) : l.token.span.FitsIn source :=
    fitsIn_of_mem_tokenize (mem_tokenize_of_mem_lexemes hl)
  rcases h with ⟨l, hl, rfl⟩ | ⟨front, first, back, last, hsplit, hlast, rfl⟩
  · exact Span.fitsIn_empty (htoken l hl).stop
  · have hfirst : first ∈ lexemes source := hsplit ▸ List.mem_append_right _ List.mem_cons_self
    exact ⟨horder, (htoken first hfirst).start,
      (htoken last (hsplit ▸ List.mem_append_right _ hlast)).stop⟩

/-- The mistakes in a text are parts of it. -/
theorem fitsIn_of_mem_errors {source : Text} {err : ParseError}
    (h : err ∈ (parse source).errors) : err.range.FitsIn source := by
  have horder : InOrder ((lexemes source).map Lexeme.token) := by
    rw [lexemes, map_token_lexemes]
    exact (inOrder_of_tiled (tiled_tokenize source)).1
  have hwithin : Within (lexemes source) err.range := within_of_mem_errors horder h
  exact fitsIn_of_within hwithin (hwithin.ordered horder)

theorem exists_names_of_mem_errors {source : Text} {err : ParseError}
    (h : err ∈ (parse source).errors) : ∃ t ∈ tokenize source, Names t err := by
  obtain ⟨x, hx, hnote⟩ := List.mem_flatMap.mp ((perm_errors_parse source).mem_iff.mpr h)
  obtain ⟨front, back, hlexemes, -⟩ := among_of_mem_standingsRow 0 [] _ x hx
  obtain ⟨ls, hls⟩ := exists_lexemes_eq_cons x.draft
  have hfirst : x.draft.firstLexeme ∈ lexemes source := by
    have hall := lexemes_documentDrafts (Lexemes.ofTokens (tokenize source) source.size).eof
      (lexemes source)
    rw [← hall]
    refine hlexemes ▸ ?_
    rw [hls]
    simp
  exact ⟨x.draft.firstToken, mem_tokenize_of_mem_lexemes hfirst,
    names_of_mem_notes (formed_of_mem_standings hx) (isPlaced_of_mem_standings hx) err hnote⟩

/-- Where a mistake begins that names a plus sign, there is one. -/
theorem fitsIn_plus {source : Text} {err : ParseError} (h : err ∈ (parse source).errors)
    (hplus : Classification.isPlus err = true) (hcolon : err.expected ≠ .colon)
    (hthere : err.isMissing = false) :
    Span.FitsIn ⟨err.range.start, err.range.start + 1⟩ source := by
  obtain ⟨t, ht, hnames⟩ := exists_names_of_mem_errors h
  obtain ⟨hstart, hfound⟩ := hnames.resolve_left (by simp [hthere])
  obtain ⟨-, htext⟩ := hfound.resolve_left hcolon
  have hsize : t.text.size = 1 := by
    simp only [Classification.isPlus, Bool.and_eq_true, beq_iff_eq] at hplus
    rw [← htext, hplus.2]
    rfl
  obtain ⟨a, b, rfl, hspan⟩ := exists_append_of_mem_tokenize ht
  have hfits := Span.fitsIn_append a t.text b
  rw [hstart, hspan]
  rwa [hsize] at hfits

end Parse

/-- Only a plus sign is taken for one, and not behind a key. -/
theorem Classification.isPlus_of_category {e : ParseError}
    (h : (ofParseError e).category = .unexpectedPlus) :
    isPlus e = true ∧ e.expected ≠ .colon := by
  have hvalue : (ofValueError e).category ≠ .unexpectedPlus := by
    unfold ofValueError unexpected
    split
    · simp
    · split
      · split <;> simp
      all_goals simp
  unfold ofParseError at h
  cases hexpected : e.expected <;> simp only [hexpected, reduceCtorEq] at h
  case key =>
    by_cases hplus : isPlus e = true
    · exact ⟨hplus, by simp⟩
    · rw [if_neg hplus] at h
      split at h <;> simp at h
  case value =>
    by_cases hplus : isPlus e = true
    · exact ⟨hplus, by simp⟩
    · rw [if_neg hplus] at h
      exact absurd h hvalue
  case eof =>
    by_cases hplus : isPlus e = true
    · exact ⟨hplus, by simp⟩
    · rw [if_neg hplus] at h
      simp [unexpected] at h

/-- What is told of a mistake fits a text if the mistake does and, where a plus sign is to be removed,
the text has it. -/
theorem Diagnostic.fitsIn_ofParseError {e : ParseError} {text : Text}
    (hrange : e.range.FitsIn text)
    (hplus : Classification.isPlus e = true → e.expected ≠ .colon → e.isMissing = false →
      Span.FitsIn ⟨e.range.start, e.range.start + 1⟩ text) :
    (ofParseError e).FitsIn text := by
  refine ⟨hrange, by simp [ofParseError], ?_⟩
  have hcategory : (Classification.ofParseError e).category = .unexpectedPlus →
      Classification.isPlus e = true ∧ e.expected ≠ .colon := Classification.isPlus_of_category
  show ∀ f ∈ e.fixes (Classification.ofParseError e).category, f.FitsIn text
  have hstart (text') : Span.FitsIn (Edit.insert e.range.start text').range text :=
    Span.fitsIn_empty hrange.start
  have hstop (text') : Span.FitsIn (Edit.insert e.range.stop text').range text :=
    Span.fitsIn_empty hrange.stop
  generalize (Classification.ofParseError e).category = category at hcategory
  intro f hf
  cases category with
  | expectedColon | unterminatedString =>
    rw [List.mem_singleton.mp hf]
    exact Fix.fitsIn_singleton _ (hstop _)
  | expectedComma | expectedRBrace | expectedRBracket =>
    rw [List.mem_singleton.mp hf]
    exact Fix.fitsIn_singleton _ (hstart _)
  | unexpectedPlus =>
    obtain ⟨hsign, hcolon⟩ := hcategory rfl
    simp only [ParseError.fixes] at hf
    split at hf
    · simp at hf
    · rename_i hthere
      rw [List.mem_singleton.mp hf]
      exact Fix.fitsIn_singleton _ (hplus hsign hcolon (by simpa using hthere))
  | expectedKey =>
    simp only [ParseError.fixes] at hf
    split at hf
    · rw [List.mem_singleton.mp hf]
      exact Fix.fitsIn_singleton _ hrange
    · simp at hf
  | invalidIdentifierValue =>
    rcases List.mem_append.mp hf with hf | hf
    · obtain ⟨word, -, rfl⟩ := List.mem_map.mp hf
      exact Fix.fitsIn_singleton _ hrange
    · rw [List.mem_singleton.mp hf]
      exact Fix.fitsIn_singleton _ hrange
  | expectedValue | unexpectedToken | duplicateKey | invalidEscape | nestingTooDeep =>
    simp [ParseError.fixes] at hf

/-! ## Nodes where their texts stand -/

/-- Whether a site is where its text stands in a text that begins at an offset. -/
def Site.LiesIn (s : Site) (o : Nat) (text : Text) : Prop :=
  ∃ a b, text = a ++ s.tree.text ++ b ∧ s.offset = o + a.size

namespace Site

theorem LiesIn.append_right {s : Site} {o : Nat} {text : Text} (h : s.LiesIn o text)
    (back : Text) : s.LiesIn o (text ++ back) := by
  obtain ⟨a, b, rfl, ho⟩ := h
  exact ⟨a, b ++ back, by rw [List.append_assoc], ho⟩

theorem LiesIn.append_left {s : Site} {o : Nat} {front text : Text}
    (h : s.LiesIn (o + front.size) text) : s.LiesIn o (front ++ text) := by
  obtain ⟨a, b, rfl, ho⟩ := h
  exact ⟨front ++ a, b, by simp only [List.append_assoc],
    by rw [ho, Text.size_append, Nat.add_assoc]⟩

theorem LiesIn.trans {s p : Site} {o : Nat} {text : Text} (h : s.LiesIn o text)
    (hp : p.LiesIn s.offset s.tree.text) : p.LiesIn o text := by
  obtain ⟨a, b, rfl, ho⟩ := h
  rw [ho] at hp
  exact hp.append_left.append_right b

theorem LiesIn.fitsIn {s : Site} {text : Text} (h : s.LiesIn 0 text) : s.range.FitsIn text := by
  obtain ⟨a, b, rfl, ho⟩ := h
  have hfits := Span.fitsIn_append a s.tree.text b
  rwa [range, stop, ho, Tree.size_eq, Nat.zero_add]

theorem StandsIn.liesIn {s : Site} {o : Nat} {as : List (Label × Text)} (h : s.StandsIn o as) :
    s.LiesIn o (as.flatMap (·.2)) := by
  obtain ⟨front, back, rfl, ho⟩ := h
  refine ⟨front.flatMap (·.2), back.flatMap (·.2), ?_, ho⟩
  rw [List.flatMap_append, List.flatMap_append, Tree.text_eq_flatMap_leaves]

theorem liesIn_row {o : Nat} {b : List (Option Text)} {ts : List Tree} {s : Site}
    (hs : s ∈ row o b ts) : s.LiesIn o (Tree.textList ts) := by
  rw [Tree.textList_eq_flatMap_leavesList]
  exact (standsIn_row hs).liesIn

/-- The nodes of a tree are where their texts stand in its text. -/
theorem liesIn_of_mem_descendants {t : Tree} {s : Site} (h : s ∈ (root t).descendants) :
    s.LiesIn 0 t.text := by
  rw [Tree.text_eq_flatMap_leaves]
  exact (standsIn_nodesOf 0 [] t s h).liesIn

theorem site_of_view? {kind : NodeKind} {s : Site} {v : View kind} (h : s.view? kind = some v) :
    v.site = s := by
  obtain ⟨o, b, t⟩ := s
  cases t with
  | leaf => simp [view?] at h
  | node label children =>
    unfold view? at h
    simp only at h
    split at h
    · rename_i hlabel
      obtain rfl := Option.some.inj h
      rw [View.site, hlabel]
    · simp at h

theorem site_of_anyView? {s : Site} {v : AnyView} (h : s.anyView? = some v) : v.view.site = s := by
  obtain ⟨o, b, t⟩ := s
  unfold anyView? at h
  split at h
  · rename_i kind children htree
    obtain rfl := Option.some.inj h
    simp only at htree
    rw [View.site, htree]
  · simp at h

end Site

namespace View

variable {kind k : NodeKind} {v : View kind} {text : Text}

theorem liesIn_parts (h : v.site.LiesIn 0 text) : ∀ s ∈ v.parts, s.LiesIn 0 text :=
  fun _ hs => h.trans (Site.liesIn_row hs)

theorem liesIn_first? {w : View k} (h : v.site.LiesIn 0 text) (hw : v.first? k = some w) :
    w.site.LiesIn 0 text := by
  obtain ⟨s, hs, hview⟩ := List.exists_of_findSome?_eq_some hw
  rw [Site.site_of_view? hview]
  exact liesIn_parts h s hs

theorem liesIn_all {w : View k} (h : v.site.LiesIn 0 text) (hw : w ∈ v.all k) :
    w.site.LiesIn 0 text := by
  obtain ⟨s, hs, hview⟩ := List.mem_filterMap.mp hw
  rw [Site.site_of_view? hview]
  exact liesIn_parts h s hs

theorem exists_append_of_mem_leaves {l : LeafView} (h : v.site.LiesIn 0 text)
    (hl : l ∈ v.leaves) : ∃ a b, text = a ++ l.text ++ b ∧ l.offset = a.size := by
  obtain ⟨s, hs, hleaf⟩ := List.mem_filterMap.mp hl
  obtain ⟨a, b, htext, ho⟩ := liesIn_parts h s hs
  obtain ⟨hoffset, htree⟩ := Site.leaf?_eq_some hleaf
  rw [htree] at htext
  exact ⟨a, b, htext, by rw [← hoffset, ho, Nat.zero_add]⟩

end View

/-! ## Siblings -/

namespace Validation

/-- Whether what is between two siblings fits a text, with the comma and without it. -/
structure Neighbours.FitsIn (n : Neighbours) (text : Text) : Prop where
  gap : n.gap.FitsIn text
  blanks : n.blanks.FitsIn text

/-- Whether a sibling, with the end of a comma behind it if there is one, stands in front of the
offset `o` in a text, and ends at `low` or later. -/
structure Precedes (text : Text) (low o : Nat) (comma : Option Nat) (s : Site) : Prop where
  fits : s.range.FitsIn text
  stop_le : s.stop ≤ comma.getD s.stop
  le : comma.getD s.stop ≤ o
  low_le : low ≤ comma.getD s.stop

namespace Precedes
variable {text : Text} {low o o' : Nat} {comma : Option Nat} {s : Site}

theorem self (h : s.range.FitsIn text) : Precedes text s.offset s.stop none s where
  fits := h
  stop_le := Nat.le_refl _
  le := Nat.le_refl _
  low_le := Nat.le_add_right _ _

theorem mono (h : Precedes text low o comma s) (hle : o ≤ o') : Precedes text low o' comma s :=
  { h with le := Nat.le_trans h.le hle }

theorem withComma (h : Precedes text low o comma s) (hle : o ≤ o') :
    Precedes text low o' (some o') s where
  fits := h.fits
  stop_le := Nat.le_trans h.stop_le (Nat.le_trans h.le hle)
  le := Nat.le_refl _
  low_le := Nat.le_trans h.low_le (Nat.le_trans h.le hle)

end Precedes

/-- The siblings on one line that are found in a row are neighbours in a text, and behind one
another. `low` is any offset in front of which nothing is taken. -/
theorem neighbours_row {kind : NodeKind} {text : Text} {previous : Option Site}
    {comma : Option Nat} {lineBreak : Bool} {o low : Nat} {b : List (Option Text)}
    {ts : List Tree} (hrow : ∀ s ∈ Site.row o b ts, s.range.FitsIn text)
    (hprevious : ∀ f ∈ previous, Precedes text low o comma f)
    (hcomma : ∀ c ∈ comma, text.isBoundary c = true) (hlow : low ≤ o) :
    (∀ n ∈ neighbours kind previous comma lineBreak (Site.row o b ts),
        n.FitsIn text ∧ low ≤ n.blanks.start) ∧
      (neighbours kind previous comma lineBreak (Site.row o b ts)).Pairwise
        fun m n => m.blanks.stop ≤ n.blanks.start := by
  induction ts generalizing previous comma lineBreak o low b with
  | nil => simp [Site.row, neighbours]
  | cons t ts ih =>
    have hs : Span.FitsIn ⟨o, o + t.size⟩ text := hrow ⟨o, b, t⟩ List.mem_cons_self
    have hrest := fun s hs => hrow s (List.mem_cons_of_mem _ hs)
    have hle : o ≤ o + t.size := Nat.le_add_right _ _
    have hweaker := fun f hf => (hprevious f hf).mono hle
    rw [Site.row, neighbours]
    cases t with
    | node label children =>
      simp only
      split
      · -- what is found behind this sibling begins where it ends or later
        have hself : ∀ f ∈ some (⟨o, b, .node label children⟩ : Site),
            Precedes text o (o + (Tree.node label children).size) none f := by
          intro f hf
          obtain rfl := Option.some.inj hf
          exact @Precedes.self text ⟨o, b, .node label children⟩ hs
        obtain ⟨hmore, hpairs⟩ := @ih _ none false _ o _ hrest hself (by simp) hle
        have hlater := fun n hn => And.intro (hmore n hn).1 (Nat.le_trans hlow (hmore n hn).2)
        cases previous with
        | none => exact ⟨hlater, hpairs⟩
        | some first =>
          simp only
          split
          · exact ⟨hlater, hpairs⟩
          · have hfirst := hprevious first rfl
            have hfrom : text.isBoundary (comma.getD first.stop) = true := by
              cases comma with
              | none => exact hfirst.fits.stop
              | some c => exact hcomma c rfl
            refine ⟨fun n hn => ?_, List.pairwise_cons.mpr ⟨fun n hn => (hmore n hn).2, hpairs⟩⟩
            rcases List.mem_cons.mp hn with rfl | hn
            · exact ⟨⟨⟨Nat.le_trans hfirst.stop_le hfirst.le, hfirst.fits.stop, hs.start⟩,
                hfirst.le, hfrom, hs.start⟩, hfirst.low_le⟩
            · exact hlater n hn
      · exact ih hrest (by simp) hcomma (Nat.le_trans hlow hle)
    | leaf label word =>
      simp only
      split
      · refine ih hrest (fun f hf => (hprevious f hf).withComma hle) ?_ (Nat.le_trans hlow hle)
        intro c hc
        obtain rfl := Option.some.inj hc
        exact hs.stop
      split
      · exact ih hrest hweaker hcomma (Nat.le_trans hlow hle)
      · exact ih hrest hweaker hcomma (Nat.le_trans hlow hle)

theorem fitsIn_missingComma {text : Text} {lines : Fix} {n : Neighbours} (hn : n.FitsIn text)
    (hlines : lines.FitsIn text) : (missingComma lines n).FitsIn text := by
  have h : (Diagnostic.ofParseError ⟨.comma, .eof, [], n.gap⟩).FitsIn text :=
    Diagnostic.fitsIn_ofParseError hn.gap (by simp [Classification.isPlus])
  refine ⟨hn.gap, h.related, fun f hf => ?_⟩
  rcases List.mem_append.mp hf with hf | hf
  · exact h.fixes f hf
  · rwa [List.mem_singleton.mp hf]

theorem fitsIn_of_mem_missingCommas {kind k : NodeKind} {list : View k} {text : Text}
    (h : list.site.LiesIn 0 text) : ∀ d ∈ missingCommas kind list, d.FitsIn text := by
  have hparts := fun s hs => (View.liesIn_parts h s hs).fitsIn
  obtain ⟨hpairs, hrow⟩ := @neighbours_row kind text none none false list.offset 0 list.before
    list.children hparts (by simp) (by simp) (Nat.zero_le _)
  intro d hd
  obtain ⟨n, hn, rfl⟩ := List.mem_map.mp hd
  have hmem := (List.mem_filter.mp hn).1
  refine fitsIn_missingComma (hpairs n hmem).1 (Fix.fitsIn_of_pairwise ?_ ?_ ?_)
  · exact List.ne_nil_of_mem (List.mem_map_of_mem hmem)
  · intro e he
    obtain ⟨m, hm, rfl⟩ := List.mem_map.mp he
    exact (hpairs m hm).1.blanks
  · exact List.pairwise_map.mpr hrow

/-! ## Keys and escapes -/

theorem fitsIn_of_mem_duplicatesAmong {text : Text} {seen : List (Text × Span)}
    {ks : List View.Key} (hseen : ∀ p ∈ seen, p.2.FitsIn text)
    (hks : ∀ k ∈ ks, k.range.FitsIn text) : ∀ d ∈ duplicatesAmong seen ks, d.FitsIn text := by
  induction ks generalizing seen with
  | nil => simp [duplicatesAmong]
  | cons k ks ih =>
    have hk := hks k List.mem_cons_self
    have hrest := fun k' hk' => hks k' (List.mem_cons_of_mem _ hk')
    rw [duplicatesAmong]
    split
    · rename_i first hlookup
      intro d hd
      rcases List.mem_cons.mp hd with rfl | hd
      · refine ⟨hk, fun r hr => ?_, by simp [duplicateKey]⟩
        obtain rfl : first = r := by simpa [duplicateKey] using hr
        obtain ⟨front, back, hsplit, -⟩ := List.lookup_eq_some_iff.mp hlookup
        exact hseen _ (hsplit ▸ List.mem_append_right _ List.mem_cons_self)
      · exact ih hseen hrest d hd
    · refine ih (fun p hp => ?_) hrest
      rcases List.mem_cons.mp hp with rfl | hp
      · exact hk
      · exact hseen p hp

theorem fitsIn_of_mem_duplicateKeys {m : View.Members} {text : Text}
    (h : m.site.LiesIn 0 text) : ∀ d ∈ duplicateKeys m, d.FitsIn text := by
  refine fitsIn_of_mem_duplicatesAmong (by simp) fun k hk => ?_
  obtain ⟨member, hmember, hkey⟩ := List.mem_filterMap.mp hk
  exact (View.liesIn_first? (View.liesIn_all h hmember) hkey).fitsIn

end Validation

namespace Quoted

theorem fitsIn_of_mem_invalidAmong {front : Text} {ps : List Part} {range : Span}
    (h : range ∈ invalidAmong front.size ps) : range.FitsIn (front ++ ps.flatMap Part.text) := by
  induction ps generalizing front with
  | nil => simp [invalidAmong] at h
  | cons p ps ih =>
    rw [List.flatMap_cons, ← List.append_assoc]
    have hrest (hmem : range ∈ invalidAmong (front.size + p.text.size) ps) :
        range.FitsIn (front ++ p.text ++ ps.flatMap Part.text) := by
      rw [← Text.size_append] at hmem
      exact ih hmem
    simp only [invalidAmong] at h
    split at h
    · rcases List.mem_cons.mp h with rfl | h
      · exact Span.fitsIn_append front p.text _
      · exact hrest h
    · exact hrest h

end Quoted

namespace Validation

theorem fitsIn_of_mem_invalidEscapes {l : LeafView} {a b : Text} (ho : l.offset = a.size) :
    ∀ d ∈ invalidEscapes l, d.FitsIn (a ++ l.text ++ b) := by
  intro d hd
  unfold invalidEscapes at hd
  split at hd
  · obtain ⟨span, hspan, rfl⟩ := List.mem_map.mp hd
    have hfits : span.FitsIn l.text := by
      rw [Quoted.invalidEscapes, Quoted.invalidFrom_eq] at hspan
      have hfrom := @Quoted.fitsIn_of_mem_invalidAmong [] _ _ hspan
      rwa [List.nil_append, Quoted.flatMap_text_parts] at hfrom
    obtain ⟨x, y, z, htext, rfl⟩ := hfits.exists_append
    have hrange : Span.FitsIn ⟨l.offset + x.size, l.offset + (x.size + y.size)⟩
        (a ++ l.text ++ b) := by
      have happend := Span.fitsIn_append (a ++ x) y (z ++ b)
      rw [htext, ho, ← Nat.add_assoc, ← Text.size_append]
      simpa only [List.append_assoc] using happend
    refine ⟨hrange, by simp [invalidEscape], fun f hf => ?_⟩
    rw [List.mem_singleton.mp hf]
    exact Fix.fitsIn_singleton _ (Span.fitsIn_empty hrange.start)
  · simp at hd

/-! ## Everything that is told -/

theorem mem_leaves_of_content {v : View.Value} {l : LeafView}
    (h : View.Value.content v = .string l) : l ∈ v.leaves := by
  unfold View.Value.content at h
  split at h
  · rename_i s hs
    unfold View.Content.ofNode at h
    split at h <;> simp at h
  · split at h
    · rename_i l' hl'
      have hmem : l' ∈ v.leaves := List.mem_of_find?_eq_some hl'
      unfold View.Content.ofLeaf at h
      split at h <;> simp at h
      exact h ▸ hmem
    · simp at h

/-- What is told of a node that lies in a text fits the text. -/
theorem fitsIn_of_mem_atNode {o : ValidationOptions} {v : AnyView} {text : Text}
    (h : v.view.site.LiesIn 0 text) : ∀ d ∈ atNode o v, d.FitsIn text := by
  have hleaf {k : NodeKind} {w : View k} (hw : w.site.LiesIn 0 text) (l : LeafView)
      (hl : l ∈ w.leaves) : ∀ d ∈ invalidEscapes l, d.FitsIn text := by
    obtain ⟨a, b, rfl, ho⟩ := View.exists_append_of_mem_leaves hw hl
    exact fitsIn_of_mem_invalidEscapes ho
  obtain ⟨kind, v⟩ := v
  intro d hd
  cases kind with
  | members =>
    rcases List.mem_append.mp hd with hd | hd
    · split at hd
      · exact fitsIn_of_mem_missingCommas h d hd
      · simp at hd
    · split at hd
      · exact fitsIn_of_mem_duplicateKeys h d hd
      · simp at hd
  | items =>
    simp only [atNode] at hd
    split at hd
    · exact fitsIn_of_mem_missingCommas h d hd
    · simp at hd
  | key =>
    simp only [atNode] at hd
    split at hd
    · obtain ⟨l, hl, hd⟩ := List.mem_flatMap.mp hd
      have hfound : v.leaves.find? (!·.label.isTrivia) = some l := Option.mem_toList.mp hl
      exact hleaf h l (List.mem_of_find?_eq_some hfound) d hd
    · simp at hd
  | value =>
    simp only [atNode] at hd
    split at hd
    · split at hd
      · rename_i l hl
        exact hleaf h l (mem_leaves_of_content hl) d hd
      · simp at hd
    · simp at hd
  | _ => simp [atNode] at hd

end Validation

theorem check_nil (o : ValidationOptions) : check o [] = [] := by
  have hparse : parse [] = ⟨.node (.node .file) [], []⟩ := by
    simp [parse, tokenize, Lexer.lex, Lexer.place, Lexemes.ofTokens, Lexemes.group, Parse.ofLexemes,
      documentDrafts, trees]
  rw [check, hparse]
  rfl

theorem fitsIn_of_mem_check {o : ValidationOptions} {source : Text} {d : Diagnostic}
    (h : d ∈ check o source) : d.FitsIn source := by
  rcases List.mem_append.mp ((mem_sortByRange _).mp h) with hd | hd
  · obtain ⟨e, he, rfl⟩ := List.mem_map.mp hd
    exact Diagnostic.fitsIn_ofParseError (Parse.fitsIn_of_mem_errors he) (Parse.fitsIn_plus he)
  · obtain ⟨v, hv, hd⟩ := List.mem_flatMap.mp hd
    obtain ⟨s, hs, hview⟩ := List.mem_filterMap.mp hv
    have hlies := Site.liesIn_of_mem_descendants hs
    rw [text_tree_parse, ← Site.site_of_anyView? hview] at hlies
    exact Validation.fitsIn_of_mem_atNode hlies d hd

/-- Whatever is told of a text can be used on it: what it is about and what it refers to are parts
of the text, with labels that point at something there, and its fixes change parts of the text that
do not overlap and can be made. -/
theorem check_usable (o : ValidationOptions) (source : Text) : ∀ d ∈ check o source,
    d.FitsIn source ∧ ∀ r, r = d.range ∨ r ∈ d.related → ∃ label,
      Report.labelRange source r = .ok label ∧ label.start < label.stop ∧ label.FitsIn source := by
  intro d hd
  have hfits := fitsIn_of_mem_check hd
  have hne : source ≠ [] := by
    rintro rfl
    simp [check_nil] at hd
  refine ⟨hfits, fun r hr => ?_⟩
  rcases hr with rfl | hr
  · exact hfits.range.exists_labelRange hne
  · exact (hfits.related r hr).exists_labelRange hne

/-- In `["é\\q" 2 +1` the bracket is not closed, so something is missing at the end; an escape in
front of it means nothing, and there is a plus sign. -/
theorem check_usable_open_array :
    ∃ d ∈ check .default ['[', '"', 'é', '\\', 'q', '"', ' ', '2', ' ', '+', '1'],
      d.range = ⟨12, 12⟩ ∧ d.fixes ≠ [] ∧
        d.FitsIn ['[', '"', 'é', '\\', 'q', '"', ' ', '2', ' ', '+', '1'] ∧
        ∃ label, Report.labelRange ['[', '"', 'é', '\\', 'q', '"', ' ', '2', ' ', '+', '1']
            ⟨12, 12⟩ = .ok label ∧ label.start < label.stop ∧
          label.FitsIn ['[', '"', 'é', '\\', 'q', '"', ' ', '2', ' ', '+', '1'] := by
  obtain ⟨d, hd, hrange, hfixes⟩ :
      ∃ d ∈ check .default ['[', '"', 'é', '\\', 'q', '"', ' ', '2', ' ', '+', '1'],
        d.range = ⟨12, 12⟩ ∧ d.fixes.isEmpty = false := by
    decide +kernel
  obtain ⟨hfits, hlabel⟩ := check_usable _ _ d hd
  refine ⟨d, hd, hrange, by simpa using hfixes, hfits, ?_⟩
  rw [← hrange]
  exact hlabel d.range (.inl rfl)

end Maml
