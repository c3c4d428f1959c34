import Maml.Proofs.Changes
import Maml.Proofs.Edges
import Maml.Proofs.Ranges
import Maml.Proofs.Sorting
import Maml.Proofs.Usable

/-! The order of mistakes.

1. What is within lexemes sorts no later than what is within the lexemes behind them
   (`sortsBefore_of_within_append`). The first token sorts no later than anything within the
   lexemes it begins, and nothing within lexemes sorts behind the end of the last one
   (`sortsBefore_of_within_cons`, `sortsBefore_stop_of_within`).
2. A note in front of a node's parts is about its first token, or the parts have no mistakes;
   a note behind them marks their end, or they have none. So the mistakes in drafts are met in
   the order of their ranges (`inSequence_of_shaped`).
3. The errors of a text are sorted as they come, and their ranges are made of the bounds of its
   tokens (`errors_in_source_order`). -/
namespace Maml

/-! ## Ranges in order -/

theorem InOrder.stop_le_start {t u : Token} {ts : List Token} (h : InOrder (t :: ts))
    (hu : u ∈ ts) : t.span.stop ≤ u.span.start := by
  induction ts generalizing t with
  | nil => simp at hu
  | cons v vs ih =>
    have hnext : t.span.stop ≤ v.span.start := h.2.1 v rfl
    rcases List.mem_cons.mp hu with rfl | hu
    · exact hnext
    · have hv : v.span.Ordered := h.2.2.1
      exact Nat.le_trans hnext (Nat.le_trans hv (ih h.2.2 hu))

theorem InOrder.stop_le_stop {t u : Token} {ts : List Token} (h : InOrder (t :: ts))
    (hu : u ∈ t :: ts) : t.span.stop ≤ u.span.stop := by
  rcases List.mem_cons.mp hu with rfl | hu
  · exact Nat.le_refl _
  · obtain ⟨front, back, rfl⟩ := List.append_of_mem hu
    exact Nat.le_trans (h.stop_le_start hu) h.2.2.of_append.2.1

theorem InOrder.stop_le_start_of_append {t u : Token} {ts us : List Token}
    (h : InOrder (ts ++ us)) (ht : t ∈ ts) (hu : u ∈ us) : t.span.stop ≤ u.span.start := by
  induction ts with
  | nil => simp at ht
  | cons t' ts ih =>
    rcases List.mem_cons.mp ht with rfl | ht
    · exact h.stop_le_start (List.mem_append_right _ hu)
    · exact ih h.2.2 ht

theorem InOrder.ordered {ts : List Token} (h : InOrder ts) {t : Token} (ht : t ∈ ts) :
    t.span.Ordered := by
  obtain ⟨front, back, rfl⟩ := List.append_of_mem ht
  exact h.of_append.2.1

theorem Within.exists_start {ls : List Lexeme} {range : Span} (h : Within ls range)
    (hls : InOrder (ls.map Lexeme.token)) : ∃ l ∈ ls, l.token.span.start ≤ range.start := by
  rcases h with ⟨l, hl, rfl⟩ | ⟨front, first, back, last, rfl, hlast, rfl⟩
  · exact ⟨l, hl, hls.ordered (List.mem_map_of_mem hl)⟩
  · exact ⟨first, List.mem_append_right _ List.mem_cons_self, Nat.le_refl _⟩

theorem sortsBefore_of_within_append {ls ms : List Lexeme} {r s : Span}
    (h : InOrder ((ls ++ ms).map Lexeme.token)) (hr : Within ls r) (hs : Within ms s) :
    r.sortsBefore s = true := by
  rw [List.map_append] at h
  have hrorder : r.start ≤ r.stop := hr.ordered h.of_append.1
  have hsorder : s.start ≤ s.stop := hs.ordered h.of_append.2
  obtain ⟨l, hl, hstop⟩ := hr.exists_stop
  obtain ⟨m, hm, hstart⟩ := hs.exists_start h.of_append.2
  have hbetween : l.token.span.stop ≤ m.token.span.start :=
    h.stop_le_start_of_append (List.mem_map_of_mem hl) (List.mem_map_of_mem hm)
  rw [Span.sortsBefore_iff]
  omega

theorem sortsBefore_of_within_cons {l : Lexeme} {ls : List Lexeme} {r : Span}
    (h : InOrder ((l :: ls).map Lexeme.token)) (hr : Within (l :: ls) r) :
    l.token.span.sortsBefore r = true := by
  rw [List.map_cons] at h
  have horder : l.token.span.start ≤ l.token.span.stop := h.1
  -- whatever begins with the token goes at least to its end
  have hstop (m : Lexeme) (hm : m ∈ l :: ls) : l.token.span.stop ≤ m.token.span.stop :=
    h.stop_le_stop (List.mem_map_of_mem hm)
  rw [Span.sortsBefore_iff]
  rcases hr with ⟨m, hm, rfl⟩ | ⟨front, first, back, last, hsplit, hlast, rfl⟩
  · have := hstop m hm
    simp only [Span.empty]
    omega
  · have hlast := hstop last (hsplit ▸ List.mem_append_right _ hlast)
    have hfirst : first ∈ l :: ls := hsplit ▸ List.mem_append_right _ List.mem_cons_self
    simp only
    rcases List.mem_cons.mp hfirst with rfl | hfirst
    · omega
    · have := h.stop_le_start (List.mem_map_of_mem hfirst)
      omega

theorem sortsBefore_stop_of_within {ls : List Lexeme} {l : Lexeme} {r : Span}
    (h : InOrder ((ls ++ [l]).map Lexeme.token)) (hr : Within (ls ++ [l]) r) :
    r.sortsBefore (.empty l.token.span.stop) = true := by
  have horder : r.start ≤ r.stop := hr.ordered h
  obtain ⟨m, hm, hstop⟩ := hr.exists_stop
  rw [List.map_append] at h
  have hlast : m.token.span.stop ≤ l.token.span.stop := by
    rcases List.mem_append.mp hm with hm | hm
    · have hbetween : m.token.span.stop ≤ l.token.span.start :=
        h.stop_le_start_of_append (List.mem_map_of_mem hm) (by simp)
      exact Nat.le_trans hbetween h.of_append.2.1
    · rw [List.mem_singleton.mp hm]
  rw [Span.sortsBefore_iff]
  simp only [Span.empty]
  omega

namespace Draft

/-! ## Mistakes in sequence -/

/-- Whether the mistakes in a row of drafts are met in the order of their ranges, if its tokens are
in order. -/
def InSequence (ds : List Draft) : Prop :=
  InOrder ((lexemesList ds).map Lexeme.token) → SortedByRange ParseError.range (errorsList ds)

theorem inSequence_nil : InSequence [] := fun _ => .nil

theorem inSequence_leaf (l : Lexeme) : InSequence [leaf l] := fun _ => .nil

theorem inSequence_map_leaf (ls : List Lexeme) : InSequence (ls.map leaf) := by
  intro _
  rw [errorsList_map_leaf]
  exact .nil

/-- Rows behind one another: the mistakes in each are within its own lexemes. -/
theorem InSequence.append {ds es : List Draft} (hds : InSequence ds) (hes : InSequence es)
    (hlds : Located ds) (hles : Located es) : InSequence (ds ++ es) := by
  intro horder
  rw [lexemesList_append] at horder
  have hsplit := horder
  rw [List.map_append] at hsplit
  rw [errorsList_append, SortedByRange, List.pairwise_append]
  refine ⟨hds hsplit.of_append.1, hes hsplit.of_append.2, fun e he f hf => ?_⟩
  exact sortsBefore_of_within_append horder (hlds hsplit.of_append.1 e he)
    (hles hsplit.of_append.2 f hf)

theorem InSequence.cons {d : Draft} {ds : List Draft} (hd : InSequence [d]) (hds : InSequence ds)
    (hld : Located [d]) (hlds : Located ds) : InSequence (d :: ds) :=
  hd.append hds hld hlds

/-- A token has no mistakes, so it can stand in front of anything. -/
theorem InSequence.cons_leaf {ds : List Draft} (h : InSequence ds) (l : Lexeme) :
    InSequence (leaf l :: ds) := fun horder => h horder.2.2

/-- A node, if its notes sort as they stand: around the mistakes in its parts. -/
theorem inSequence_node {kind : NodeKind} {before after : Option ParseError} {first : Draft}
    {rest : List Draft} (hparts : InSequence (first :: rest))
    (hnotes : InOrder ((lexemesList (first :: rest)).map Lexeme.token) →
      (∀ e ∈ before.toList, ∀ f ∈ errorsList (first :: rest) ++ after.toList,
        e.range.sortsBefore f.range = true) ∧
      ∀ e ∈ errorsList (first :: rest), ∀ f ∈ after.toList, e.range.sortsBefore f.range = true) :
    InSequence [node kind before first rest after] := by
  intro horder
  have hlexemes : lexemesList [node kind before first rest after] = lexemesList (first :: rest) := by
    simp
  rw [hlexemes] at horder
  obtain ⟨hbefore, hafter⟩ := hnotes horder
  have herrors : errorsList [node kind before first rest after] =
      before.toList ++ (errorsList (first :: rest) ++ after.toList) := by
    simp
  have hsingle (note : Option ParseError) : SortedByRange ParseError.range note.toList := by
    cases note with
    | none => exact .nil
    | some e => exact List.pairwise_singleton _ _
  rw [herrors, SortedByRange, List.pairwise_append, List.pairwise_append]
  exact ⟨hsingle before, ⟨hparts horder, hsingle after, hafter⟩, hbefore⟩

theorem inSequence_plain {kind : NodeKind} {first : Draft} {rest : List Draft}
    (hparts : InSequence (first :: rest)) : InSequence [plain kind first rest] :=
  inSequence_node hparts fun _ => ⟨by simp, by simp⟩

theorem inSequence_wrap {kind : NodeKind} {ds : List Draft} (h : InSequence ds) :
    InSequence (wrap kind ds) := by
  cases ds with
  | nil => exact h
  | cons d ds => exact inSequence_plain h

theorem inSequence_tokens {kind : NodeKind} {before after : Option ParseError} {l : Lexeme}
    {ls : List Lexeme} (hone : before = none ∨ after = none) :
    InSequence [node kind before (leaf l) (ls.map leaf) after] := by
  apply inSequence_node (inSequence_map_leaf (l :: ls))
  intro _
  have hnone : errorsList (leaf l :: ls.map leaf) = [] := errorsList_map_leaf (l :: ls)
  rw [hnone]
  rcases hone with rfl | rfl <;> simp

theorem exists_lexemesList_eq_concat (l : Lexeme) (ds : List Draft) :
    ∃ ls last, lexemesList (leaf l :: ds) = ls ++ [last] ∧
      last.token = lastTokenFrom l.token ds := by
  simpa using exists_lexemesList_eq_append ds [] l

theorem inSequence_container {c : Container} {opener : Lexeme} {ds : List Draft}
    {closer : Option Lexeme} (next : Token) (h : InSequence ds) (hl : Located ds) :
    InSequence [container c opener ds closer next] := by
  apply inSequence_plain
  cases closer with
  | some l =>
    have hparts : InSequence (wrap c.listKind ds ++ [leaf l]) :=
      (inSequence_wrap h).append (inSequence_leaf l) (located_wrap hl) (located_leaf l)
    exact inSequence_plain (hparts.cons_leaf opener)
  | none =>
    have hparts : InSequence (leaf opener :: (wrap c.listKind ds ++ [])) := by
      rw [List.append_nil]
      exact (inSequence_wrap h).cons_leaf opener
    have hlocated : Located (leaf opener :: (wrap c.listKind ds ++ [])) := by
      rw [List.append_nil]
      exact located_cons (located_leaf opener) (located_wrap hl)
    apply inSequence_node hparts
    intro horder
    obtain ⟨ls, last, hls, hlast⟩ := exists_lexemesList_eq_concat opener (wrap c.listKind ds ++ [])
    refine ⟨by simp, fun e he f hf => ?_⟩
    obtain rfl : f = .ofToken c.expectedCloser next (.empty last.token.span.stop) := by
      rw [hlast]
      simpa [missing] using hf
    have hwithin := hlocated horder e he
    rw [hls] at horder hwithin
    exact sortsBefore_stop_of_within horder hwithin

/-- A member whose first note, if it has one, is about its key: where a value is missing, the last
note marks the end of the colon. -/
theorem inSequence_member {e : List Container} {kind : NodeKind} {before : Option ParseError}
    {first : Draft} {key colon : Lexeme} {note : Option ParseError} {value : List Draft}
    (hlexemes : first.lexemes = [key]) (hfirst : first.errors = [])
    (hbefore : ∀ err ∈ before.toList, err.range = key.token.span)
    (hv : Shaped e (.behindColon colon note) value) (hvalue : InSequence value) :
    InSequence [node kind before first (leaf colon :: value) note] := by
  have hls : lexemesList (first :: leaf colon :: value) = key :: colon :: lexemesList value := by
    simp [hlexemes]
  have herrors : errorsList (first :: leaf colon :: value) = errorsList value := by simp [hfirst]
  have hparts : InSequence (first :: leaf colon :: value) := by
    intro horder
    rw [hls] at horder
    rw [herrors]
    exact hvalue horder.2.2.2.2
  apply inSequence_node hparts
  intro horder
  rw [hls] at horder
  rw [herrors]
  refine ⟨fun e' he f hf => ?_, fun e' he f hf => ?_⟩
  · rw [hbefore e' he]
    refine sortsBefore_of_within_cons horder ?_
    rcases List.mem_append.mp hf with hf | hf
    · exact (located_of_shaped hv horder.2.2.2.2 f hf).append_left [key, colon]
    · exact within_note hv key _ f hf
  · -- with a note there is no value, and the other parts have no mistakes
    rcases shaped_behindColon hv with ⟨next, rfl, -⟩ | ⟨d, -, rfl, -⟩
    · simp at he
    · simp at hf

theorem range_of_mem_keyNote {key : Lexeme} :
    ∀ err ∈ (keyNote key).toList, err.range = key.token.span := by
  intro err herr
  unfold keyNote at herr
  split at herr
  · obtain rfl : err = .ofToken .key key.token key.token.span := by simpa [unexpected] using herr
    rfl
  · simp at herr

theorem inSequence_incomplete (key : Lexeme) (next : Token) : InSequence [incomplete key next] := by
  apply inSequence_node (inSequence_plain (inSequence_leaf key))
  intro _
  refine ⟨fun e he f hf => ?_, by simp⟩
  -- a key is reported once
  unfold keyNote at he
  unfold colonNote at hf
  split at he
  · rename_i hkind
    simp [hkind] at hf
  · simp at he

theorem inSequence_junk {first : Draft} {rest : List Draft} (h : InSequence (first :: rest))
    (hl : Located (first :: rest)) : InSequence [junk first rest] := by
  apply inSequence_node h
  intro horder
  refine ⟨fun e he f hf => ?_, by simp⟩
  obtain rfl : e = .ofToken .key first.firstToken first.firstToken.span := by
    simpa [unexpected] using he
  have hf : f ∈ errorsList (first :: rest) := by simpa using hf
  have hwithin := hl horder f hf
  obtain ⟨ls, hls⟩ := exists_lexemes_eq_cons first
  rw [lexemesList_cons, hls, List.cons_append] at horder hwithin
  exact sortsBefore_of_within_cons horder hwithin

/-- Whatever is read from tokens in order, its mistakes are met in order. -/
theorem inSequence_of_shaped {e : List Container} {place : Place} {ds : List Draft}
    (h : Shaped e place ds) : InSequence ds := by
  induction h with
  | scalar => exact inSequence_plain (inSequence_leaf _)
  | @invalid e l hl =>
    unfold single
    split
    · exact inSequence_plain (inSequence_leaf l)
    · have hnode : InSequence [node .invalidValue (unexpected .value l.token l.token.span)
          (leaf l) ([].map leaf) none] := inSequence_tokens (.inr rfl)
      exact inSequence_plain hnode
  | @signed e plus number h =>
    have hnode : InSequence [node .invalidValue
        (unexpected .value plus.token (plus.token.span.cover number.token.span)) (leaf plus)
        ([number].map leaf) none] := inSequence_tokens (.inr rfl)
    exact inSequence_plain hnode
  | tooDeep ho he => exact inSequence_plain (inSequence_tokens (.inl rfl))
  | container next ho he hc hds ih => exact inSequence_container next ih (located_of_shaped hds)
  | nil => exact inSequence_nil
  | comma hl hds ih => exact ih.cons_leaf _
  | @stray e c l ds hl hds ih =>
    have hcomma : InSequence [node .error (unexpected c.expectedElement l.token l.token.span)
        (leaf l) ([].map leaf) none] := inSequence_tokens (.inr rfl)
    exact hcomma.cons ih (located_of_shaped (.stray (e := e) hl .nil)) (located_of_shaped hds)
  | item hd hds ihd ih => exact ihd.cons ih (located_of_shaped hd) (located_of_shaped hds)
  | @keyValue e b key colon note value ds hk hc hv hds ihv ih =>
    have hmember : InSequence [node .keyValue (keyNote key) (plain .key (leaf key) [])
        (leaf colon :: value) note] :=
      inSequence_member rfl rfl range_of_mem_keyNote hv ihv
    exact hmember.cons ih (located_of_shaped (.keyValue (b := b) hk hc hv .nil))
      (located_of_shaped hds)
  | @incomplete e b key next ds hk hne hds ih =>
    exact (inSequence_incomplete key next).cons ih (located_incomplete key next)
      (located_of_shaped hds)
  | @incompleteSkipped e b key next first rest ds hk hs hds ihs ih =>
    have hskipped : InSequence (plain .error first rest :: ds) :=
      (inSequence_plain ihs).cons ih (located_plain (located_of_shaped hs)) (located_of_shaped hds)
    exact (inSequence_incomplete key next).cons hskipped (located_incomplete key next)
      (located_cons (located_plain (located_of_shaped hs)) (located_of_shaped hds))
  | @literalKey e b key colon note value ds hk hc hv hds ihv ih =>
    have hmember : InSequence [node .error (unexpected .key key.token key.token.span) (leaf key)
        (leaf colon :: value) note] := by
      refine inSequence_member rfl rfl (fun err herr => ?_) hv ihv
      obtain rfl : err = .ofToken .key key.token key.token.span := by simpa [unexpected] using herr
      rfl
    exact hmember.cons ih (located_of_shaped (.literalKey (b := b) hk hc hv .nil))
      (located_of_shaped hds)
  | @junk e b first rest ds hs hq hds ihs ih =>
    exact (inSequence_junk ihs (located_of_shaped hs)).cons ih
      (located_of_shaped (.junk (b := b) hs hq .nil)) (located_of_shaped hds)
  | missing => exact inSequence_nil
  | present hd ih => exact ih
  | skippedNil => exact inSequence_nil
  | skippedToken hl ho hds ih => exact ih.cons_leaf _
  | skippedValue hd hds ihd ih => exact ihd.cons ih (located_of_shaped hd) (located_of_shaped hds)

theorem inSequence_trailing (ls : List Lexeme) : InSequence (trailing ls) := by
  cases ls with
  | nil => exact inSequence_nil
  | cons l ls => exact inSequence_tokens (.inl rfl)

theorem inSequence_documentDrafts (eof : Token) (ls : List Lexeme) :
    InSequence (documentDrafts eof ls) := by
  rcases documentDrafts_cases eof ls with ⟨d, rest, hdrafts, hd⟩ | hdrafts
  · rw [hdrafts]
    exact (inSequence_of_shaped hd).cons (inSequence_trailing rest) (located_of_shaped hd)
      (located_trailing rest)
  · rw [hdrafts]
    exact inSequence_trailing ls

end Draft

/-! ## Errors -/

def IsBoundary (source : Text) (offset : Nat) : Prop :=
  ∃ t ∈ tokenize source, offset = t.span.start ∨ offset = t.span.stop

namespace Parse

open Draft

theorem inOrder_lexemes (source : Text) : InOrder ((lexemes source).map Lexeme.token) := by
  rw [lexemes, map_token_lexemes]
  exact (inOrder_of_tiled (tiled_tokenize source)).1

theorem sortedByRange_errors (source : Text) :
    SortedByRange ParseError.range (parse source).errors := by
  have h := inSequence_documentDrafts (Lexemes.ofTokens (tokenize source) source.size).eof
    (lexemes source)
  rw [InSequence, lexemes_documentDrafts] at h
  exact h (inOrder_lexemes source)

theorem within_lexemes {source : Text} {err : ParseError} (h : err ∈ (parse source).errors) :
    Within (lexemes source) err.range :=
  within_of_mem_errors (inOrder_lexemes source) h

theorem isBoundary_of_within {source : Text} {range : Span} (h : Within (lexemes source) range) :
    IsBoundary source range.start ∧ IsBoundary source range.stop := by
  have htoken {l : Lexeme} (hl : l ∈ lexemes source) : l.token ∈ tokenize source :=
    mem_tokenize_of_mem_lexemes hl
  rcases h with ⟨l, hl, rfl⟩ | ⟨front, first, back, last, hsplit, hlast, rfl⟩
  · exact ⟨⟨_, htoken hl, .inr rfl⟩, ⟨_, htoken hl, .inr rfl⟩⟩
  · have hfirst : first ∈ lexemes source := hsplit ▸ List.mem_append_right _ List.mem_cons_self
    have hlast : last ∈ lexemes source := hsplit ▸ List.mem_append_right _ hlast
    exact ⟨⟨_, htoken hfirst, .inl rfl⟩, ⟨_, htoken hlast, .inr rfl⟩⟩

theorem exists_stop_of_isEmpty {source : Text} {range : Span}
    (h : Within (lexemes source) range) (hempty : range.isEmpty = true) :
    ∃ t ∈ significant source, range = .empty t.span.stop := by
  rcases h with ⟨l, hl, rfl⟩ | ⟨front, first, back, last, hsplit, hlast, rfl⟩
  · rw [significant_eq]
    exact ⟨l.token, List.mem_map_of_mem hl, rfl⟩
  · have hmem : first ∈ lexemes source := hsplit ▸ List.mem_append_right _ List.mem_cons_self
    have hstop : first.token.span.stop ≤ last.token.span.stop := by
      have horder := inOrder_lexemes source
      rw [hsplit, List.map_append, List.map_cons] at horder
      exact horder.of_append.2.stop_le_stop (List.mem_map_of_mem hlast)
    have hne : first.token.span.start < first.token.span.stop := by
      have htoken := mem_tokenize_of_mem_lexemes hmem
      obtain ⟨a, b, -, hspan⟩ := exists_append_of_mem_tokenize htoken
      rw [hspan]
      exact Nat.lt_add_of_pos_right (size_pos_of_mem_tiled (tiled_tokenize source) _ htoken)
    have heq : first.token.span.start = last.token.span.stop := by
      simpa [Span.isEmpty] using hempty
    omega

end Parse

/-- Errors come in the order of their ranges, each from where a token starts or ends to where one
does, and what is missing is missing behind a significant token. -/
theorem errors_in_source_order (source : Text) :
    SortedByRange ParseError.range (parse source).errors ∧
      SortedByRange Diagnostic.range (parse source).diagnostics ∧
      ∀ e ∈ (parse source).errors,
        IsBoundary source e.range.start ∧ IsBoundary source e.range.stop ∧
          (e.range.isEmpty = true → ∃ t ∈ significant source, e.range = .empty t.span.stop) := by
  have hsorted := Parse.sortedByRange_errors source
  refine ⟨hsorted, List.pairwise_map.mpr hsorted, fun e he => ?_⟩
  have hwithin := Parse.within_lexemes he
  obtain ⟨hstart, hstop⟩ := Parse.isBoundary_of_within hwithin
  exact ⟨hstart, hstop, Parse.exists_stop_of_isEmpty hwithin⟩

/-- In `{a [+1` the key has no colon; the sign, the bracket and the brace are reported behind it, the
last two where the number ends. -/
theorem errors_in_source_order_open_array :
    ∃ e ∈ (parse ['{', 'a', ' ', '[', '+', '1']).errors, e.range.isEmpty = true ∧
      IsBoundary ['{', 'a', ' ', '[', '+', '1'] e.range.start ∧
      (∃ t ∈ significant ['{', 'a', ' ', '[', '+', '1'], e.range = .empty t.span.stop) ∧
      (parse ['{', 'a', ' ', '[', '+', '1']).errors.map ParseError.range =
        [⟨1, 2⟩, ⟨4, 6⟩, ⟨6, 6⟩, ⟨6, 6⟩] := by
  obtain ⟨e, he, hempty⟩ :
      ∃ e ∈ (parse ['{', 'a', ' ', '[', '+', '1']).errors, e.range.isEmpty = true := by
    decide +kernel
  obtain ⟨-, -, hbounds⟩ := errors_in_source_order ['{', 'a', ' ', '[', '+', '1']
  obtain ⟨hstart, -, hgap⟩ := hbounds e he
  exact ⟨e, he, hempty, hstart, hgap hempty, by decide +kernel⟩

end Maml
