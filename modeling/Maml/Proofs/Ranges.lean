import Maml.Proofs.Placement
import Maml.Proofs.Shape

/-! Where mistakes are.

1. Tokens are `InOrder` if none is reversed and none starts before the one in front of it
   ends. The tokens of a text are.
2. A range is `Within` lexemes if it is the end of a token, or goes from the start of one
   to the end of the same or a later one. Such a range is in order if the tokens are
   (`Within.ordered`).
3. Whatever is read from tokens in order, every mistake noted in it has such a range
   (`located_of_shaped`, `within_of_mem_errors`). -/
namespace Maml

/-! ## Tokens in order -/

/-- Whether tokens follow one another: none is reversed, and none starts before the one in front of
it ends. -/
def InOrder : List Token → Prop
  | [] => True
  | t :: ts => t.span.Ordered ∧ (∀ u ∈ ts.head?, t.span.stop ≤ u.span.start) ∧ InOrder ts

instance decidableInOrder : (ts : List Token) → Decidable (InOrder ts)
  | [] => inferInstanceAs (Decidable True)
  | _ :: ts =>
    have := decidableInOrder ts
    inferInstanceAs (Decidable (_ ∧ _ ∧ _))

theorem InOrder.of_append {ts us : List Token} (h : InOrder (ts ++ us)) : InOrder ts ∧ InOrder us := by
  induction ts with
  | nil => exact ⟨trivial, h⟩
  | cons t ts ih =>
    obtain ⟨ht, hnext, hrest⟩ := h
    refine ⟨⟨ht, fun u hu => hnext u ?_, (ih hrest).1⟩, (ih hrest).2⟩
    cases ts with
    | nil => simp at hu
    | cons => exact hu

theorem InOrder.start_le_stop {t u : Token} {ts : List Token} (h : InOrder (t :: ts))
    (hu : u ∈ t :: ts) : t.span.start ≤ u.span.stop := by
  induction ts generalizing t with
  | nil =>
    obtain rfl : u = t := by simpa using hu
    exact h.1
  | cons t' ts ih =>
    rcases List.mem_cons.mp hu with rfl | hu
    · exact h.1
    · have hnext : t.span.stop ≤ t'.span.start := h.2.1 t' rfl
      have hrest := ih h.2.2 hu
      have ht : t.span.start ≤ t.span.stop := h.1
      omega

theorem inOrder_of_tiled {o : Nat} {ts : List Token} (h : Tiled o ts) :
    InOrder (ts.filter (!·.isTrivia)) ∧ ∀ t ∈ ts.filter (!·.isTrivia), o ≤ t.span.start := by
  induction ts generalizing o with
  | nil => exact ⟨trivial, by simp⟩
  | cons t ts ih =>
    obtain ⟨hspan, hpos, hrest⟩ := h
    obtain ⟨horder, hstart⟩ := ih hrest
    have hstart' : ∀ u ∈ ts.filter (!·.isTrivia), o ≤ u.span.start :=
      fun u hu => Nat.le_trans (Nat.le_add_right _ _) (hstart u hu)
    rw [List.filter_cons]
    split
    · -- a significant token: all that is left of those behind it starts where it ends or later
      refine ⟨⟨?_, fun u hu => ?_, horder⟩, fun u hu => ?_⟩
      · rw [hspan]
        exact Nat.le_add_right _ _
      · rw [hspan]
        exact hstart u (List.mem_of_mem_head? hu)
      · rcases List.mem_cons.mp hu with rfl | hu
        · exact Nat.le_of_eq (by rw [hspan])
        · exact hstart' u hu
    · exact ⟨horder, hstart'⟩

theorem ordered_of_mem_tokenize {source : Text} {t : Token} (h : t ∈ tokenize source) :
    t.span.Ordered ∧ t.span.stop ≤ source.size := by
  obtain ⟨ts, us, hsplit⟩ := List.mem_iff_append.mp h
  have htiled := tiled_tokenize source
  have hsize := sizeList_tokenize source
  rw [hsplit] at htiled hsize
  obtain ⟨hspan, -, -⟩ := (tiled_append.mp htiled).2
  simp only [Token.sizeList_append, Token.sizeList_cons] at hsize
  rw [hspan, Span.Ordered]
  constructor <;> simp only <;> omega

/-! ## Ranges within lexemes -/

/-- Whether a range is the end of a token, or goes from the start of one to the end of the same or a
later one. -/
def Within (ls : List Lexeme) (range : Span) : Prop :=
  (∃ l ∈ ls, range = .empty l.token.span.stop) ∨
    ∃ front first back last, ls = front ++ first :: back ∧ last ∈ first :: back ∧
      range = ⟨first.token.span.start, last.token.span.stop⟩

theorem Within.append_left {ls : List Lexeme} {range : Span} (h : Within ls range)
    (front : List Lexeme) : Within (front ++ ls) range := by
  rcases h with ⟨l, hl, rfl⟩ | ⟨front', first, back, last, rfl, hlast, rfl⟩
  · exact .inl ⟨l, List.mem_append_right _ hl, rfl⟩
  · exact .inr ⟨front ++ front', first, back, last, by simp, hlast, rfl⟩

theorem Within.append_right {ls : List Lexeme} {range : Span} (h : Within ls range)
    (back : List Lexeme) : Within (ls ++ back) range := by
  rcases h with ⟨l, hl, rfl⟩ | ⟨front, first, back', last, rfl, hlast, rfl⟩
  · exact .inl ⟨l, List.mem_append_left _ hl, rfl⟩
  · refine .inr ⟨front, first, back' ++ back, last, by simp, ?_, rfl⟩
    rw [← List.cons_append]
    exact List.mem_append_left _ hlast

theorem within_token (l : Lexeme) (ls : List Lexeme) : Within (l :: ls) l.token.span :=
  .inr ⟨[], l, ls, l, rfl, List.mem_cons_self, rfl⟩

theorem within_stop {l : Lexeme} {ls : List Lexeme} (h : l ∈ ls) :
    Within ls (.empty l.token.span.stop) :=
  .inl ⟨l, h, rfl⟩

theorem within_stretch {l last : Lexeme} {ls : List Lexeme} (h : last ∈ l :: ls) :
    Within (l :: ls) ⟨l.token.span.start, last.token.span.stop⟩ :=
  .inr ⟨[], l, ls, last, rfl, h, rfl⟩

theorem Within.ordered {ls : List Lexeme} {range : Span} (h : Within ls range)
    (hls : InOrder (ls.map Lexeme.token)) : range.Ordered := by
  rcases h with ⟨l, hl, rfl⟩ | ⟨front, first, back, last, rfl, hlast, rfl⟩
  · exact Span.ordered_empty _
  · rw [List.map_append, List.map_cons] at hls
    exact hls.of_append.2.start_le_stop (List.mem_map_of_mem hlast)

theorem Within.exists_stop {ls : List Lexeme} {range : Span} (h : Within ls range) :
    ∃ l ∈ ls, range.stop = l.token.span.stop := by
  rcases h with ⟨l, hl, rfl⟩ | ⟨front, first, back, last, rfl, hlast, rfl⟩
  · exact ⟨l, hl, rfl⟩
  · exact ⟨last, List.mem_append_right _ hlast, rfl⟩

namespace Draft

/-! ## Ranges of mistakes -/

/-- Whether the mistakes in a row of drafts are where its tokens are, if these are in order. -/
def Located (ds : List Draft) : Prop :=
  InOrder ((lexemesList ds).map Lexeme.token) →
    ∀ err ∈ errorsList ds, Within (lexemesList ds) err.range

theorem located_nil : Located [] := by
  intro _ err herr
  simp at herr

theorem located_leaf (l : Lexeme) : Located [leaf l] := by
  intro _ err herr
  simp at herr

theorem located_append {ds es : List Draft} (hds : Located ds) (hes : Located es) :
    Located (ds ++ es) := by
  intro horder err herr
  rw [lexemesList_append, List.map_append] at horder
  rw [errorsList_append, List.mem_append] at herr
  rw [lexemesList_append]
  rcases herr with herr | herr
  · exact (hds horder.of_append.1 err herr).append_right _
  · exact (hes horder.of_append.2 err herr).append_left _

theorem located_cons {d : Draft} {ds : List Draft} (hd : Located [d]) (hds : Located ds) :
    Located (d :: ds) := located_append hd hds

theorem located_node {kind : NodeKind} {before after : Option ParseError} {first : Draft}
    {rest : List Draft} (hparts : Located (first :: rest))
    (hown : InOrder ((lexemesList (first :: rest)).map Lexeme.token) →
      ∀ err ∈ before.toList ++ after.toList, Within (lexemesList (first :: rest)) err.range) :
    Located [node kind before first rest after] := by
  intro horder err herr
  have hlexemes : lexemesList [node kind before first rest after] = lexemesList (first :: rest) := by
    simp
  rw [hlexemes] at horder ⊢
  simp only [errorsList_cons, errorsList_nil, List.append_nil, errors_node, List.mem_append] at herr
  rcases herr with ((herr | herr) | herr) | herr
  · exact hown horder err (List.mem_append_left _ herr)
  · exact hparts horder err (List.mem_append_left _ herr)
  · exact hparts horder err (List.mem_append_right _ herr)
  · exact hown horder err (List.mem_append_right _ herr)

theorem located_plain {kind : NodeKind} {first : Draft} {rest : List Draft}
    (hparts : Located (first :: rest)) : Located [plain kind first rest] :=
  located_node hparts fun _ err herr => by simp at herr

theorem within_firstToken (d : Draft) (ds : List Draft) :
    Within (lexemesList (d :: ds)) d.firstToken.span := by
  obtain ⟨ls, hls⟩ := exists_lexemes_eq_cons d
  rw [lexemesList_cons, hls]
  exact within_token _ _

theorem exists_lastTokenFrom (l : Lexeme) (ds : List Draft) :
    ∃ last ∈ l :: lexemesList ds, last.token = lastTokenFrom l.token ds := by
  obtain ⟨ms, m, hms, hm⟩ := exists_lexemesList_eq_append ds [] l
  refine ⟨m, ?_, hm⟩
  have hmem : m ∈ [] ++ [l] ++ lexemesList ds := by
    rw [hms]
    exact List.mem_append_right _ List.mem_cons_self
  simpa using hmem

theorem located_map_leaf (ls : List Lexeme) : Located (ls.map leaf) := by
  intro _ err herr
  simp at herr

theorem located_wrap {kind : NodeKind} {ds : List Draft} (h : Located ds) :
    Located (wrap kind ds) := by
  cases ds with
  | nil => exact h
  | cons d ds => exact located_plain h

theorem located_stretch {kind : NodeKind} {before after : Option ParseError} {l : Lexeme}
    {ls : List Lexeme} (hown : ∀ err ∈ before.toList ++ after.toList,
      err.range = ⟨l.token.span.start, (lastTokenFrom l.token (ls.map leaf)).span.stop⟩) :
    Located [node kind before (leaf l) (ls.map leaf) after] := by
  apply located_node (located_map_leaf (l :: ls))
  intro _ err herr
  obtain ⟨last, hmem, hlast⟩ := exists_lastTokenFrom l (ls.map leaf)
  rw [hown err herr, ← hlast]
  exact within_stretch hmem

theorem located_signed {plus number : Lexeme}
    (h : isSignedNumber plus.token number.token = true) : Located [signed plus number] := by
  refine located_plain (located_node (located_map_leaf [plus, number]) ?_)
  intro horder err herr
  have hcover := cover_of_isSignedNumber h horder.1 horder.2.2.1
  obtain rfl : err = .ofToken .value plus.token (plus.token.span.cover number.token.span) := by
    simpa [unexpected] using herr
  rw [ParseError.ofToken, hcover]
  exact within_stretch (List.mem_cons_of_mem _ List.mem_cons_self)

theorem located_container {c : Container} {opener : Lexeme} {ds : List Draft}
    {closer : Option Lexeme} (next : Token) (h : Located ds) :
    Located [container c opener ds closer next] := by
  have hparts : Located (leaf opener :: (wrap c.listKind ds ++ (closer.map leaf).toList)) := by
    refine located_cons (located_leaf opener) (located_append (located_wrap h) ?_)
    cases closer with
    | none => exact located_nil
    | some l => exact located_leaf l
  refine located_plain (located_node hparts ?_)
  intro _ err herr
  cases closer with
  | some l => simp at herr
  | none =>
    obtain ⟨last, hmem, hlast⟩ := exists_lastTokenFrom opener
      (wrap c.listKind ds ++ (Option.map leaf none).toList)
    obtain rfl : err = .ofToken c.expectedCloser next (.empty last.token.span.stop) := by
      rw [hlast]
      simpa [missing] using herr
    exact within_stop hmem

theorem within_keyNote {key : Lexeme} {ls : List Lexeme} :
    ∀ err ∈ (keyNote key).toList, Within (key :: ls) err.range := by
  intro err herr
  unfold keyNote at herr
  split at herr
  · obtain rfl : err = .ofToken .key key.token key.token.span := by simpa [unexpected] using herr
    exact within_token key ls
  · simp at herr

theorem within_note {e : List Container} {colon : Lexeme} {note : Option ParseError}
    {value : List Draft} (h : Shaped e (.behindColon colon note) value) (key : Lexeme)
    (ls : List Lexeme) : ∀ err ∈ note.toList, Within (key :: colon :: ls) err.range := by
  intro err herr
  rcases shaped_behindColon h with ⟨next, _, rfl⟩ | ⟨d, _, rfl, _⟩
  · obtain rfl : err = .ofToken .value next (.empty colon.token.span.stop) := by
      simpa [missing] using herr
    exact within_stop (List.mem_cons_of_mem _ List.mem_cons_self)
  · simp at herr

theorem located_incomplete (key : Lexeme) (next : Token) : Located [incomplete key next] := by
  apply located_node (located_plain (located_leaf key))
  intro _ err herr
  rcases List.mem_append.mp herr with herr | herr
  · exact within_keyNote err herr
  · unfold colonNote at herr
    split at herr
    · simp at herr
    · obtain rfl : err = .ofToken .colon next key.token.span := by simpa [unexpected] using herr
      exact within_token key []

/-- Whatever is read from tokens in order, its mistakes are where tokens are. -/
theorem located_of_shaped {e : List Container} {place : Place} {ds : List Draft}
    (h : Shaped e place ds) : Located ds := by
  induction h with
  | scalar => exact located_plain (located_leaf _)
  | @invalid e l hl =>
    unfold single
    split
    · exact located_plain (located_leaf l)
    · refine located_plain (located_node (located_leaf l) ?_)
      intro _ err herr
      obtain rfl : err = .ofToken .value l.token l.token.span := by simpa [unexpected] using herr
      exact within_token l []
  | signed h => exact located_signed h
  | @tooDeep e opener ls ho he =>
    refine located_plain (located_stretch ?_)
    intro err herr
    obtain rfl : err = .ofToken .nestingLimit opener.token _ := by
      simpa [unexpected] using herr
    rfl
  | container next ho he hc hds ih => exact located_container next ih
  | nil => exact located_nil
  | comma hl hds ih => exact located_cons (located_leaf _) ih
  | @stray e c l ds hl hds ih =>
    refine located_cons (located_node (located_leaf l) ?_) ih
    intro _ err herr
    obtain rfl : err = .ofToken c.expectedElement l.token l.token.span := by
      simpa [unexpected, firstToken, firstLexeme] using herr
    exact within_token l []
  | item hd hds ihd ih => exact located_cons ihd ih
  | @keyValue e b key colon note value ds hk hc hv hds ihv ih =>
    have hparts : Located (plain .key (leaf key) [] :: leaf colon :: value) :=
      located_cons (located_plain (located_leaf key)) (located_cons (located_leaf colon) ihv)
    refine located_cons (located_node hparts ?_) ih
    intro _ err herr
    rcases List.mem_append.mp herr with herr | herr
    · exact within_keyNote err herr
    · exact within_note hv key _ err herr
  | @incomplete e b key next ds hk hne hds ih => exact located_cons (located_incomplete key next) ih
  | @incompleteSkipped e b key next first rest ds hk hs hds ihs ih =>
    exact located_cons (located_incomplete key next) (located_cons (located_plain ihs) ih)
  | @literalKey e b key colon note value ds hk hc hv hds ihv ih =>
    -- like a member, but the first note is about the word itself
    have hparts : Located (leaf key :: leaf colon :: value) :=
      located_cons (located_leaf key) (located_cons (located_leaf colon) ihv)
    refine located_cons (located_node hparts ?_) ih
    intro _ err herr
    rcases List.mem_append.mp herr with herr | herr
    · obtain rfl : err = .ofToken .key key.token key.token.span := by
        simpa [unexpected] using herr
      exact within_token key _
    · exact within_note hv key _ err herr
  | @junk e b first rest ds hs hq hds ihs ih =>
    refine located_cons (located_node ihs ?_) ih
    intro _ err herr
    obtain rfl : err = .ofToken .key first.firstToken first.firstToken.span := by
      simpa [unexpected] using herr
    exact within_firstToken first rest
  | missing => exact located_nil
  | present hd ih => exact ih
  | skippedNil => exact located_nil
  | skippedToken hl ho hds ih => exact located_cons (located_leaf _) ih
  | skippedValue hd hds ihd ih => exact located_cons ihd ih

theorem located_trailing (ls : List Lexeme) : Located (trailing ls) := by
  cases ls with
  | nil => exact located_nil
  | cons l ls =>
    apply located_stretch
    intro err herr
    obtain rfl : err = .ofToken .eof l.token _ := by simpa [unexpected] using herr
    rfl

theorem located_documentDrafts (eof : Token) (ls : List Lexeme) :
    Located (documentDrafts eof ls) := by
  rcases documentDrafts_cases eof ls with ⟨d, rest, hdrafts, hd⟩ | hdrafts
  · rw [hdrafts]
    exact located_cons (located_of_shaped hd) (located_trailing rest)
  · rw [hdrafts]
    exact located_trailing ls

end Draft

/-- The mistakes in tokens in order are where the tokens are. -/
theorem within_of_mem_errors {input : Lexemes} (h : InOrder (input.lexemes.map Lexeme.token))
    {err : ParseError} (herr : err ∈ (Parse.ofLexemes input).errors) :
    Within input.lexemes err.range := by
  have hlexemes := lexemes_documentDrafts input.eof input.lexemes
  have hlocated := Draft.located_documentDrafts input.eof input.lexemes
  rw [Draft.Located, hlexemes] at hlocated
  exact hlocated h err herr

end Maml
