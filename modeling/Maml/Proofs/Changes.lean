import Mathlib.Data.List.Nodup
import Maml.Proofs.Notes
import Maml.Proofs.Recast
import Maml.Repair

/-! Documents after a change.

1. The lexemes of a row that is recast are what becomes of its lexemes, if no comma is put anywhere
   (`Recast.lexemesList_eq`). Its mistakes are told again, but for one at each token of which a
   string is made (`Recast.errorsList`).
2. Every lexeme is a part of one node only, and the beginning of a part that is not the first of
   one node at most (`Parse.eq_of_mem_ownLexemes`, `Parse.index_eq_of_mem_laterHeads`).
3. If the lexemes of one text are what becomes of those of another, so is the document
   (`Parse.recast_drafts`). -/
namespace Maml

open Draft

namespace Draft
variable {r : Recasting} {k : NodeKind} {ds ds' : List Draft}

/-! ## Lexemes and mistakes -/

theorem Recasting.separator_of_cut (hcut : ∀ d, r.cut d = none) (d : Draft) (ds : List Draft) :
    r.separator k d ds = [] := by
  cases ds with
  | nil => rfl
  | cons e ds =>
    rw [separator, hcut]
    exact ite_self []

theorem Recast.lexemesList_eq (hcut : ∀ d, r.cut d = none) (h : Recast r k ds ds') :
    lexemesList ds' = (lexemesList ds).map r.map := by
  induction h with
  | nil => rfl
  | leaf => rfl
  | node _ _ _ ih => simpa [lexemes] using ih
  | quotedValue => rfl
  | quotedKey _ _ _ _ ih =>
    rw [lexemesList_singleton, lexemesList_singleton, lexemes_member, lexemes_member]
    simpa using ih
  | @cons k d d' ds ds' _ _ ihd ihds =>
    rw [lexemesList_singleton, lexemesList_singleton] at ihd
    rw [Recasting.separator_of_cut hcut, lexemesList_cons, lexemesList_cons, ihd, List.map_nil, List.nil_append, ihds,
      List.map_append]

/-- The error of a token of which a string can be made. -/
def quotingError (expected : Expected) (l : Lexeme) : ParseError :=
  .ofToken expected l.token l.token.span

theorem errors_member_of_isQuotable {key colon : Lexeme} {value : List Draft}
    {note : Option ParseError} (h : isQuotable key.kind = true) :
    (member key colon value note).errors =
      quotingError .key key :: (errorsList (leaf colon :: value) ++ note.toList) := by
  rw [member_of_isQuotable h]
  simp [literalKey, unexpected, quotingError]

theorem errors_member_of_string {key colon : Lexeme} {value : List Draft}
    {note : Option ParseError} (h : key.kind = .string) :
    (member key colon value note).errors = errorsList (leaf colon :: value) ++ note.toList := by
  rw [member_of_isKey (by rw [h]; rfl)]
  simp [keyValue, keyNote, h]

section
variable {keep : ParseError → Bool} (halike : ∀ e e', r.alike e e' → keep e = true)
include halike

theorem forall₂_filter_of_rel {note note' : Option ParseError} (h : Option.Rel r.alike note note') :
    List.Forall₂ r.alike (note.toList.filter keep) note'.toList := by
  cases h with
  | none => exact .nil
  | @some e e' h => simpa [halike e e' h] using h

theorem countP_of_rel {note note' : Option ParseError} (h : Option.Rel r.alike note note') :
    note.toList.countP (!keep ·) = 0 := by
  cases h with
  | none => rfl
  | @some e e' h => simp [halike e e' h]

/-- After a change the mistakes of a row are told again, but for one at each token of which a
string is made. -/
theorem Recast.errorsList (h : Recast r k ds ds')
    (hquoted : ∀ l ∈ lexemesList ds, r.quotes l = true →
      keep (quotingError .value l) = false ∧ keep (quotingError .key l) = false) :
    List.Forall₂ r.alike ((Draft.errorsList ds).filter keep) (Draft.errorsList ds') ∧
      (Draft.errorsList ds).countP (!keep ·) = (lexemesList ds).countP r.quotes := by
  have hnote {note note'} := @forall₂_filter_of_rel r keep halike note note'
  have hcount {note note'} := @countP_of_rel r keep halike note note'
  induction h with
  | nil => exact ⟨.nil, rfl⟩
  | leaf hl => exact ⟨.nil, by simp [hl]⟩
  | @node _ kind before _ first _ rest _ after _ hb ha _ ih =>
    have hlexemes : lexemesList [Draft.node kind before first rest after] =
        lexemesList (first :: rest) := by
      rw [lexemesList_singleton, lexemes_node, lexemesList_cons]
    rw [hlexemes] at hquoted ⊢
    obtain ⟨herrors, hquotes⟩ := ih hquoted
    simp only [errorsList_cons, errorsList_nil, List.append_nil, errors_node, List.append_assoc]
      at herrors hquotes ⊢
    refine ⟨?_, ?_⟩
    · rw [← List.append_assoc (errors _), ← List.append_assoc (errors _), List.filter_append,
        List.filter_append]
      exact List.rel_append (hnote hb) (List.rel_append herrors (hnote ha))
    · rw [List.countP_append, ← List.append_assoc (errors _), List.countP_append, hquotes,
        hcount hb, hcount ha, Nat.zero_add, Nat.add_zero]
  | @quotedValue _ l hl =>
    have herrors : Draft.errorsList [invalid l] = [quotingError .value l] := rfl
    have hlexemes : lexemesList [invalid l] = [l] := rfl
    have hkeep := (hquoted l (by rw [hlexemes]; exact List.mem_cons_self) hl).1
    rw [herrors, hlexemes, List.filter_singleton, hkeep]
    exact ⟨.nil, by simp [hkeep, hl]⟩
  | @quotedKey _ key colon value _ note _ hkey hq hn _ ih =>
    have hlexemes : lexemesList [member key colon value note] =
        key :: lexemesList (Draft.leaf colon :: value) := by
      rw [lexemesList_singleton, lexemes_member]
      rfl
    rw [hlexemes] at hquoted ⊢
    obtain ⟨herrors, hquotes⟩ := ih fun l hl => hquoted l (List.mem_cons_of_mem _ hl)
    have hkeep := (hquoted key List.mem_cons_self hkey).2
    simp only [errorsList_cons _ [], errorsList_nil, List.append_nil,
      errors_member_of_isQuotable hq, errors_member_of_string (r.kind_quotes hkey).2]
    refine ⟨?_, ?_⟩
    · rw [List.filter_cons_of_neg (by rw [hkeep]; exact Bool.false_ne_true), List.filter_append]
      exact List.rel_append herrors (hnote hn)
    · rw [List.countP_cons_of_pos hkey, List.countP_cons_of_pos (by simp [hkeep]),
        List.countP_append, hcount hn, hquotes, Nat.add_zero]
  | @cons _ d _ ds _ _ _ ihd ihds =>
    rw [lexemesList_cons] at hquoted ⊢
    obtain ⟨herrors, hquotes⟩ := ihd fun l hl => hquoted l (by
      rw [lexemesList_singleton] at hl
      exact List.mem_append_left _ hl)
    obtain ⟨hmore, hmoreQuotes⟩ := ihds fun l hl => hquoted l (List.mem_append_right _ hl)
    simp only [errorsList_cons, errorsList_nil, lexemesList_singleton, List.append_nil,
      errorsList_append, errorsList_map_leaf, List.nil_append] at herrors hquotes ⊢
    refine ⟨?_, ?_⟩
    · rw [List.filter_append]
      exact List.rel_append herrors hmore
    · rw [List.countP_append, List.countP_append, hquotes, hmoreQuotes]

end

theorem Recast.forall₂_errorsList (hquotes : ∀ l, r.quotes l = false) (h : Recast r k ds ds') :
    List.Forall₂ r.alike (Draft.errorsList ds) (Draft.errorsList ds') := by
  have hall := (@Recast.errorsList _ _ _ _ (fun _ => true) (fun _ _ _ => rfl) h
    fun l _ hl => absurd hl (by simp [hquotes])).1
  rwa [List.filter_eq_self.mpr fun _ _ => rfl] at hall

/-! ## Parts of nodes -/

/-- A way to share out the lexemes of a node's parts: each is handed on by the node, or kept. -/
structure Shares (handed kept : Draft → List Lexeme) : Prop where
  leaf : ∀ l, handed (leaf l) = [l]
  node : ∀ kind before first rest after,
    (handed (node kind before first rest after) ++ kept (node kind before first rest after)).Perm
      ((first :: rest).flatMap handed)

namespace Shares
variable {handed kept : Draft → List Lexeme}

theorem perm_cons {o : Nat} {b : List (Option Text)} {d : Draft} {ds : List Draft}
    (hd : (handed d ++ (standings o b d).flatMap (kept ·.draft)).Perm d.lexemes)
    (hds : (ds.flatMap handed ++
      (standingsRow (o + Lexeme.sizeList d.lexemes) (slotsBehind b d) ds).flatMap
        (kept ·.draft)).Perm (lexemesList ds)) :
    ((d :: ds).flatMap handed ++ (standingsRow o b (d :: ds)).flatMap (kept ·.draft)).Perm
      (lexemesList (d :: ds)) := by
  rw [List.flatMap_cons, standingsRow, List.flatMap_append, lexemesList_cons, List.append_assoc]
  refine List.Perm.trans ?_ (hd.append hds)
  rw [List.append_assoc]
  refine List.Perm.append_left _ ?_
  rw [← List.append_assoc, ← List.append_assoc]
  exact List.perm_append_comm.append_right _

mutual

theorem perm (h : Shares handed kept) (o : Nat) (b : List (Option Text)) : ∀ d : Draft,
    (handed d ++ (standings o b d).flatMap (kept ·.draft)).Perm d.lexemes
  | .leaf l => by
    rw [h.leaf]
    exact List.Perm.refl _
  | .node kind before first rest after => by
    rw [standings, List.flatMap_cons, ← List.append_assoc]
    exact ((h.node kind before first rest after).append_right _).trans
      (perm_cons (h.perm o b first) (h.permRow _ _ rest))

/-- Every lexeme of a row is handed on by a draft of the row or kept by one node below it. -/
theorem permRow (h : Shares handed kept) (o : Nat) (b : List (Option Text)) : ∀ ds : List Draft,
    (ds.flatMap handed ++ (standingsRow o b ds).flatMap (kept ·.draft)).Perm (lexemesList ds)
  | [] => List.Perm.refl _
  | d :: ds => perm_cons (h.perm o b d) (h.permRow _ _ ds)

end

variable {o : Nat} {b : List (Option Text)} {ds : List Draft} {x y : Standing} {l : Lexeme}

theorem index_eq (h : Shares handed kept) (hn : (lexemesList ds).Nodup) {i j : Nat}
    (hx : (standingsRow o b ds)[i]? = some x) (hy : (standingsRow o b ds)[j]? = some y)
    (hlx : l ∈ kept x.draft) (hly : l ∈ kept y.draft) : i = j := by
  have hnodup := (List.nodup_append.mp ((h.permRow o b ds).nodup_iff.mpr hn)).2.1
  have happart := List.pairwise_iff_getElem.mp (List.nodup_flatMap.mp hnodup).2
  obtain ⟨hi, rfl⟩ := List.getElem?_eq_some_iff.mp hx
  obtain ⟨hj, rfl⟩ := List.getElem?_eq_some_iff.mp hy
  rcases Nat.lt_trichotomy i j with hlt | heq | hgt
  · exact (happart i j hi hj hlt hlx hly).elim
  · exact heq
  · exact (happart j i hj hi hgt hly hlx).elim

theorem eq_of_mem (h : Shares handed kept) (hn : (lexemesList ds).Nodup)
    (hx : x ∈ standingsRow o b ds) (hy : y ∈ standingsRow o b ds) (hlx : l ∈ kept x.draft)
    (hly : l ∈ kept y.draft) : x = y := by
  obtain ⟨i, hi⟩ := List.mem_iff_getElem?.mp hx
  obtain ⟨j, hj⟩ := List.mem_iff_getElem?.mp hy
  obtain rfl := h.index_eq hn hi hj hlx hly
  exact Option.some.inj (hi.symm.trans hj)

theorem nodup (h : Shares handed kept) (hn : (lexemesList ds).Nodup) (hx : x ∈ standingsRow o b ds) :
    (kept x.draft).Nodup :=
  (List.nodup_flatMap.mp (List.nodup_append.mp ((h.permRow o b ds).nodup_iff.mpr hn)).2.1).1 x hx

theorem mem_lexemesList (h : Shares handed kept) (hx : x ∈ standingsRow o b ds)
    (hl : l ∈ kept x.draft) : l ∈ lexemesList ds :=
  (h.permRow o b ds).mem_iff.mp (List.mem_append_right _ (List.mem_flatMap.mpr ⟨x, hx, hl⟩))

end Shares

/-- The lexemes among the parts of a node itself. -/
def ownLexemes : Draft → List Lexeme
  | leaf _ => []
  | node _ _ first rest _ => (first :: rest).flatMap lone
where
  /-- The lexeme of a draft that is no node. -/
  lone : Draft → List Lexeme
    | leaf l => [l]
    | node .. => []

theorem shares_ownLexemes : Shares ownLexemes.lone ownLexemes :=
  ⟨fun _ => rfl, fun _ _ _ _ _ => List.Perm.refl _⟩

theorem mem_ownLexemes {kind : NodeKind} {before after : Option ParseError} {first : Draft}
    {rest : List Draft} {l : Lexeme} (h : leaf l ∈ first :: rest) :
    l ∈ (node kind before first rest after).ownLexemes :=
  List.mem_flatMap.mpr ⟨leaf l, h, List.mem_singleton.mpr rfl⟩

/-- The lexemes that the parts of a node but the first begin with. -/
def laterHeads : Draft → List Lexeme
  | leaf _ => []
  | node _ _ _ rest _ => rest.map firstLexeme

theorem shares_laterHeads : Shares (fun d => [d.firstLexeme]) laterHeads := by
  refine ⟨fun _ => rfl, fun kind before first rest after => ?_⟩
  rw [← List.map_eq_flatMap]
  exact List.Perm.refl _

end Draft

/-! ## Documents -/

theorem pairwise_start_of_placed {o : Nat} {ls : List Lexeme} (h : Placed o ls) :
    ls.Pairwise fun l m => l.token.span.stop ≤ m.token.span.start := by
  induction ls generalizing o with
  | nil => exact .nil
  | cons l ls ih =>
    obtain ⟨-, -, hstop, hls⟩ := placed_cons h
    refine .cons (fun m hm => ?_) (ih hls)
    rw [hstop]
    exact (bounds_of_placed hls m hm).1

namespace Parse

theorem lexemes_eq_group (source : Text) : lexemes source = (Lexemes.group (tokenize source)).1 := by
  rw [lexemes, Lexemes.ofTokens, takeWhile_tokenize]

theorem placed_lexemes (source : Text) : Placed 0 (lexemes source) := placed_tokenize source

theorem nodup_start_lexemes (source : Text) :
    ((lexemes source).map (·.token.span.start)).Nodup := by
  refine List.pairwise_map.mpr ?_
  refine (pairwise_start_of_placed (placed_lexemes source)).imp_of_mem fun {l m} hl _ hle => ?_
  have hbounds := bounds_of_placed (placed_lexemes source) l hl
  omega

theorem nodup_lexemes (source : Text) : (lexemes source).Nodup :=
  (nodup_start_lexemes source).of_map _

theorem eq_of_start_eq {source : Text} {l m : Lexeme} (hl : l ∈ lexemes source)
    (hm : m ∈ lexemes source) (h : l.token.span.start = m.token.span.start) : l = m :=
  List.inj_on_of_nodup_map (nodup_start_lexemes source) hl hm h

def drafts (source : Text) : List Draft :=
  documentDrafts (Lexemes.ofTokens (tokenize source) source.size).eof (lexemes source)

theorem lexemesList_drafts (source : Text) : lexemesList (drafts source) = lexemes source :=
  lexemes_documentDrafts _ _

section
variable {source : Text} {x y : Standing} {l : Lexeme}

/-- A lexeme is a part of one node only. -/
theorem eq_of_mem_ownLexemes (hx : x ∈ standings source) (hy : y ∈ standings source)
    (hlx : l ∈ x.draft.ownLexemes) (hly : l ∈ y.draft.ownLexemes) : x = y :=
  shares_ownLexemes.eq_of_mem (lexemesList_drafts source ▸ nodup_lexemes source) hx hy hlx hly

theorem mem_lexemes_of_mem_ownLexemes (hx : x ∈ standings source)
    (hl : l ∈ x.draft.ownLexemes) : l ∈ lexemes source :=
  lexemesList_drafts source ▸ shares_ownLexemes.mem_lexemesList hx hl

/-- A lexeme begins a part of one node only, other than its first part. -/
theorem index_eq_of_mem_laterHeads {i j : Nat} (hx : (standings source)[i]? = some x)
    (hy : (standings source)[j]? = some y) (hlx : l ∈ x.draft.laterHeads)
    (hly : l ∈ y.draft.laterHeads) : i = j :=
  shares_laterHeads.index_eq (lexemesList_drafts source ▸ nodup_lexemes source) hx hy hlx hly

theorem nodup_laterHeads (hx : x ∈ standings source) : x.draft.laterHeads.Nodup :=
  shares_laterHeads.nodup (lexemesList_drafts source ▸ nodup_lexemes source) hx

end

theorem errors_parse (source : Text) : (parse source).errors = errorsList (drafts source) := rfl

/-- If the lexemes of a text are what becomes of those of another, what is read of it is what
becomes of what is read of the other. -/
theorem recast_drafts {r : Recasting} {source text : Text}
    (hkeeps : r.KeepsApart (lexemes source))
    (hfits : ∀ x ∈ standings source, r.Fits (lexemes source) x.draft)
    (hls : ∀ ds', Recast r .file (drafts source) ds' → lexemesList ds' = lexemes text) :
    Recast r .file (drafts source) (drafts text) := by
  obtain ⟨ds', hrecast, hdrafts⟩ := exists_recast_documentDrafts hkeeps
    ((everyNode_iff 0 []).mpr hfits) (Lexemes.ofTokens (tokenize text) text.size).eof
  rw [hls ds' hrecast] at hdrafts
  have hsame : drafts text = ds' := hdrafts
  rwa [hsame]

end Parse

/-! ## Lexemes of the same kinds -/

/-- The change of a document in which lexemes stay of their kinds. -/
def Draft.Recasting.relaid (m : Lexeme → Lexeme) (h : ∀ l, (m l).kind = l.kind) : Recasting where
  map := m
  quotes _ := false
  cut _ := none
  alike e e' := e'.expected = e.expected
  kind_map _ := h _
  kind_quotes h := absurd h Bool.false_ne_true
  kind_cut := @Recasting.kind_of_no_cut
  alike_stretch _ _ _ _ := rfl
  alike_cover _ _ _ := rfl
  alike_colon _ _ _ _ := rfl
  alike_gap _ _ _ _ := rfl

theorem map_eq_of_forall₂ {α β γ : Type} {R : α → β → Prop} {f : α → γ} {g : β → γ} {as : List α}
    {bs : List β} (h : List.Forall₂ R as bs) (hfg : ∀ a ∈ as, ∀ b ∈ bs, R a b → g b = f a) :
    bs.map g = as.map f := by
  induction h with
  | nil => rfl
  | cons hab _ ih =>
    obtain ⟨ha, has⟩ := List.forall_mem_cons.mp hfg
    rw [List.map_cons, List.map_cons, ha _ List.mem_cons_self hab,
      ih fun a hmem b hb => has a hmem b (List.mem_cons_of_mem _ hb)]

theorem flatMap_eq_of_forall₂ {α β γ : Type} {R : α → β → Prop} {f : α → List γ} {g : β → List γ}
    {as : List α} {bs : List β} (h : List.Forall₂ R as bs)
    (hfg : ∀ a ∈ as, ∀ b ∈ bs, R a b → g b = f a) : bs.flatMap g = as.flatMap f := by
  rw [List.flatMap_def, List.flatMap_def, map_eq_of_forall₂ h hfg]

section
variable {m : Lexeme → Lexeme} {h : ∀ l, (m l).kind = l.kind} {k : NodeKind} {ds ds' : List Draft}

theorem map_expected_of_relaid (hrecast : Recast (Recasting.relaid m h) k ds ds') :
    (errorsList ds').map ParseError.expected = (errorsList ds).map ParseError.expected :=
  map_eq_of_forall₂ (Recast.forall₂_errorsList (fun _ => rfl) hrecast) fun _ _ _ _ halike => halike

theorem recast_documentDrafts (h : ∀ l, (m l).kind = l.kind) {whole : List Lexeme} (eof eof' : Token)
    (hsigned : ∀ l n, [l, n] <:+: whole →
      isSignedNumber (m l).token (m n).token = isSignedNumber l.token n.token) :
    Recast (Recasting.relaid m h) .file (documentDrafts eof whole)
      (documentDrafts eof' (whole.map m)) := by
  have hkeeps : (Recasting.relaid m h).KeepsApart whole := fun l n hnext hnew _ => by
    rwa [← hsigned l n hnext]
  have hfits : EveryNode ((Recasting.relaid m h).Fits whole) (documentDrafts eof whole) := by
    refine (everyNode_iff 0 []).mpr fun x hx => ?_
    cases hd : x.draft with
    | leaf => trivial
    | node kind before first rest after =>
      refine ⟨fun _ _ hq => absurd hq Bool.false_ne_true, ?_⟩
      rintro plus number rfl rfl hold
      obtain ⟨front, back, hall, -⟩ := among_of_mem_standingsRow 0 [] _ x hx
      rw [lexemes_documentDrafts, hd] at hall
      exact (hsigned plus number ⟨front, back, hall.symm⟩).trans hold
  obtain ⟨ds', hrecast, hdrafts⟩ := exists_recast_documentDrafts hkeeps hfits eof'
  rw [hrecast.lexemesList_eq fun _ => rfl, lexemes_documentDrafts] at hdrafts
  have hsame : documentDrafts eof' (whole.map m) = ds' := hdrafts
  rwa [hsame]

end

namespace Parse

variable {source text : Text} {m : Lexeme → Lexeme} {h : ∀ l, (m l).kind = l.kind}

theorem expectations_of_relaid
    (hrecast : Recast (Recasting.relaid m h) .file (drafts source) (drafts text)) :
    (parse text).expectations = (parse source).expectations :=
  map_expected_of_relaid hrecast

/-- If lexemes stay of their kinds, and signs as near to their numbers as they were, the document
stays the same. -/
theorem recast_relaid (h : ∀ l, (m l).kind = l.kind) (hlexemes : lexemes text = (lexemes source).map m)
    (hsigned : ∀ l n, [l, n] <:+: lexemes source →
      isSignedNumber (m l).token (m n).token = isSignedNumber l.token n.token) :
    Recast (Recasting.relaid m h) .file (drafts source) (drafts text) := by
  have hrecast := recast_documentDrafts h (Lexemes.ofTokens (tokenize source) source.size).eof
    (Lexemes.ofTokens (tokenize text) text.size).eof hsigned
  rw [← hlexemes] at hrecast
  exact hrecast

end Parse

/-! ## Significant tokens -/

theorem significant_eq (source : Text) :
    significant source = (Parse.lexemes source).map Lexeme.token :=
  (map_token_lexemes source).symm

theorem map_word_significant (source : Text) :
    (significant source).map Token.word = (Lexer.lex source).filter (!·.1.isTrivia) := by
  have hwords := map_place 0 (Lexer.lex source)
  conv_rhs => rw [← hwords]
  rw [List.filter_map]
  rfl

theorem nodup_start_significant (source : Text) :
    ((significant source).map (·.span.start)).Nodup := by
  rw [significant_eq, List.map_map]
  exact Parse.nodup_start_lexemes source

theorem exists_significant_around {source : Text} {ts us : List (TokenKind × Text)}
    {t : TokenKind × Text} (h : Lexer.lex source = ts ++ t :: us) (ht : t.1.isTrivia = false) :
    ∃ front token back, significant source = front ++ token :: back ∧ token.word = t ∧
      token.span.start = Text.size (ts.flatMap (·.2)) ∧
      front.map Token.word = ts.filter (!·.1.isTrivia) ∧
      back.map Token.word = us.filter (!·.1.isTrivia) := by
  have hwords (o : Nat) (ts : List (TokenKind × Text)) :
      ((Lexer.place o ts).filter (!·.isTrivia)).map Token.word = ts.filter (!·.1.isTrivia) := by
    conv_rhs => rw [← map_place o ts, List.filter_map]
    rfl
  let start := 0 + Text.size (ts.flatMap (·.2))
  refine ⟨(Lexer.place 0 ts).filter (!·.isTrivia), ⟨t.1, ⟨start, start + t.2.size⟩, t.2⟩,
    (Lexer.place (start + t.2.size) us).filter (!·.isTrivia), ?_, rfl, Nat.zero_add _, hwords _ _,
    hwords _ _⟩
  rw [significant, tokenize, h, Lexer.place_append_size, List.filter_append, Lexer.place,
    List.filter_cons_of_pos]
  exact congrArg (!·) ht

theorem eq_of_significant_eq {source : Text} {front front' back back' : List Token} {t t' : Token}
    (h : significant source = front ++ t :: back)
    (h' : significant source = front' ++ t' :: back') (hstart : t.span.start = t'.span.start) :
    front = front' := by
  have hnodup := nodup_start_significant source
  have hmaps := congrArg (List.map (·.span.start)) (h.symm.trans h')
  rw [h, List.map_append, List.map_cons] at hnodup
  rw [List.map_append, List.map_append, List.map_cons, List.map_cons, ← hstart] at hmaps
  obtain ⟨-, hback, happart⟩ := List.nodup_append.mp hnodup
  have hfront : t.span.start ∉ front.map (·.span.start) := fun hmem =>
    happart _ hmem _ List.mem_cons_self rfl
  obtain ⟨hfronts, -, -⟩ :=
    (List.append_cons_inj_of_notMem hfront (List.nodup_cons.mp hback).1).mp hmaps
  have hlength : front.length = front'.length := by simpa using congrArg List.length hfronts
  exact (List.append_inj (h.symm.trans h') hlength).1

end Maml
