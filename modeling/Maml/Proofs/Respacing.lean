import Maml.Proofs.Alone
import Maml.Proofs.Changes
import Maml.Proofs.Gaps
import Maml.Proofs.Splicing
import Maml.Repair

/-! Tokens with other separators between them.

1. What is put behind significant tokens, and is a token in front of the tokens behind it, changes
   no other token (`Lexer.lex_of_respaced`).
2. A lexeme without its place is its `Lexeme.spelling`. The spellings of a text's lexemes are its
   tokens, and tokens that are spelled like lexemes are those lexemes
   (`Parse.exists_lex_eq`, `Parse.map_spelling_lexemes`). -/
namespace Maml

namespace Lexer

/-! ## Separators -/

/-- Whether something ends any token in front of it that is not trivia, and is itself a token in
front of given ones. -/
structure Separates (sep : TokenKind × Text) (back : List (TokenKind × Text)) : Prop where
  parted : Parted sep.2
  ne_nil : sep.2 ≠ []
  ne_quote : ∀ c ∈ sep.2.head?, c ≠ '"'
  lex_eq : lex (sep.2 ++ back.flatMap (·.2)) = sep :: lex (back.flatMap (·.2))

/-- Tokens before and after separators are put behind some significant tokens of them; the trivia
that stood there may go. -/
inductive Respaced : List (TokenKind × Text) → List (TokenKind × Text) → Prop where
  | nil : Respaced [] []
  | keep (t : TokenKind × Text) {ts us : List (TokenKind × Text)} (h : Respaced ts us) :
      Respaced (t :: ts) (t :: us)
  | separate {t : TokenKind × Text} (ht : t.1.isTrivia = false) {sep : TokenKind × Text}
      (gap : List (TokenKind × Text)) {ts us : List (TokenKind × Text)} (hsep : Separates sep us)
      (h : Respaced ts us) : Respaced (t :: (gap ++ ts)) (t :: sep :: us)

theorem respaced_append (front : List (TokenKind × Text)) {ts us : List (TokenKind × Text)}
    (h : Respaced ts us) : Respaced (front ++ ts) (front ++ us) := by
  induction front with
  | nil => exact h
  | cons t front ih => exact .keep t ih

theorem respaced_refl (ts : List (TokenKind × Text)) : Respaced ts ts := by
  have h := respaced_append ts .nil
  rwa [List.append_nil] at h

/-- Tokens with separators between them are the tokens of their text. -/
theorem lex_of_respaced {ts us : List (TokenKind × Text)} (h : Respaced ts us) :
    ∀ {front : List (TokenKind × Text)}, (∀ t ∈ front ++ ts, t.1 ≠ .unterminatedString) →
      lex ((front ++ ts).flatMap (·.2)) = front ++ ts →
      lex ((front ++ us).flatMap (·.2)) = front ++ us := by
  induction h with
  | nil => exact fun _ h => h
  | keep t h ih =>
    intro front hclosed hlex
    rw [List.append_cons] at hclosed hlex ⊢
    exact ih hclosed hlex
  | @separate t ht sep gap ts us hsep h ih =>
    intro front hclosed hlex
    rw [List.append_cons, ← List.append_assoc] at hclosed hlex
    -- what is in front of the separator, and what is behind it, are texts of their own
    obtain ⟨hbegin, hend⟩ := lex_cut hlex
    have hfront : lex ((front ++ [t]).flatMap (·.2)) = front ++ [t] := (lex_cut hbegin).1
    have hback : lex (us.flatMap (·.2)) = us := by
      have hrest := @ih [] (fun u hu => hclosed u (List.mem_append_right _ hu))
      rw [List.nil_append, List.nil_append] at hrest
      exact hrest hend
    have htail : ∀ c ∈ (sep.2 ++ us.flatMap (·.2)).head?, c ∈ sep.2.head? := by
      obtain ⟨c, cs, hsep⟩ := List.exists_cons_of_ne_nil hsep.ne_nil
      rw [hsep]
      exact fun _ h => h
    have hends : ∀ u ∈ (lex ((front ++ [t]).flatMap (·.2))).getLast?,
        EndsAt u (sep.2 ++ us.flatMap (·.2)) := by
      rw [hfront, List.getLast?_concat]
      intro u hu
      obtain rfl := Option.some.inj hu
      exact endsAt_of_ne_quote ht fun c hc => hsep.ne_quote c (htail c hc)
    have htext : (front ++ t :: sep :: us).flatMap (·.2) =
        (front ++ [t]).flatMap (·.2) ++ (sep.2 ++ us.flatMap (·.2)) := by
      simp
    rw [htext, lex_append_of_endsAt (fun c hc => hsep.parted c (htail c hc)) ?_ hends, hfront,
      hsep.lex_eq, hback, List.append_assoc]
    · rfl
    · rw [hfront]
      intro u hu
      exact hclosed u (List.mem_append_left _ (List.mem_append_left _ hu))

end Lexer

/-! ## Spelling -/

/-- A lexeme without its place: the trivia, and the significant token. -/
def Lexeme.spelling (l : Lexeme) : List (TokenKind × Text) × (TokenKind × Text) :=
  (l.trivia.map Token.word, l.token.word)

def spelled (us : List (List (TokenKind × Text) × (TokenKind × Text))) :
    List (TokenKind × Text) :=
  us.flatMap fun u => u.1 ++ [u.2]

/-- Whether trivia and a significant token are spelled. -/
def IsSpelling (u : List (TokenKind × Text) × (TokenKind × Text)) : Prop :=
  (∀ t ∈ u.1, t.1.isTrivia = true) ∧ u.2.1.isTrivia = false

theorem isSpelling_spelling {l : Lexeme} (h : l.Valid) : IsSpelling l.spelling := by
  refine ⟨fun t ht => ?_, h.2⟩
  obtain ⟨u, hu, rfl⟩ := List.mem_map.mp ht
  exact h.1 u hu

theorem map_word_tokens (l : Lexeme) : l.tokens.map Token.word = spelled [l.spelling] := by
  rw [Lexeme.tokens, List.map_append, spelled, List.flatMap_singleton]
  rfl

theorem map_word_flatMap_tokens (ls : List Lexeme) :
    (ls.flatMap Lexeme.tokens).map Token.word = spelled (ls.map Lexeme.spelling) := by
  rw [List.map_flatMap, spelled, List.flatMap_map]
  exact List.flatMap_congr fun l _ => (map_word_tokens l).trans (List.flatMap_singleton ..)

theorem size_spelled (ls : List Lexeme) :
    Text.size ((spelled (ls.map Lexeme.spelling)).flatMap (·.2)) = Lexeme.sizeList ls := by
  rw [← map_word_flatMap_tokens, List.flatMap_map, List.flatMap_assoc, ← Lexeme.size_flatMap_text]
  rfl

theorem map_spelling_group {us : List (List (TokenKind × Text) × (TokenKind × Text))}
    {trailing : List (TokenKind × Text)} (hus : ∀ u ∈ us, IsSpelling u)
    (htrailing : ∀ t ∈ trailing, t.1.isTrivia = true) (o : Nat) :
    (Lexemes.group (Lexer.place o (spelled us ++ trailing))).1.map Lexeme.spelling = us := by
  induction us generalizing o with
  | nil =>
    rw [spelled, List.flatMap_nil, List.nil_append,
      Lexemes.group_of_isTrivia (isTrivia_of_mem_place htrailing)]
    rfl
  | cons u us ih =>
    obtain ⟨⟨htrivia, htoken⟩, hus⟩ := List.forall_mem_cons.mp hus
    have hrow : spelled (u :: us) ++ trailing = u.1 ++ u.2 :: (spelled us ++ trailing) := by
      simp [spelled]
    obtain ⟨o', hplace⟩ := place_append o u.1 (u.2 :: (spelled us ++ trailing))
    have hword := map_place o u.1
    have hsignificant (span : Span) : (Token.mk u.2.1 span u.2.2).isTrivia = false := htoken
    rw [hrow, hplace, Lexer.place, Lexemes.group_append_cons (isTrivia_of_mem_place htrivia)
      (hsignificant _), List.map_cons, ih hus]
    exact congrArg (· :: us) (Prod.ext hword rfl)

namespace Parse

/-- The tokens of a text spell its lexemes and the trivia behind them. -/
theorem exists_lex_eq (source : Text) : ∃ trailing : List (TokenKind × Text),
    Lexer.lex source = spelled ((lexemes source).map Lexeme.spelling) ++ trailing ∧
      ∀ t ∈ trailing, t.1.isTrivia = true := by
  have htokens := Lexemes.tokens_group (tokenize source)
  have hwords : (tokenize source).map Token.word = Lexer.lex source := map_place 0 _
  refine ⟨(Lexemes.group (tokenize source)).2.map Token.word, ?_, fun t ht => ?_⟩
  · rw [← hwords, ← map_word_flatMap_tokens, lexemes_eq_group, ← List.map_append, htokens]
  · obtain ⟨u, hu, rfl⟩ := List.mem_map.mp ht
    exact isTrivia_of_mem_trailing _ u hu

/-- A text of which the tokens spell lexemes has those lexemes. -/
theorem map_spelling_lexemes {text : Text}
    {us : List (List (TokenKind × Text) × (TokenKind × Text))}
    {trailing : List (TokenKind × Text)} (h : Lexer.lex text = spelled us ++ trailing)
    (hus : ∀ u ∈ us, IsSpelling u) (htrailing : ∀ t ∈ trailing, t.1.isTrivia = true) :
    (lexemes text).map Lexeme.spelling = us := by
  rw [lexemes_eq_group, tokenize, h]
  exact map_spelling_group hus htrailing 0

end Parse

theorem onNewLine_eq (l : Lexeme) : l.onNewLine = Lexer.breaksLine l.spelling.1 := by
  rw [Lexeme.onNewLine, Lexer.breaksLine, Lexeme.spelling, List.any_map]
  rfl

theorem size_trivia_spelling (l : Lexeme) :
    Text.size (l.spelling.1.flatMap (·.2)) = Token.sizeList l.trivia := by
  rw [← Token.size_flatMap_text, Lexeme.spelling, List.flatMap_map]
  rfl

/-- Whether a plus sign is spelled, and directly behind it a number. -/
def SpellsSigned (u v : List (TokenKind × Text) × (TokenKind × Text)) : Prop :=
  u.2 = (.badCharacter, ['+']) ∧ v.2.1 = .number ∧ Text.size (v.1.flatMap (·.2)) = 0

theorem isSignedNumber_iff {o : Nat} {ls : List Lexeme} (hp : Placed o ls) {l m : Lexeme}
    (h : [l, m] <:+: ls) : Draft.isSignedNumber l.token m.token = true ↔
      SpellsSigned l.spelling m.spelling := by
  obtain ⟨front, back, rfl⟩ := h
  rw [List.append_assoc] at hp
  obtain ⟨-, -, hstop, hbehind⟩ := placed_cons (placed_append.mp hp).2
  have hspan := Draft.span_firstToken (d := .leaf m) (placed_head hbehind)
  have hstart : m.token.span.start = l.token.span.stop + Token.sizeList m.trivia := by
    rw [hstop]
    exact congrArg Span.start hspan
  have hsize := size_trivia_spelling m
  have hadjacent : m.token.span.start = l.token.span.stop ↔ Token.sizeList m.trivia = 0 := by
    omega
  simp only [Draft.isSignedNumber_eq_true, hadjacent, SpellsSigned, hsize]
  simp only [Lexeme.spelling, Token.word, Prod.mk.injEq, and_assoc]

/-! ## Separators in front of lexemes -/

/-- Where the trivia in front of a significant token begins. -/
def Lexeme.start (l : Lexeme) : Nat := l.token.span.start - Token.sizeList l.trivia

theorem start_of_placed {o : Nat} {l : Lexeme} {ls : List Lexeme} (h : Placed o (l :: ls)) :
    l.start = o ∧ l.token.span.start = o + Token.sizeList l.trivia := by
  have hspan := Draft.span_firstToken (d := .leaf l) (placed_head h)
  have hstart : l.token.span.start = o + Token.sizeList l.trivia := congrArg Span.start hspan
  exact ⟨by rw [Lexeme.start, hstart, Nat.add_sub_cancel], hstart⟩

/-- Where a token begins is told by the spelling of what is in front of it. -/
theorem start_eq_size_spelled {ls rest : List Lexeme} {l : Lexeme} (h : Placed 0 (ls ++ l :: rest)) :
    l.token.span.start =
      Text.size ((spelled (ls.map Lexeme.spelling) ++ l.spelling.1).flatMap (·.2)) := by
  rw [(start_of_placed (placed_append.mp h).2).2, List.flatMap_append, Text.size_append,
    size_spelled, size_trivia_spelling, Nat.zero_add]

/-- A separator for lexemes, and whether the trivia in front of them goes when it comes. -/
structure Separator where
  token : TokenKind × Text
  drops : Bool

namespace Separator
variable (r : Separator) (marked : List Lexeme)

/-- The trivia of a lexeme that is left behind the separator. -/
def kept (l : Lexeme) : List (TokenKind × Text) :=
  if r.drops then [] else l.trivia.map Token.word

/-- The tokens of a lexeme, with the separator if it is marked. -/
def tokens (l : Lexeme) : List (TokenKind × Text) :=
  if l ∈ marked then r.token :: (r.kept l ++ [l.token.word]) else spelled [l.spelling]

def edit (l : Lexeme) : Edit :=
  ⟨⟨l.start, if r.drops then l.token.span.start else l.start⟩, r.token.2⟩

variable {r : Separator} {marked ls : List Lexeme}

theorem respaced (hvalid : ∀ l ∈ ls, l.Valid)
    (hsep : ∀ l ∈ ls, ∀ us, Lexer.Separates r.token (r.kept l ++ l.token.word :: us))
    (trailing : List (TokenKind × Text)) {t : TokenKind × Text} (ht : t.1.isTrivia = false) :
    Lexer.Respaced (t :: (spelled (ls.map Lexeme.spelling) ++ trailing))
      (t :: (ls.flatMap (r.tokens marked) ++ trailing)) := by
  induction ls generalizing t with
  | nil => exact Lexer.respaced_refl _
  | cons l ls ih =>
    obtain ⟨hl, hls⟩ := List.forall_mem_cons.mp hvalid
    have hrest : Lexer.Respaced (l.token.word :: (spelled (ls.map Lexeme.spelling) ++ trailing))
        (l.token.word :: (ls.flatMap (r.tokens marked) ++ trailing)) :=
      ih hls (fun m hm => hsep m (List.mem_cons_of_mem _ hm)) hl.2
    have hold : spelled ((l :: ls).map Lexeme.spelling) ++ trailing =
        l.trivia.map Token.word ++
          (l.token.word :: (spelled (ls.map Lexeme.spelling) ++ trailing)) := by
      simp [spelled, Lexeme.spelling]
    rw [hold, List.flatMap_cons, tokens]
    split
    · have hnew : r.token :: (r.kept l ++ [l.token.word]) ++ ls.flatMap (r.tokens marked) ++
          trailing = r.token :: (r.kept l ++
            (l.token.word :: (ls.flatMap (r.tokens marked) ++ trailing))) := by
        simp
      rw [hnew]
      have hsep := hsep l List.mem_cons_self (ls.flatMap (r.tokens marked) ++ trailing)
      by_cases hdrops : r.drops = true
      · rw [kept, if_pos hdrops, List.nil_append] at hsep ⊢
        exact .separate ht _ hsep hrest
      · rw [kept, if_neg hdrops] at hsep ⊢
        have hkept := Lexer.respaced_append (l.trivia.map Token.word) hrest
        exact .separate ht [] hsep hkept
    · have hnew : spelled [l.spelling] ++ ls.flatMap (r.tokens marked) ++ trailing =
          l.trivia.map Token.word ++
            (l.token.word :: (ls.flatMap (r.tokens marked) ++ trailing)) := by
        simp [spelled, Lexeme.spelling]
      rw [hnew]
      exact .keep t (Lexer.respaced_append _ hrest)

theorem flatMap_text_spelled (l : Lexeme) :
    (spelled [l.spelling]).flatMap (·.2) = l.text := by
  rw [← map_word_tokens, List.flatMap_map]
  rfl

theorem spliced {o : Nat} (h : marked.Sublist ls) (hn : ls.Nodup) (hp : Placed o ls)
    (back : Text) : Spliced o (ls.flatMap Lexeme.text ++ back) (marked.map r.edit)
      ((ls.flatMap (r.tokens marked)).flatMap (·.2) ++ back) := by
  induction h generalizing o with
  | slnil =>
    have hkeep := Spliced.keep back (Spliced.nothing (o + back.size))
    rwa [List.append_nil] at hkeep
  | @cons ms ls l h ih =>
    obtain ⟨hl, hls⟩ := List.nodup_cons.mp hn
    have htokens : r.tokens ms l = spelled [l.spelling] := if_neg fun hmem => hl (h.subset hmem)
    have hsize : l.text.size = Lexeme.sizeList [l] := by
      simpa using Lexeme.size_flatMap_text [l]
    obtain ⟨-, -, -, hrest⟩ := placed_cons hp
    rw [List.flatMap_cons, List.flatMap_cons, List.flatMap_append, htokens, flatMap_text_spelled,
      List.append_assoc, List.append_assoc]
    refine .keep _ ?_
    rw [hsize]
    exact ih hls hrest
  | @cons_cons ms ls l h ih =>
    obtain ⟨hl, hls⟩ := List.nodup_cons.mp hn
    have hothers : ls.flatMap (r.tokens (l :: ms)) = ls.flatMap (r.tokens ms) := by
      refine List.flatMap_congr fun m hm => ?_
      have hne : m ≠ l := fun heq => hl (heq ▸ hm)
      simp [tokens, hne]
    obtain ⟨-, -, -, hrest⟩ := placed_cons hp
    obtain ⟨hbegin, hstart⟩ := start_of_placed hp
    have htext : l.text = l.trivia.flatMap Token.text ++ l.token.text := by
      simp [Lexeme.text, Lexeme.tokens]
    have hsize : o + Token.sizeList l.trivia + l.token.text.size = o + Lexeme.sizeList [l] := by
      rw [← Lexeme.size_flatMap_text, List.flatMap_singleton, htext, Text.size_append,
        Token.size_flatMap_text, Nat.add_assoc]
    have hgap := Token.size_flatMap_text l.trivia
    have hrest := Spliced.keep l.token.text (hsize ▸ ih hls hrest)
    rw [← hgap] at hrest
    have hold : (l :: ls).flatMap Lexeme.text ++ back =
        l.trivia.flatMap Token.text ++ (l.token.text ++ (ls.flatMap Lexeme.text ++ back)) := by
      simp [htext]
    rw [hold, List.map_cons, edit, hbegin, hstart, ← hgap, List.flatMap_cons, hothers, tokens,
      if_pos List.mem_cons_self]
    by_cases hdrops : r.drops = true
    · have hchange := Spliced.change (l.trivia.flatMap Token.text) r.token.2 hrest
      simpa [hdrops, kept, Token.word] using hchange
    · have hkeep := Spliced.keep (l.trivia.flatMap Token.text) hrest
      have hchange := Spliced.change [] r.token.2 (o := o) (by simpa using hkeep)
      simpa [hdrops, kept, Token.word, List.flatMap_map] using hchange

/-- Separators can be put in front of any lexemes of a text but the first: the edits can be made,
and they change no other token. -/
theorem exists_apply {source : Text} (hclosed : ∀ t ∈ tokenize source, t.kind ≠ .unterminatedString)
    (h : marked.Sublist (Parse.lexemes source).tail)
    (hsep : ∀ l ∈ Parse.lexemes source, ∀ us,
      Lexer.Separates r.token (r.kept l ++ l.token.word :: us)) :
    ∃ text trailing, applyEdits source (marked.map r.edit) = .ok text ∧
      Lexer.lex text = (Parse.lexemes source).flatMap (r.tokens marked) ++ trailing ∧
        ∀ t ∈ trailing, t.1.isTrivia = true := by
  obtain ⟨trailing, hlex, htrailing⟩ := Parse.exists_lex_eq source
  have hn := Parse.nodup_lexemes source
  have hp := Parse.placed_lexemes source
  generalize hls : Parse.lexemes source = ls at h hsep hlex hn hp
  have hsource : source = ls.flatMap Lexeme.text ++ trailing.flatMap (·.2) := by
    have htext := congrArg (List.flatMap (·.2)) hlex
    rw [Lexer.flatMap_lex, List.flatMap_append, ← map_word_flatMap_tokens, List.flatMap_map,
      List.flatMap_assoc] at htext
    exact htext
  have hspliced := spliced (r := r) (h.trans (List.tail_sublist ls)) hn hp (trailing.flatMap (·.2))
  rw [← hsource, ← List.flatMap_append] at hspliced
  refine ⟨_, trailing, applyEdits_of_spliced hspliced, ?_, htrailing⟩
  have hopen := all_closed_lex hclosed
  cases ls with
  | nil =>
    have hsource : source = trailing.flatMap (·.2) := hsource
    have hlex : Lexer.lex source = trailing := hlex
    rw [List.flatMap_nil, List.nil_append, ← hsource, hlex]
  | cons l ls =>
    obtain ⟨hl, hvalid⟩ := List.forall_mem_cons.mp hp.2
    have hfirst : r.tokens marked l = spelled [l.spelling] :=
      if_neg fun hmem => (List.nodup_cons.mp hn).1 (h.subset hmem)
    have hspaced := Lexer.respaced_append (l.trivia.map Token.word)
      (@respaced r marked ls hvalid (fun m hm => hsep m (List.mem_cons_of_mem _ hm)) trailing
        l.token.word hl.2)
    have hold : Lexer.lex source = l.trivia.map Token.word ++
        (l.token.word :: (spelled (ls.map Lexeme.spelling) ++ trailing)) := by
      rw [hlex]
      simp [spelled, Lexeme.spelling]
    have hnew : (l :: ls).flatMap (r.tokens marked) ++ trailing = l.trivia.map Token.word ++
        (l.token.word :: (ls.flatMap (r.tokens marked) ++ trailing)) := by
      rw [List.flatMap_cons, hfirst]
      simp [spelled, Lexeme.spelling]
    rw [hnew]
    rw [hold] at hopen
    refine @Lexer.lex_of_respaced _ _ hspaced [] hopen ?_
    rw [List.nil_append, ← hold, Lexer.flatMap_lex]

end Separator

/-- If two lists look the same, one of them without duplicates, one is made of the other by a
function. -/
theorem exists_map_of_map_eq {α β : Type} [DecidableEq α] {f g : α → β} {as : List α}
    (hn : as.Nodup) : ∀ {bs : List α}, bs.map f = as.map g →
      ∃ m : α → α, bs = as.map m ∧ (∀ a ∈ as, f (m a) = g a) ∧ ∀ a ∉ as, m a = a := by
  induction as with
  | nil => exact fun h => ⟨id, by simpa using h, by simp, fun _ _ => rfl⟩
  | cons a as ih =>
    intro bs h
    obtain ⟨b, bs, rfl, hb, hbs⟩ := List.map_eq_cons_iff.mp h
    obtain ⟨ha, has⟩ := List.nodup_cons.mp hn
    obtain ⟨m, rfl, hm, hid⟩ := ih has hbs
    refine ⟨Function.update m a b, ?_, ?_, ?_⟩
    · have hsame : as.map (Function.update m a b) = as.map m :=
        List.map_congr_left fun c hc => Function.update_of_ne (ne_of_mem_of_not_mem hc ha) _ _
      rw [List.map_cons, Function.update_self, hsame]
    · intro c hc
      by_cases hca : c = a
      · rw [hca, Function.update_self, hb]
      · rw [Function.update_of_ne hca]
        exact hm c ((List.mem_cons.mp hc).resolve_left hca)
    · intro c hc
      rw [List.mem_cons, not_or] at hc
      rw [Function.update_of_ne hc.1]
      exact hid c hc.2

theorem Parse.exists_recast_of_spelling {text : Text} {whole : List Lexeme} (eof : Token)
    (hn : whole.Nodup)
    (hspelling : (Parse.lexemes text).map Lexeme.spelling = whole.map Lexeme.spelling)
    (hsigned : ∀ l n, [l, n] <:+: whole →
      (Draft.isSignedNumber l.token n.token = true ↔ SpellsSigned l.spelling n.spelling)) :
    ∃ m h, Parse.lexemes text = whole.map m ∧
      Draft.Recast (.relaid m h) .file (documentDrafts eof whole) (Parse.drafts text) := by
  obtain ⟨m, hlexemes, hm, hself⟩ := exists_map_of_map_eq hn hspelling
  have hkind (l : Lexeme) : (m l).kind = l.kind := by
    by_cases hl : l ∈ whole
    · exact congrArg (·.2.1) (hm l hl)
    · rw [hself l hl]
  have hsame (l n : Lexeme) (hnext : [l, n] <:+: whole) :
      Draft.isSignedNumber (m l).token (m n).token = Draft.isSignedNumber l.token n.token := by
    have hnext' : [m l, m n] <:+: Parse.lexemes text := by
      rw [hlexemes]
      exact hnext.map m
    rw [Bool.eq_iff_iff, isSignedNumber_iff (Parse.placed_lexemes text) hnext', hsigned l n hnext,
      hm l (hnext.subset (by simp)), hm n (hnext.subset (by simp))]
  have hrecast := recast_documentDrafts hkind eof
    (Lexemes.ofTokens (tokenize text) text.size).eof hsame
  rw [← hlexemes] at hrecast
  exact ⟨m, hkind, hlexemes, hrecast⟩

end Maml
