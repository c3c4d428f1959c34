import Maml.Proofs.Changes
import Maml.Proofs.Cuts
import Maml.Proofs.Offsets
import Maml.Proofs.Shifting

/-! Other tokens in the place of one.

If a text has the tokens of another, with some in the place of one, what is read of it are the
lexemes in front of that one, those of the new tokens, and those behind, shifted
(`Lexemes.ofTokens_written`). -/
namespace Maml

namespace Lexemes

theorem ofTokens_tokenize {source : Text} {ls : List Lexeme} {trailing : List Token}
    (h : tokenize source = ls.flatMap Lexeme.tokens ++ trailing) (hls : ∀ l ∈ ls, l.Valid)
    (htrailing : ∀ t ∈ trailing, t.isTrivia = true) :
    ofTokens (tokenize source) source.size = ⟨ls, trailing, .eof source.size⟩ := by
  have hfind : (tokenize source).find? (·.kind == .eof) = none :=
    List.find?_eq_none.mpr fun t ht => by simpa using kind_ne_eof_of_mem_tokenize ht
  rw [ofTokens, hfind, takeWhile_tokenize, h, group_of_valid hls htrailing]
  rfl

end Lexemes

/-- The tokens in front of a significant one and those behind it. -/
structure Divided (source : Text) (front : List Lexeme) (l : Lexeme) (back : List Lexeme)
    (ts us : List (TokenKind × Text)) (trailing : List Token) : Prop where
  lex_eq : Lexer.lex source = ts ++ l.token.word :: us
  span_eq : l.token.span = ⟨Text.size (ts.flatMap (·.2)),
    Text.size (ts.flatMap (·.2)) + l.token.text.size⟩
  place_front : Lexer.place 0 ts = front.flatMap Lexeme.tokens ++ l.trivia
  place_back : Lexer.place l.token.span.stop us = back.flatMap Lexeme.tokens ++ trailing
  valid : ∀ m ∈ front ++ l :: back, m.Valid
  isTrivia : ∀ t ∈ trailing, t.isTrivia = true
  input : Lexemes.ofTokens (tokenize source) source.size =
    ⟨front ++ l :: back, trailing, .eof source.size⟩

theorem Parse.exists_divided {source : Text} {front back : List Lexeme} {l : Lexeme}
    (h : lexemes source = front ++ l :: back) :
    ∃ ts us trailing, Divided source front l back ts us trailing := by
  have hgroup := Lexemes.tokens_group (tokenize source)
  rw [← lexemes_eq_group, h, List.flatMap_append, List.flatMap_cons, Lexeme.tokens] at hgroup
  have hplace : Lexer.place 0 (Lexer.lex source) = (front.flatMap Lexeme.tokens ++ l.trivia) ++
      l.token :: (back.flatMap Lexeme.tokens ++ (Lexemes.group (tokenize source)).2) := by
    refine hgroup.symm.trans ?_
    simp
  obtain ⟨ts, vs, hlex, hts, hvs⟩ := Lexer.exists_append_of_place hplace
  have hvalid := (placed_lexemes source).2
  rw [h] at hvalid
  have htrivia := isTrivia_of_mem_trailing (tokenize source)
  obtain _ | ⟨⟨kind, x⟩, us⟩ := vs
  · exact absurd hvs nofun
  obtain ⟨htoken, hus⟩ := List.cons.inj hvs
  rw [Nat.zero_add] at htoken hus
  refine ⟨ts, us, (Lexemes.group (tokenize source)).2, ?_, ?_, hts, ?_, hvalid, htrivia, ?_⟩
  · rw [hlex, ← htoken]
    rfl
  · rw [← htoken]
  · rw [← htoken]
    exact hus
  · refine Lexemes.ofTokens_tokenize ?_ hvalid htrivia
    exact hplace.trans (by simp [Lexeme.tokens])

namespace Divided
variable {source text : Text} {front back new : List Lexeme} {l : Lexeme}
  {ts us ws : List (TokenKind × Text)} {trailing : List Token} {k : Nat}

theorem source_eq (h : Divided source front l back ts us trailing) :
    source = ts.flatMap (·.2) ++ (l.token.text ++ us.flatMap (·.2)) := by
  rw [← Lexer.flatMap_lex source, h.lex_eq]
  simp [Token.word]

theorem stop_eq (h : Divided source front l back ts us trailing) :
    l.token.span.stop = l.token.span.start + l.token.text.size := by
  rw [h.span_eq]

theorem slice_eq (h : Divided source front l back ts us trailing) :
    l.token.span.slice source = .ok l.token.text := by
  have hslice := Text.slice?_size (ts.flatMap (·.2)) l.token.text (us.flatMap (·.2))
  rw [List.append_assoc, ← h.source_eq] at hslice
  rw [h.span_eq, Span.slice, hslice]

theorem tokens_append_place (h : Divided source front l back ts us trailing)
    (ws : List (TokenKind × Text)) : l.tokens ++ Lexer.place l.token.span.stop ws =
      l.trivia ++ Lexer.place l.token.span.start (l.token.word :: ws) := by
  have htoken : l.token = ⟨l.token.kind, ⟨l.token.span.start,
      l.token.span.start + l.token.text.size⟩, l.token.text⟩ := by rw [← h.stop_eq]
  rw [Lexeme.tokens, Token.word, Lexer.place, ← htoken, h.stop_eq, List.append_assoc]
  rfl

theorem tokenize_eq (h : Divided source front l back ts us trailing) :
    tokenize source = Lexer.place 0 ts ++ l.token :: Lexer.place l.token.span.stop us := by
  have htoken : l.token = ⟨l.token.kind, ⟨Text.size (ts.flatMap (·.2)),
      Text.size (ts.flatMap (·.2)) + l.token.text.size⟩, l.token.text⟩ := by rw [← h.span_eq]
  rw [tokenize, h.lex_eq, Lexer.place_append_size, Token.word, Lexer.place, Nat.zero_add, ← htoken,
    h.span_eq]

theorem tokenize_written (h : Divided source front l back ts us trailing)
    (hlex : Lexer.lex text = ts ++ (ws ++ us))
    (hsize : Text.size (ws.flatMap (·.2)) = l.token.text.size + k) :
    tokenize text = Lexer.place 0 ts ++ (Lexer.place l.token.span.start ws ++
      (Lexer.place l.token.span.stop us).map (Token.shift k)) := by
  rw [tokenize, hlex, Lexer.place_append_size, Lexer.place_append_size, hsize, Nat.zero_add,
    Lexer.map_shift_place, h.span_eq, Nat.add_assoc]

theorem ofTokens_written (h : Divided source front l back ts us trailing)
    (hlex : Lexer.lex text = ts ++ (ws ++ us))
    (hsize : Text.size (ws.flatMap (·.2)) = l.token.text.size + k)
    (hnew : new.flatMap Lexeme.tokens = l.trivia ++ Lexer.place l.token.span.start ws)
    (hvalid : ∀ m ∈ new, m.Valid) : Lexemes.ofTokens (tokenize text) text.size =
      ⟨front ++ (new ++ back.map (Lexeme.shift k)), trailing.map (Token.shift k),
        .eof (source.size + k)⟩ := by
  have hlength : text.size = source.size + k := by
    rw [← Lexer.flatMap_lex text, ← Lexer.flatMap_lex source, hlex, h.lex_eq]
    simp only [List.flatMap_append, List.flatMap_cons, Text.size_append, hsize, Token.word]
    omega
  have hshift : (back.map (Lexeme.shift k)).flatMap Lexeme.tokens =
      (back.flatMap Lexeme.tokens).map (Token.shift k) := by
    rw [List.flatMap_map, List.map_flatMap]
    exact List.flatMap_congr fun m _ => Lexeme.tokens_shift k m
  obtain ⟨hfront, hback⟩ := List.forall_mem_append.mp h.valid
  have hmoved : ∀ m ∈ back, (m.shift k).Valid := fun m hm =>
    have hm := hback m (List.mem_cons_of_mem _ hm)
    ⟨List.forall_mem_map.mpr hm.1, hm.2⟩
  rw [← hlength]
  refine Lexemes.ofTokens_tokenize ?_ (List.forall_mem_append.mpr ⟨hfront,
    List.forall_mem_append.mpr ⟨hvalid, List.forall_mem_map.mpr hmoved⟩⟩)
    (List.forall_mem_map.mpr h.isTrivia)
  rw [h.tokenize_written hlex hsize, h.place_front, h.place_back]
  simp [hnew, hshift]

theorem drafts_written (h : Divided source front l back ts us trailing)
    (hlex : Lexer.lex text = ts ++ (ws ++ us))
    (hsize : Text.size (ws.flatMap (·.2)) = l.token.text.size + k)
    (hnew : new.flatMap Lexeme.tokens = l.trivia ++ Lexer.place l.token.span.start ws)
    (hvalid : ∀ m ∈ new, m.Valid) : Parse.drafts text =
      documentDrafts (.eof (source.size + k))
        (front ++ (new ++ back.map (Lexeme.shift k))) := by
  rw [Parse.drafts, Parse.lexemes, h.ofTokens_written hlex hsize hnew hvalid]

end Divided

end Maml
