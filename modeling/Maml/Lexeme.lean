import Maml.Token.Lexer

/-! Significant tokens with the trivia in front of them.

`Lexemes.ofTokens` divides tokens into lexemes and the trivia at the end. Input
ends before the first end-of-input token: that token is what an error at the end
reports. How tokens are grouped is told by rules (`Lexemes.grouped`). -/
namespace Maml

/-- A significant token and the trivia that stands in front of it. -/
structure Lexeme where
  trivia : List Token
  token : Token
  deriving DecidableEq, Repr

namespace Lexeme

def kind (l : Lexeme) : TokenKind := l.token.kind

def tokens (l : Lexeme) : List Token := l.trivia ++ [l.token]

end Lexeme

/-- The tokens of an input, grouped by the significant ones. -/
structure Lexemes where
  lexemes : List Lexeme
  /-- The trivia behind the last significant token. -/
  trailing : List Token
  /-- The token that stands for the end of the input. -/
  eof : Token
  deriving DecidableEq, Repr

namespace Lexemes

/-- Puts a token in front of lexemes and trailing trivia. -/
def push (t : Token) : List Lexeme × List Token → List Lexeme × List Token
  | (ls, trailing) =>
    if t.isTrivia then
      match ls with
      | [] => ([], t :: trailing)
      | l :: ls => ({ l with trivia := t :: l.trivia } :: ls, trailing)
    else
      (⟨[], t⟩ :: ls, trailing)

/-- The lexemes of tokens, and the trivia behind the last of them. -/
def group (tokens : List Token) : List Lexeme × List Token := tokens.foldr push ([], [])

/-- The input that ends before the first end-of-input token, or else at an offset. -/
def ofTokens (tokens : List Token) (stop : Nat) : Lexemes :=
  let (lexemes, trailing) := group (tokens.takeWhile (·.kind != .eof))
  ⟨lexemes, trailing, (tokens.find? (·.kind == .eof)).getD (.eof stop)⟩

/-! ## How tokens are grouped -/

/-- What tokens are grouped to, from the last of them to the first: lexemes and the trivia behind
them. -/
inductive Grouped : List Token → List Lexeme → List Token → Prop where
  | nil : Grouped [] [] []
  /-- Trivia that no significant token is behind. -/
  | trailing {t ts us} (ht : t.isTrivia = true) (h : Grouped ts [] us) :
      Grouped (t :: ts) [] (t :: us)
  /-- Trivia joins the lexeme behind it. -/
  | trivia {t ts l ls us} (ht : t.isTrivia = true) (h : Grouped ts (l :: ls) us) :
      Grouped (t :: ts) ({ l with trivia := t :: l.trivia } :: ls) us
  | token {t ts ls us} (ht : t.isTrivia = false) (h : Grouped ts ls us) :
      Grouped (t :: ts) (⟨[], t⟩ :: ls) us

theorem grouped (tokens : List Token) : Grouped tokens (group tokens).1 (group tokens).2 := by
  induction tokens with
  | nil => exact .nil
  | cons t ts ih =>
    have hpush : group (t :: ts) = push t (group ts) := rfl
    rw [hpush]
    revert ih
    rcases group ts with ⟨ls, us⟩
    intro ih
    cases ht : t.isTrivia with
    | true =>
      cases ls with
      | nil => simpa only [push, ht, if_true] using Grouped.trailing ht ih
      | cons l ls => simpa only [push, ht, if_true] using Grouped.trivia ht ih
    | false => simpa only [push, ht, if_neg Bool.false_ne_true] using Grouped.token ht ih

namespace Grouped
variable {ts us vs : List Token} {ls : List Lexeme}

theorem group_eq (h : Grouped ts ls us) : group ts = (ls, us) := by
  induction h with
  | nil => rfl
  | trailing ht _ ih => exact (congrArg (push _) ih).trans (if_pos ht)
  | trivia ht _ ih => exact (congrArg (push _) ih).trans (if_pos ht)
  | token ht _ ih => exact (congrArg (push _) ih).trans (if_neg (by simp [ht]))

theorem tokens_eq (h : Grouped ts ls us) : ls.flatMap Lexeme.tokens ++ us = ts := by
  induction h with
  | nil => rfl
  | @trailing t _ _ _ _ ih => exact congrArg (t :: ·) ih
  | @trivia t _ _ _ _ _ _ ih => exact congrArg (t :: ·) ih
  | @token t _ _ _ _ _ ih => exact congrArg (t :: ·) ih

theorem map_token (h : Grouped ts ls us) : ls.map Lexeme.token = ts.filter (!·.isTrivia) := by
  induction h with
  | nil => rfl
  | trailing ht _ ih => rw [List.filter_cons_of_neg (by simp [ht]), ← ih]
  | trivia ht _ ih => rw [List.filter_cons_of_neg (by simp [ht]), ← ih]; rfl
  | token ht _ ih => rw [List.filter_cons_of_pos (by simp [ht]), ← ih]; rfl

/-- Tokens of which trivia stays trivia are grouped alike. -/
theorem map {f : Token → Token} (hf : ∀ t, (f t).isTrivia = t.isTrivia) (h : Grouped ts ls us) :
    Grouped (ts.map f) (ls.map fun l => ⟨l.trivia.map f, f l.token⟩) (us.map f) := by
  induction h with
  | nil => exact .nil
  | trailing ht _ ih => exact .trailing ((hf _).trans ht) ih
  | trivia ht _ ih => exact .trivia ((hf _).trans ht) ih
  | token ht _ ih => exact .token ((hf _).trans ht) ih

theorem of_isTrivia (h : ∀ t ∈ ts, t.isTrivia = true) : Grouped ts [] ts := by
  induction ts with
  | nil => exact .nil
  | cons t ts ih =>
    obtain ⟨ht, hts⟩ := List.forall_mem_cons.mp h
    exact .trailing ht (ih hts)

/-- Trivia and a significant token are a lexeme. -/
theorem cons (h : Grouped us ls vs) (hts : ∀ t ∈ ts, t.isTrivia = true) {t : Token}
    (ht : t.isTrivia = false) : Grouped (ts ++ t :: us) (⟨ts, t⟩ :: ls) vs := by
  induction ts with
  | nil => exact .token ht h
  | cons u ts ih =>
    obtain ⟨hu, hts⟩ := List.forall_mem_cons.mp hts
    exact .trivia hu (ih hts)

end Grouped

/-- Grouping loses nothing. -/
theorem tokens_group (tokens : List Token) :
    (group tokens).1.flatMap Lexeme.tokens ++ (group tokens).2 = tokens :=
  (grouped tokens).tokens_eq

/-- Grouping keeps the significant tokens in order. -/
theorem map_token_group (tokens : List Token) :
    (group tokens).1.map Lexeme.token = tokens.filter (!·.isTrivia) :=
  (grouped tokens).map_token

theorem group_of_isTrivia {ts : List Token} (h : ∀ t ∈ ts, t.isTrivia = true) :
    group ts = ([], ts) :=
  (Grouped.of_isTrivia h).group_eq

theorem group_append_cons {ts : List Token} (h : ∀ t ∈ ts, t.isTrivia = true) {t : Token}
    (ht : t.isTrivia = false) (us : List Token) :
    group (ts ++ t :: us) = (⟨ts, t⟩ :: (group us).1, (group us).2) :=
  ((grouped us).cons h ht).group_eq

theorem group_map {f : Token → Token} (hf : ∀ t, (f t).isTrivia = t.isTrivia) (ts : List Token) :
    group (ts.map f) =
      ((group ts).1.map fun l => ⟨l.trivia.map f, f l.token⟩, (group ts).2.map f) :=
  ((grouped ts).map hf).group_eq

end Lexemes

end Maml
