import Maml.Proofs.Words

/-! Texts that are cut between tokens.

1. A rule `SurvivesCut` if it takes the same from a text that is cut off anywhere behind
   what it takes, although it may have looked further. Every rule of the lexer does
   (`scan_of_cut`).
2. So the tokens of a text that is cut between two of them are those in front of the cut
   and those behind it (`lex_cut`), the latter in other places (`tokenize_cut`). Tokens that
   follow one another are the tokens of their own text (`exists_shift_tokenize`). -/
namespace Maml

/-! ## Tokens in other places -/

def Span.shift (k : Nat) (s : Span) : Span := ⟨s.start + k, s.stop + k⟩

def Token.shift (k : Nat) (t : Token) : Token := { t with span := t.span.shift k }

/-- Whether an offset is at an end of a text or behind one of its tokens. -/
def IsTokenBoundary (source : Text) (k : Nat) : Prop :=
  k = 0 ∨ k = source.size ∨ ∃ t ∈ tokenize source, t.span.stop = k

namespace Lexer

/-! ## Rules -/

/-- Whether a rule takes the same from a text that is cut off behind what it takes. -/
def SurvivesCut (rule : Text → Text) : Prop :=
  ∀ cs tail : Text, rule (cs ++ tail) <+: cs → rule cs = rule (cs ++ tail)

theorem survivesCut_takeWhile (p : Char → Bool) : SurvivesCut (List.takeWhile p) := by
  intro cs tail h
  induction cs with
  | nil => exact (List.prefix_nil.mp h).symm
  | cons c cs ih =>
    rw [List.cons_append, List.takeWhile_cons] at h ⊢
    split at h
    · rename_i hc
      rw [List.takeWhile_cons, if_pos hc, if_pos hc, ih (List.cons_prefix_cons.mp h).2]
    · rename_i hc
      rw [List.takeWhile_cons, if_neg hc, if_neg hc]

theorem survivesCut_digits : SurvivesCut digits := survivesCut_takeWhile _

theorem SurvivesCut.append {f g : Text → Text} (hf : SurvivesCut f) (hg : SurvivesCut g) :
    SurvivesCut fun cs => f cs ++ g (cs.drop (f cs).length) := by
  intro cs tail h
  simp only at h ⊢
  have hfirst : f (cs ++ tail) <+: cs := (List.prefix_append _ _).trans h
  rw [hf cs tail hfirst]
  obtain ⟨rest, hrest⟩ := hfirst
  generalize f (cs ++ tail) = taken at h hrest
  subst hrest
  rw [List.append_assoc, List.drop_left] at h ⊢
  rw [List.drop_left, hg rest tail ((List.prefix_append_right_inj _).mp h)]

theorem startsWithDigit_of_cut {cs tail : Text} (h : digits (cs ++ tail) <+: cs) :
    startsWithDigit cs = startsWithDigit (cs ++ tail) := by
  cases cs with
  | cons => rfl
  | nil =>
    have hnone : digits tail = [] := List.prefix_nil.mp h
    cases tail with
    | nil => rfl
    | cons c tail =>
      cases hc : c.isDigit with
      | false => exact hc.symm
      | true => simp [digits, hc] at hnone

theorem startsWithDigit_eq_false {cs tail : Text} (h : ¬ startsWithDigit (cs ++ tail) = true) :
    ¬ startsWithDigit cs = true := by
  cases cs with
  | nil => exact Bool.false_ne_true
  | cons => exact h

theorem survivesCut_fraction : SurvivesCut fraction := by
  intro cs tail h
  cases cs with
  | nil => exact (List.prefix_nil.mp h).symm
  | cons c cs =>
    by_cases hc : c = '.'
    · subst hc
      rw [List.cons_append, fraction] at h ⊢
      rw [fraction]
      split at h
      · rename_i hdigit
        have hrest := (List.cons_prefix_cons.mp h).2
        rw [if_pos hdigit, startsWithDigit_of_cut hrest, if_pos hdigit, survivesCut_digits _ _ hrest]
      · rename_i hdigit
        rw [if_neg hdigit, if_neg (startsWithDigit_eq_false hdigit)]
    · rw [List.cons_append, fraction.eq_2 _ (by simp [hc]), fraction.eq_2 _ (by simp [hc])]

theorem survivesCut_signedDigits : SurvivesCut signedDigits := by
  intro cs tail h
  cases cs with
  | nil => exact (List.prefix_nil.mp h).symm
  | cons c cs =>
    rw [List.cons_append, signedDigits] at h ⊢
    rw [signedDigits]
    split at h
    · rename_i hsign
      rw [if_pos hsign, if_pos hsign]
      split at h
      · rename_i hdigit
        have hrest := (List.cons_prefix_cons.mp h).2
        rw [if_pos hdigit, startsWithDigit_of_cut hrest, if_pos hdigit, survivesCut_digits _ _ hrest]
      · rename_i hdigit
        rw [if_neg hdigit, if_neg (startsWithDigit_eq_false hdigit)]
    · rename_i hsign
      rw [if_neg hsign, if_neg hsign]
      exact survivesCut_digits _ _ h

theorem survivesCut_exponent : SurvivesCut exponent := by
  intro cs tail h
  cases cs with
  | nil => exact (List.prefix_nil.mp h).symm
  | cons c cs =>
    rw [List.cons_append, exponent] at h ⊢
    rw [exponent]
    by_cases hletter : (c == 'e' || c == 'E') = true
    · have hdigits : signedDigits (cs ++ tail) <+: cs := by
        split at h
        · exact (List.cons_prefix_cons.mp h).2
        · rename_i hnone
          have hnil : signedDigits (cs ++ tail) = [] := by simpa [hletter] using hnone
          rw [hnil]
          exact List.nil_prefix
      rw [survivesCut_signedDigits _ _ hdigits]
    · rw [if_neg (by simp [hletter]), if_neg (by simp [hletter])]

theorem number_eq (cs : Text) :
    number cs = digits cs ++ fraction (cs.drop (digits cs).length) ++
      exponent (cs.drop (digits cs ++ fraction (cs.drop (digits cs).length)).length) := by
  rw [List.length_append, ← List.drop_drop]
  rfl

theorem survivesCut_number : SurvivesCut number := by
  intro cs tail h
  rw [number_eq, number_eq]
  rw [number_eq] at h
  exact (survivesCut_digits.append survivesCut_fraction).append survivesCut_exponent cs tail h

/-! ## Strings -/

theorem survivesCut_openBody : SurvivesCut openBody := by
  intro cs tail h
  induction cs using unit_induction with
  | nil => exact (List.prefix_nil.mp h).symm
  | slash =>
    -- whatever the backslash would take with it is behind the cut
    cases tail with
    | nil => rfl
    | cons d tail =>
      cases hbreak : isLineBreak d with
      | true => exact (openBody_broken hbreak tail).symm
      | false =>
        rw [List.singleton_append, openBody_escape hbreak] at h
        simp at h
  | broken c cs hbreak => exact (openBody_broken hbreak _).trans (openBody_broken hbreak _).symm
  | escape c cs hbreak ih =>
    simp only [List.cons_append, openBody_escape hbreak, List.cons_prefix_cons, true_and] at h ⊢
    rw [ih h]
  | plain c cs hslash ih =>
    rw [List.cons_append, openBody_plain hslash] at h ⊢
    rw [openBody_plain hslash]
    split
    · rfl
    · rename_i hgoes
      rw [if_neg hgoes] at h
      rw [ih (List.cons_prefix_cons.mp h).2]

theorem string_of_cut {cs tail : Text} (h : (string (cs ++ tail)).2 <+: cs) :
    string cs = string (cs ++ tail) := by
  by_cases hquotes : ∃ ds, cs ++ tail = '"' :: '"' :: ds
  · -- a multiline string: the two quotes are in front of the cut
    obtain ⟨ds, hds⟩ := hquotes
    have hfront : ∃ es, cs = '"' :: '"' :: es := by
      rw [hds, string] at h
      cases htriple : tripleBody ds <;> rw [htriple] at h <;> obtain ⟨rest, rfl⟩ := h <;>
        exact ⟨_, rfl⟩
    obtain ⟨es, rfl⟩ := hfront
    rw [List.cons_append, List.cons_append, string] at h ⊢
    rw [string]
    cases htriple : tripleBody (es ++ tail) with
    | some body =>
      have hbody : body <+: es := by simpa [htriple] using h
      obtain ⟨rest, rfl⟩ := hbody
      rw [tripleBody_body_append htriple]
    | none =>
      -- it takes everything, so nothing is cut off
      have htail : tail = [] := by
        have hlength := h.length_le
        simp only [htriple, List.length_cons, List.length_append] at hlength
        exact List.eq_nil_of_length_eq_zero (by omega)
      subst htail
      rw [List.append_nil] at htriple ⊢
      rw [htriple]
  · have hne : ∀ ds, cs ++ tail = '"' :: '"' :: ds → False := fun ds h => hquotes ⟨ds, h⟩
    have hne' : ∀ ds, cs = '"' :: '"' :: ds → False := by
      rintro ds rfl
      exact hne (ds ++ tail) rfl
    rw [string.eq_2 _ hne] at h ⊢
    rw [string.eq_2 _ hne']
    cases hclosed : closedBody (cs ++ tail) with
    | some body =>
      have hbody : body <+: cs := by simpa [hclosed] using h
      obtain ⟨rest, rfl⟩ := hbody
      rw [closedBody_body_append hclosed]
    | none =>
      -- what would close it in front of the cut would close it in the whole text too
      have hopen : closedBody cs = none := by
        cases hcs : closedBody cs with
        | none => rfl
        | some body => simp [closedBody_append hcs] at hclosed
      rw [hclosed] at h
      rw [hopen, survivesCut_openBody _ _ h]

/-! ## Tokens -/

/-- A token keeps its kind and its characters if the text is cut off behind them. -/
theorem scan_of_cut {c : Char} {cs tail : Text} (h : (scan c (cs ++ tail)).2 <+: cs) :
    scan c cs = scan c (cs ++ tail) := by
  cases scanRule c with
  | mark _ hscan | bad hscan => rw [hscan, hscan]
  | comment _ hscan | blank _ hscan | name _ hscan =>
    rw [hscan] at h
    rw [hscan, hscan, survivesCut_takeWhile _ _ _ h]
  | quote _ hscan =>
    rw [hscan] at h
    rw [hscan, hscan, string_of_cut h]
  | sign _ hscan =>
    rw [hscan] at h
    rw [hscan, hscan]
    by_cases hdigit : startsWithDigit (cs ++ tail) = true
    · rw [if_pos hdigit] at h
      have hdigits : digits (cs ++ tail) <+: cs := by
        rw [number_eq, List.append_assoc] at h
        exact (List.prefix_append _ _).trans h
      rw [startsWithDigit_of_cut hdigits, if_pos hdigit, if_pos hdigit, survivesCut_number _ _ h]
    · rw [if_neg hdigit, if_neg (startsWithDigit_eq_false hdigit)]
  | digit _ hscan =>
    rw [hscan] at h
    rw [hscan, hscan, survivesCut_number _ _ h]

/-- Tokens in front of a cut and tokens behind it are the tokens of the two texts. -/
theorem lex_cut {text : Text} {front back : List (TokenKind × Text)}
    (h : lex text = front ++ back) :
    lex (front.flatMap (·.2)) = front ∧ lex (back.flatMap (·.2)) = back := by
  induction front generalizing text with
  | nil =>
    have hback : back.flatMap (·.2) = text := by
      rw [← flatMap_lex text, h, List.nil_append]
    refine ⟨?_, by rw [hback, h, List.nil_append]⟩
    rw [List.flatMap_nil, lex]
  | cons t front ih =>
    cases text with
    | nil => simp [lex] at h
    | cons c cs =>
      rw [lex_cons, List.cons_append] at h
      obtain ⟨rfl, hrest⟩ := List.cons.inj h
      obtain ⟨hfront, hback⟩ := ih hrest
      refine ⟨?_, hback⟩
      have hbehind : (scan c cs).2 ++ front.flatMap (·.2) ++ back.flatMap (·.2) = cs := by
        rw [List.append_assoc, ← List.flatMap_append, ← hrest, flatMap_lex]
        exact List.prefix_iff_eq_append.mp (scan_isPrefix c cs)
      have hcut : scan c ((scan c cs).2 ++ front.flatMap (·.2)) = scan c cs := by
        have hscan := @scan_of_cut c ((scan c cs).2 ++ front.flatMap (·.2))
          (back.flatMap (·.2)) (by rw [hbehind]; exact List.prefix_append _ _)
        rwa [hbehind] at hscan
      have htoken : lex (c :: ((scan c cs).2 ++ front.flatMap (·.2))) =
          ((scan c cs).1, c :: (scan c cs).2) :: lex (front.flatMap (·.2)) := lex_of_scan hcut
      rw [List.flatMap_cons, List.cons_append, htoken, hfront]

/-! ## Places -/

@[simp] theorem map_shift_place (k o : Nat) (ts : List (TokenKind × Text)) :
    (place o ts).map (Token.shift k) = place (o + k) ts := by
  induction ts generalizing o with
  | nil => rfl
  | cons t ts ih =>
    rw [place, List.map_cons, ih, place]
    simp only [Token.shift, Span.shift, Nat.add_right_comm]

theorem place_append_size (o : Nat) (ts us : List (TokenKind × Text)) :
    place o (ts ++ us) = place o ts ++ place (o + Text.size (ts.flatMap (·.2))) us := by
  induction ts generalizing o with
  | nil => rfl
  | cons t ts ih =>
    rw [List.cons_append, place, ih, place, List.flatMap_cons, Text.size_append, Nat.add_assoc]
    rfl

theorem exists_append_of_place {o : Nat} {ts : List (TokenKind × Text)} {front back : List Token}
    (h : place o ts = front ++ back) : ∃ us vs, ts = us ++ vs ∧ place o us = front ∧
      place (o + Text.size (us.flatMap (·.2))) vs = back := by
  have hlength (o : Nat) (us : List (TokenKind × Text)) : (place o us).length = us.length := by
    rw [← List.length_map (f := Token.text), map_text_place, List.length_map]
  have hle : front.length ≤ ts.length := by
    rw [← hlength o ts, h, List.length_append]
    exact Nat.le_add_right _ _
  have hsplit := place_append_size o (ts.take front.length) (ts.drop front.length)
  rw [List.take_append_drop, h] at hsplit
  have hfront : front.length = (place o (ts.take front.length)).length := by
    rw [hlength, List.length_take, Nat.min_eq_left hle]
  obtain ⟨hus, hvs⟩ := List.append_inj hsplit hfront
  exact ⟨_, _, (List.take_append_drop front.length ts).symm, hus.symm, hvs.symm⟩

theorem exists_append_of_mem_place {o : Nat} {ts : List (TokenKind × Text)} {t : Token}
    (h : t ∈ place o ts) : ∃ front back, ts = front ++ (t.kind, t.text) :: back ∧
      t.span = ⟨o + Text.size (front.flatMap (·.2)),
        o + Text.size (front.flatMap (·.2)) + t.text.size⟩ := by
  induction ts generalizing o with
  | nil => simp [place] at h
  | cons u ts ih =>
    rw [place, List.mem_cons] at h
    rcases h with rfl | h
    · exact ⟨[], ts, rfl, rfl⟩
    · obtain ⟨front, back, rfl, hspan⟩ := ih h
      refine ⟨u :: front, back, rfl, ?_⟩
      rw [hspan, List.flatMap_cons, Text.size_append, Nat.add_assoc, Nat.add_assoc]

end Lexer

open Lexer

theorem IsTokenBoundary.exists_append {source : Text} {k : Nat} (h : IsTokenBoundary source k) :
    ∃ front back, lex source = front ++ back ∧ k = Text.size (front.flatMap (·.2)) := by
  rcases h with rfl | rfl | ⟨t, ht, rfl⟩
  · exact ⟨[], lex source, rfl, rfl⟩
  · exact ⟨lex source, [], (List.append_nil _).symm, by rw [flatMap_lex]⟩
  · obtain ⟨front, back, hlex, hspan⟩ := exists_append_of_mem_place ht
    refine ⟨front ++ [(t.kind, t.text)], back, by rw [hlex, List.append_assoc]; rfl, ?_⟩
    rw [hspan, List.flatMap_append, Text.size_append]
    simp

/-- Tokens that follow one another in a text are the tokens of their own text, moved. -/
theorem exists_shift_tokenize {source : Text} {front mid back : List Token}
    (h : tokenize source = front ++ (mid ++ back)) :
    ∃ k, (tokenize (mid.flatMap Token.text)).map (Token.shift k) = mid := by
  obtain ⟨us, vs, hlex, -, hbehind⟩ := exists_append_of_place h
  obtain ⟨ms, ws, rfl, hmid, -⟩ := exists_append_of_place hbehind
  have htext : mid.flatMap Token.text = ms.flatMap (·.2) := by
    rw [← hmid, List.flatMap_def, map_text_place, ← List.flatMap_def]
  have hms : lex (ms.flatMap (·.2)) = ms := (lex_cut (lex_cut hlex).2).1
  refine ⟨0 + Text.size (us.flatMap (·.2)), ?_⟩
  rw [tokenize, htext, hms, map_shift_place, Nat.zero_add, hmid]

/-- A text that is cut at an end or behind a token is divided into the tokens in front of the cut
and those behind it; each of its tokens, taken as a text, is divided into itself. -/
theorem tokenize_cut (source : Text) :
    (∀ k, IsTokenBoundary source k → ∃ a b, source.splitAt? k = some (a, b) ∧
      tokenize source = tokenize a ++ (tokenize b).map (Token.shift k)) ∧
    ∀ t ∈ tokenize source, tokenize t.text = [⟨t.kind, ⟨0, t.text.size⟩, t.text⟩] := by
  constructor
  · intro k hk
    obtain ⟨front, back, hlex, rfl⟩ := hk.exists_append
    obtain ⟨hfront, hback⟩ := lex_cut hlex
    refine ⟨front.flatMap (·.2), back.flatMap (·.2), ?_, ?_⟩
    · rw [← flatMap_lex source, hlex, List.flatMap_append]
      exact Text.splitAt?_size _ _
    · rw [tokenize, tokenize, tokenize, hfront, hback, hlex, place_append_size, map_shift_place,
        Nat.zero_add]
  · intro t ht
    obtain ⟨front, back, hlex, -⟩ := exists_append_of_mem_place ht
    -- the text is cut in front of the token, and again behind it
    have hback := (lex_cut hlex).2
    have htoken := (@lex_cut _ [(t.kind, t.text)] _ hback).1
    have hlone : lex t.text = [(t.kind, t.text)] := by simpa using htoken
    rw [tokenize, hlone, place, place, Nat.zero_add]

/-- In `"a,-1.` there is a boundary behind the string that is never closed, and one behind the
number, although the lexer looks past both. -/
theorem tokenize_cut_open_string :
    IsTokenBoundary ['"', 'a', ',', '-', '1', '.'] 2 ∧
      (∃ a b, Text.splitAt? ['"', 'a', ',', '-', '1', '.'] 2 = some (a, b) ∧
        tokenize ['"', 'a', ',', '-', '1', '.'] =
          tokenize a ++ (tokenize b).map (Token.shift 2)) ∧
      (⟨.number, ⟨3, 5⟩, ['-', '1']⟩ : Token) ∈ tokenize ['"', 'a', ',', '-', '1', '.'] ∧
      tokenize ['-', '1'] = [⟨.number, ⟨0, 2⟩, ['-', '1']⟩] := by
  have hboundary : IsTokenBoundary ['"', 'a', ',', '-', '1', '.'] 2 :=
    .inr (.inr ⟨⟨.unterminatedString, ⟨0, 2⟩, ['"', 'a']⟩, by decide +kernel, rfl⟩)
  have hnumber : (⟨.number, ⟨3, 5⟩, ['-', '1']⟩ : Token) ∈
      tokenize ['"', 'a', ',', '-', '1', '.'] := by decide +kernel
  exact ⟨hboundary, (tokenize_cut _).1 2 hboundary, hnumber, (tokenize_cut _).2 _ hnumber⟩

end Maml
