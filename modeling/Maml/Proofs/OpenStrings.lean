import Mathlib.Data.List.TakeWhile
import Maml.Proofs.Splicing

/-! Strings whose closing quotes are written.

What `Quoted.closer` puts behind an unterminated string closes it there: the string with its closer
is one token in front of anything that could stand behind it (`closer_completes`).

1. A multiline string has no three quotes in a row, so those that end it are found at its end, and
   those that it ends with already count (`tripleBody_append_quotes`).
2. A quoted string ends with a backslash of its own exactly if the number of backslashes at its end
   is odd; another backslash is then a pair with it (`closedBody_openBody`). -/
namespace Maml

open Quoted

namespace Quoted

/-- A character at the front of a text counts at its end only if the text is made of it. -/
theorem countAtEnd_cons {c d : Char} {text : Text} (h : d ≠ c ∨ ∃ e ∈ text, e ≠ c) :
    countAtEnd c (d :: text) = countAtEnd c text := by
  rw [countAtEnd, countAtEnd, List.reverse_cons, List.takeWhile_append]
  split
  · rename_i hall
    have hself : text.reverse.takeWhile (· == c) = text.reverse :=
      (List.takeWhile_prefix _).eq_of_length hall
    have htext : ∀ e ∈ text, e = c := by
      intro e he
      simpa using List.takeWhile_eq_self_iff.mp hself e (List.mem_reverse.mpr he)
    have hd : d ≠ c := h.resolve_right fun ⟨e, he, hne⟩ => hne (htext e he)
    rw [List.takeWhile_cons_of_neg (by simpa using hd), List.append_nil, hself]
  · rfl

theorem countAtEnd_replicate (c : Char) (n : Nat) : countAtEnd c (List.replicate n c) = n := by
  have hall : ∀ e ∈ List.replicate n c, (e == c) = true := fun e he => by
    simpa using (List.mem_replicate.mp he).2
  rw [countAtEnd, List.reverse_replicate, List.takeWhile_eq_self_iff.mpr hall,
    List.length_replicate]

/-- What closes the rest of a quoted string behind its first quote. -/
def closing (body : Text) : Text :=
  if countAtEnd '\\' body % 2 = 1 then ['\\', '"'] else ['"']

/-- What closes a multiline string behind its three quotes. -/
def closingQuotes (body : Text) : Text := Lexer.tripleQuote.drop (min (countAtEnd '"' body) 2)

theorem closing_cons {c : Char} (h : c ≠ '\\') (body : Text) : closing (c :: body) = closing body := by
  rw [closing, countAtEnd_cons (.inl h), closing]

/-- A backslash and the character that it takes leave it even or odd how many backslashes are at
the end. -/
theorem countAtEnd_escape (c : Char) (body : Text) :
    countAtEnd '\\' ('\\' :: c :: body) % 2 = countAtEnd '\\' body % 2 := by
  by_cases hall : ∃ e ∈ c :: body, e ≠ '\\'
  · rw [countAtEnd_cons (.inr hall)]
    by_cases hc : c = '\\'
    · obtain ⟨e, he, hne⟩ := hall
      rw [countAtEnd_cons (.inr ⟨e, (List.mem_cons.mp he).resolve_left (hc ▸ hne), hne⟩)]
    · rw [countAtEnd_cons (.inl hc)]
  · -- all are backslashes
    have hbody : '\\' :: c :: body = List.replicate (body.length + 2) '\\' := by
      refine List.eq_replicate_iff.mpr ⟨rfl, fun e he => ?_⟩
      by_contra hne
      exact hall ⟨e, (List.mem_cons.mp he).resolve_left hne, hne⟩
    have hrest : body = List.replicate body.length '\\' :=
      List.eq_replicate_iff.mpr ⟨rfl, fun e he => by
        by_contra hne
        exact hall ⟨e, List.mem_cons_of_mem _ he, hne⟩⟩
    rw [hbody, countAtEnd_replicate]
    conv_rhs => rw [hrest, countAtEnd_replicate]
    omega

theorem closing_escape (c : Char) (body : Text) :
    closing ('\\' :: c :: body) = closing body := by
  rw [closing, countAtEnd_escape, closing]

end Quoted

namespace Lexer

/-! ## Closed strings -/

/-- The quotes that are missing at the end of a multiline string end it there. -/
theorem tripleBody_append_quotes {cs : Text} (h : tripleBody cs = none) :
    tripleBody (cs ++ closingQuotes cs) = some (cs ++ closingQuotes cs) := by
  induction cs using tripleBody.induct with
  | case1 => simp [tripleBody] at h
  | case2 => rfl
  | case3 c cs hne ih =>
    have hrest : tripleBody cs = none := by
      rw [tripleBody.eq_3 _ _ hne, Option.map_eq_none_iff] at h
      exact h
    by_cases hall : ∃ e ∈ c :: cs, e ≠ '"'
    · -- the quotes at the end are behind a character that is none
      have hsame : closingQuotes (c :: cs) = closingQuotes cs := by
        rw [closingQuotes, countAtEnd_cons, closingQuotes]
        obtain ⟨e, he, hquote⟩ := hall
        by_cases hc : c = '"'
        · exact .inr ⟨e, (List.mem_cons.mp he).resolve_left (hc ▸ hquote), hquote⟩
        · exact .inl hc
      rw [hsame, List.cons_append, tripleBody.eq_3, ih hrest]
      · rfl
      · rintro tail rfl hquotes
        obtain ⟨e, he, hquote⟩ := hall
        have he : e ∈ cs := (List.mem_cons.mp he).resolve_left hquote
        rcases cs with _ | ⟨d, _ | ⟨d', ds⟩⟩
        · exact absurd he List.not_mem_nil
        · obtain ⟨rfl, -⟩ := List.cons.inj hquotes
          exact hquote (List.mem_singleton.mp he)
        · obtain ⟨rfl, hquotes⟩ := List.cons.inj hquotes
          obtain ⟨rfl, -⟩ := List.cons.inj hquotes
          exact hne ds rfl rfl
    · -- there are one or two quotes
      have hquotes : ∀ e ∈ c :: cs, e = '"' := fun e he => by
        by_contra hquote
        exact hall ⟨e, he, hquote⟩
      obtain ⟨rfl, hcs⟩ := List.forall_mem_cons.mp hquotes
      rcases cs with _ | ⟨d, _ | ⟨d', ds⟩⟩
      · rfl
      · obtain rfl := hcs d List.mem_cons_self
        rfl
      · obtain rfl := hcs d List.mem_cons_self
        obtain rfl := hcs d' (by simp)
        exact absurd rfl (hne ds rfl)

/-- A quoted string that is not closed is closed at its end by another quote, with a backslash in
front if it ends with one that would take the quote. -/
theorem closedBody_openBody {cs : Text} (h : closedBody cs = none) (rest : Text) :
    closedBody (openBody cs ++ closing (openBody cs) ++ rest) =
      some (openBody cs ++ closing (openBody cs)) := by
  induction cs using unit_induction with
  | nil | slash => rfl
  | broken c cs hbreak =>
    -- the backslash in front of a line break takes nothing
    rw [openBody_broken hbreak]
    rfl
  | escape c cs hbreak ih =>
    rw [closedBody_escape hbreak, Option.map_eq_none_iff] at h
    rw [openBody_escape hbreak, closing_escape, List.cons_append, List.cons_append,
      List.cons_append, List.cons_append, closedBody_escape hbreak, ih h]
    rfl
  | plain c cs hslash ih =>
    rw [openBody_plain hslash]
    split
    · rfl
    · rename_i hgoes
      rw [Bool.or_eq_true, not_or] at hgoes
      have hbreak : isLineBreak c = false := Bool.eq_false_iff.mpr hgoes.1
      have hquote : c ≠ '"' := by
        rintro rfl
        exact absurd ((closedBody_quote cs).symm.trans h) nofun
      rw [closedBody_cons hslash hquote hbreak, Option.map_eq_none_iff] at h
      rw [closing_cons hslash, List.cons_append, List.cons_append,
        closedBody_cons hslash hquote hbreak, ih h]
      rfl

/-! ## Tokens -/

theorem scan_quoted {kind : TokenKind}
    (hkind : kind = .string ∨ kind = .unterminatedString ∨ kind = .multilineString)
    {c : Char} {cs : Text} (h : (scan c cs).1 = kind) :
    c = '"' ∧ string cs = (kind, (scan c cs).2) := by
  cases scanRule c with
  | quote hc hscan =>
    rw [hscan] at h ⊢
    exact ⟨hc, Prod.ext h rfl⟩
  | mark hc hscan =>
    have hmarks : ∀ m ∈ punctuation,
        ¬ (m.2 = .string ∨ m.2 = .unterminatedString ∨ m.2 = .multilineString) := by decide
    rw [← h, hscan] at hkind
    exact absurd hkind (hmarks _ hc)
  | sign _ hscan =>
    rw [← h, hscan] at hkind
    split at hkind <;> simp at hkind
  | name _ hscan =>
    rw [← h, hscan] at hkind
    exact absurd hkind (wordKind_rec _ (by simp) (by simp) (by simp) (by simp))
  | comment _ hscan | blank _ hscan | digit _ hscan | bad hscan =>
    rw [← h, hscan] at hkind
    simp at hkind

/-- The kind of a string that is closed. -/
def closedKind (text : Text) : TokenKind :=
  if Text.startsWith text tripleQuote then .multilineString else .string

theorem head_ne_quote {cs : Text} (h : closedBody cs = none) : ∀ c ∈ cs.head?, c ≠ '"' := by
  rintro c hc rfl
  obtain ⟨ds, rfl⟩ := List.head?_eq_some_iff.mp hc
  simp [closedBody] at h

theorem openBody_of_string {cs taken : Text} (hquotes : ¬ ∃ ds, cs = '"' :: '"' :: ds)
    (h : string cs = (.unterminatedString, taken)) : closedBody cs = none ∧ openBody cs = taken := by
  rw [string.eq_2 _ fun ds hds => hquotes ⟨ds, hds⟩] at h
  cases hbody : closedBody cs with
  | none =>
    rw [hbody] at h
    exact ⟨rfl, congrArg Prod.snd h⟩
  | some body => simp [hbody] at h

/-- An unterminated string with its closer is a token in front of what is behind the string. -/
theorem scan_closer {cs rest : Text} (h : string (cs ++ rest) = (.unterminatedString, cs)) :
    scan '"' (cs ++ closer ('"' :: cs) ++ rest) =
      (closedKind ('"' :: cs), cs ++ closer ('"' :: cs)) := by
  by_cases hquotes : ∃ ds, cs ++ rest = '"' :: '"' :: ds
  · -- a multiline string takes everything
    obtain ⟨ds, hds⟩ := hquotes
    rw [hds, string] at h
    have hnone : tripleBody ds = none := by
      cases hbody : tripleBody ds with
      | none => rfl
      | some body => simp [hbody] at h
    rw [hnone] at h
    obtain rfl : '"' :: '"' :: ds = cs := congrArg Prod.snd h
    obtain rfl : rest = [] := by simpa using hds
    have hcloser : closer ('"' :: '"' :: '"' :: ds) = closingQuotes ds := rfl
    have hkind : closedKind ('"' :: '"' :: '"' :: ds) = .multilineString := rfl
    rw [hcloser, hkind, List.append_nil]
    show string ('"' :: '"' :: (ds ++ closingQuotes ds)) = _
    rw [string, tripleBody_append_quotes hnone]
    rfl
  · obtain ⟨hnone, hopen⟩ := openBody_of_string hquotes h
    have hclosed := closedBody_openBody hnone rest
    rw [hopen] at hclosed
    have hhead := head_ne_quote hnone
    have hstart : Text.startsWith ('"' :: cs) tripleQuote = false := by
      cases cs with
      | nil => rfl
      | cons c cs =>
        have hc : ('"' == c) = false := beq_false_of_ne (Ne.symm (hhead c rfl))
        simp [Text.startsWith, tripleQuote, List.isPrefixOf, hc]
    have hcloser : closer ('"' :: cs) = closing cs := by
      rw [closer, hstart, if_neg Bool.false_ne_true]
      rfl
    rw [hcloser, closedKind, hstart, if_neg Bool.false_ne_true]
    show string (cs ++ closing cs ++ rest) = _
    rw [string.eq_2, hclosed]
    -- with the closing quote it does not begin like a multiline string
    intro ds hds
    cases cs with
    | nil =>
      have hrest : rest = '"' :: ds := (List.cons.inj hds).2
      exact hhead '"' (by rw [hrest]; rfl) rfl
    | cons c cs => exact hhead c rfl (List.cons.inj hds).1

theorem lex_closer {front back : List (TokenKind × Text)} {text source : Text}
    (h : lex source = front ++ (.unterminatedString, text) :: back) :
    lex (text ++ closer text ++ back.flatMap (·.2)) =
      (closedKind text, text ++ closer text) :: back := by
  obtain ⟨c, cs, rfl⟩ : ∃ c cs, text = c :: cs :=
    List.exists_cons_of_ne_nil (text_ne_nil_of_mem_lex (t := (.unterminatedString, text))
      (by rw [h]; simp))
  have hback := (lex_cut h).2
  have hrest := (@lex_cut _ [_] _ hback).2
  rw [List.flatMap_cons, List.cons_append, lex_cons] at hback
  obtain ⟨htoken, -⟩ := List.cons.inj hback
  obtain ⟨hkind, htext⟩ := Prod.ext_iff.mp htoken
  obtain ⟨rfl, hstring⟩ := scan_quoted (.inr (.inl rfl)) hkind
  obtain ⟨-, htaken⟩ := List.cons.inj htext
  rw [htaken] at hstring
  have hscan := scan_closer hstring
  have hlex := lex_of_scan hscan
  rw [hrest] at hlex
  exact hlex

end Lexer

/-! ## Closing -/

/-- An unterminated string can be closed where it ends. What is written behind it makes of it one
token, a multiline string if it begins with three quotes, and the tokens behind it stay. -/
theorem closer_completes {source : Text} {t : Token} (ht : t ∈ tokenize source)
    (hkind : t.kind = .unterminatedString) :
    ∃ front back text cursor, tokenize source = front ++ t :: back ∧
      applyEdits source [.insert t.span.stop (closer t.text)] = .ok text ∧
      Cursor.startingAt text t.span.start = .ok cursor ∧
      cursor.tokens =
        ⟨if Text.startsWith t.text Lexer.tripleQuote then .multilineString else .string,
          ⟨t.span.start, t.span.stop + (closer t.text).size⟩, t.text ++ closer t.text⟩ ::
            back.map (·.shift (closer t.text).size) := by
  obtain ⟨front, back, hlex, hspan⟩ := Lexer.exists_append_of_mem_place ht
  rw [hkind] at hlex
  rw [Nat.zero_add] at hspan
  have hsource : source = front.flatMap (·.2) ++ t.text ++ back.flatMap (·.2) := by
    rw [← Lexer.flatMap_lex source, hlex]
    simp
  have hplace : t = ⟨.unterminatedString, t.span, t.text⟩ := by rw [← hkind]
  refine ⟨Lexer.place 0 front, Lexer.place t.span.stop back,
    front.flatMap (·.2) ++ t.text ++ (closer t.text ++ back.flatMap (·.2)),
    ⟨t.span.start, t.text ++ closer t.text ++ back.flatMap (·.2)⟩, ?_, ?_, ?_, ?_⟩
  · rw [tokenize, hlex, Lexer.place_append_size, Lexer.place, Nat.zero_add]
    conv_rhs => rw [hplace]
    rw [hspan]
  · have hstop : t.span.stop = Text.size (front.flatMap (·.2) ++ t.text) := by
      rw [hspan, Text.size_append]
    rw [hstop, hsource]
    exact applyEdits_insert _ _ _
  · rw [Cursor.startingAt, hspan, List.append_assoc, Text.splitAt?_size, List.append_assoc]
  · rw [Cursor.tokens, Lexer.lex_closer hlex, Lexer.place, Lexer.map_shift_place,
      Text.size_append, hspan, Nat.add_assoc]
    rfl

/-- A string that stops at a backslash in front of a line break. -/
theorem closer_completes_behind_backslash :
    let source : Text := ['[', '"', 'a', '\\', '\n', '1', ']']
    let t : Token := ⟨.unterminatedString, ⟨1, 4⟩, ['"', 'a', '\\']⟩
    t ∈ tokenize source ∧ t.kind = .unterminatedString ∧
      ∃ front back text cursor, tokenize source = front ++ t :: back ∧
        applyEdits source [.insert t.span.stop (closer t.text)] = .ok text ∧
        Cursor.startingAt text t.span.start = .ok cursor ∧
        cursor.tokens =
          ⟨if Text.startsWith t.text Lexer.tripleQuote then .multilineString else .string,
            ⟨t.span.start, t.span.stop + (closer t.text).size⟩, t.text ++ closer t.text⟩ ::
              back.map (·.shift (closer t.text).size) := by
  have ht : (⟨.unterminatedString, ⟨1, 4⟩, ['"', 'a', '\\']⟩ : Token) ∈
      tokenize ['[', '"', 'a', '\\', '\n', '1', ']'] := by decide +kernel
  exact ⟨ht, rfl, closer_completes ht rfl⟩

end Maml
