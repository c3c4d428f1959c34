import Maml.Token.Scanner
import Maml.Proofs.Cuts

/-! Lexing byte by byte is lexing.

1. A scanner is `between` two texts if it has the second in front of it and its count is the
   size of the first. A way to go forward `Takes` what a rule of the lexer takes if, between
   any two texts, it leads over that part of the second. Ways one after the other take rules
   one after the other (`Takes.bind`).
2. So the next token of a scanner is the one that the rules find (`nextToken_between`), which
   is the next token of a cursor (`nextToken_eq_next`), and nothing fails.
3. What is handed out follows the tokens of the text from where the scanner began
   (`Track.InStep`). Every step keeps that (`ScanStep.exists_perform`), so all steps do.
4. The tokens of a text tile it (`tiles_place`), so what is handed out does too, whatever
   steps are taken (`scanners_tile`). -/
namespace Maml

namespace Scanner

open Lexer

/-! ## Small steps -/

/-- The scanner that has gone over one text and has another in front of it. -/
def between (front rest : Text) : Scanner := ⟨front ++ rest, rest, front.size⟩

theorem between_append (front taken rest : Text) :
    between (front ++ taken) rest = ⟨front ++ (taken ++ rest), rest, front.size + taken.size⟩ := by
  rw [between, List.append_assoc, Text.size_append]

theorem source_between (front rest : Text) : (between front rest).source = front ++ rest := rfl

theorem rest_between (front rest : Text) : (between front rest).rest = rest := rfl

theorem position_between (front rest : Text) : (between front rest).position = front.size := rfl

theorem dropBytes_size (a b : Text) : dropBytes (a ++ b) a.size = .ok b := by
  rw [dropBytes, Text.splitAt?_size]

theorem advanceBy_size {front taken cs : Text} (h : taken <+: cs)
    (hsize : Text.size (front ++ cs) < offsetLimit) :
    (between front cs).advanceBy taken.size =
      .ok (between (front ++ taken) (cs.drop taken.length)) := by
  obtain ⟨rest, rfl⟩ := h
  simp only [Text.size_append] at hsize
  have hmod : taken.size % offsetLimit = taken.size := Nat.mod_eq_of_lt (by omega)
  have hsum : front.size + taken.size < offsetLimit := by omega
  rw [advanceBy, hmod, between_append, List.drop_left]
  simp only [between, hsum, if_true, dropBytes_size]
  rfl

theorem token_between (kind : TokenKind) (front taken rest : Text) :
    (between (front ++ taken) rest).token kind front.size =
      .ok ⟨kind, ⟨front.size, front.size + taken.size⟩, taken⟩ := by
  have hspan : Span.ofBounds front.size (front.size + taken.size) =
      .ok ⟨front.size, front.size + taken.size⟩ := Span.ofBounds_eq_ok.mpr ⟨Nat.le_add_right .., rfl⟩
  have hslice := Text.slice?_size front taken rest
  rw [List.append_assoc] at hslice
  rw [token, between_append]
  simp only [hspan, bind, Except.bind, Span.slice, hslice]
  rfl

/-- Whether a way to go forward takes what a rule takes, which is a beginning of what is left. -/
structure Takes (go : Scanner → Except Fault Scanner) (rule : Text → Text) : Prop where
  isPrefix : ∀ cs, rule cs <+: cs
  run : ∀ front cs, Text.size (front ++ cs) < offsetLimit →
    go (between front cs) = .ok (between (front ++ rule cs) (cs.drop (rule cs).length))

namespace Takes

theorem append_drop {go : Scanner → Except Fault Scanner} {rule : Text → Text} (h : Takes go rule)
    (front cs : Text) : front ++ rule cs ++ cs.drop (rule cs).length = front ++ cs := by
  rw [List.append_assoc, List.prefix_iff_eq_append.mp (h.isPrefix cs)]

/-- One way after another takes what one rule takes, and another from what it leaves. -/
theorem bind {f g : Scanner → Except Fault Scanner} {a b : Text → Text} (hf : Takes f a)
    (hg : Takes g b) : Takes (fun s => f s >>= g) fun cs => a cs ++ b (cs.drop (a cs).length) where
  isPrefix cs := append_isPrefix (hf.isPrefix cs) (hg.isPrefix _)
  run front cs h := by
    have hrest := hg.run (front ++ a cs) (cs.drop (a cs).length) (by rwa [hf.append_drop])
    rw [hf.run front cs h]
    simp only [Bind.bind, Except.bind]
    rw [hrest, List.append_assoc, List.drop_drop, List.length_append]

end Takes

theorem takes_advance : Takes advance (List.take 1) where
  isPrefix cs := List.take_prefix 1 cs
  run front cs h := by
    cases cs with
    | nil => simp [advance, peek, between]
    | cons c cs =>
      have hsize : Text.size [c] = c.utf8Size := Nat.add_zero _
      have hadvance := advanceBy_size (List.take_prefix 1 (c :: cs)) h
      rw [List.take_succ_cons, List.take_zero, hsize] at hadvance
      exact hadvance

theorem advanceWhile_eq (p : Char → Bool) (s : Scanner) :
    advanceWhile p s = match s.rest with
      | [] => .ok s
      | c :: _ => if p c then s.advance >>= advanceWhile p else .ok s := by
  rw [advanceWhile]
  obtain ⟨source, rest, position⟩ := s
  cases rest with
  | nil => rfl
  | cons c cs =>
    simp only
    split
    · split
      · rename_i h
        rw [h]
        rfl
      · rename_i h
        rw [h]
        rfl
    · rfl

theorem takes_advanceWhile (p : Char → Bool) : Takes (advanceWhile p) (List.takeWhile p) where
  isPrefix cs := List.takeWhile_prefix p
  run front cs h := by
    induction cs generalizing front with
    | nil => simp [advanceWhile_eq, between]
    | cons c cs ih =>
      rw [advanceWhile_eq, rest_between, List.takeWhile_cons]
      simp only
      split
      · have hrest := ih (front ++ [c]) (by rwa [List.append_assoc])
        rw [takes_advance.run front (c :: cs) h]
        show advanceWhile p (between (front ++ [c]) cs) = _
        rw [hrest, List.append_assoc]
        rfl
      · rw [List.append_nil]
        rfl

theorem takes_eatDigits : Takes eatDigits digits := takes_advanceWhile Char.isDigit

/-! ## Numbers -/

def minus (cs : Text) : Text := if cs.head? == some '-' then ['-'] else []

theorem takes_eatMinus : Takes eatMinus minus where
  isPrefix cs := by
    cases cs with
    | nil => exact List.nil_prefix
    | cons c cs =>
      rw [minus]
      split
      · rename_i hc
        obtain rfl : c = '-' := by simpa using hc
        exact ⟨cs, rfl⟩
      · exact List.nil_prefix
  run front cs h := by
    have hadvance := takes_advance.run front cs h
    rw [eatMinus, minus, peek, rest_between]
    split
    · rename_i hc
      obtain ⟨ds, rfl⟩ : ∃ ds, cs = '-' :: ds := by
        cases cs with
        | nil => simp at hc
        | cons c ds => exact ⟨ds, by simpa using hc⟩
      exact hadvance
    · rw [List.append_nil]
      rfl

theorem digitAt_one (front : Text) (c : Char) (cs : Text) :
    (between front (c :: cs)).digitAt 1 = startsWithDigit cs := by
  cases cs <;> rfl

theorem digitAt_two (front : Text) (c d : Char) (cs : Text) :
    (between front (c :: d :: cs)).digitAt 2 = startsWithDigit cs := by
  cases cs <;> rfl

theorem takes_eatFraction : Takes eatFraction fraction where
  isPrefix := fraction_isPrefix
  run front cs h := by
    cases cs with
    | nil => simp [eatFraction, fraction, peek, between]
    | cons c cs =>
      rw [eatFraction, digitAt_one, peek, rest_between, List.head?_cons]
      by_cases hc : c = '.'
      · subst hc
        rw [fraction]
        by_cases hdigit : startsWithDigit cs = true
        · have hdigits := takes_eatDigits.run (front ++ ['.']) cs (by rwa [List.append_assoc])
          rw [if_pos (by simp [hdigit]), if_pos hdigit, takes_advance.run front ('.' :: cs) h]
          show eatDigits (between (front ++ ['.']) cs) = _
          rw [hdigits, List.append_assoc]
          rfl
        · rw [if_neg (by simp [hdigit]), if_neg hdigit, List.append_nil]
          rfl
      · rw [fraction.eq_2 _ (by simp [hc]), if_neg (by simp [hc]), List.append_nil]
        rfl

theorem isEmpty_digits (cs : Text) : (digits cs).isEmpty = !startsWithDigit cs := by
  cases cs with
  | nil => rfl
  | cons c cs => cases hc : c.isDigit <;> simp [digits, startsWithDigit, hc]

theorem utf8Size_eq_one {c a b : Char} (h : (c == a || c == b) = true) (ha : a.utf8Size = 1)
    (hb : b.utf8Size = 1) : c.utf8Size = 1 := by
  simp only [Bool.or_eq_true, beq_iff_eq] at h
  rcases h with rfl | rfl
  · exact ha
  · exact hb

theorem advanceBy_eatDigits {front taken ds : Text}
    (h : Text.size (front ++ (taken ++ ds)) < offsetLimit) :
    (between front (taken ++ ds)).advanceBy taken.size >>= eatDigits =
      .ok (between (front ++ (taken ++ digits ds)) (ds.drop (digits ds).length)) := by
  have hadvance := advanceBy_size (List.prefix_append taken ds) h
  have hdigits := takes_eatDigits.run (front ++ taken) ds (by rwa [List.append_assoc])
  rw [hadvance, List.drop_left]
  show eatDigits (between (front ++ taken) ds) = _
  rw [hdigits, List.append_assoc]

theorem takes_eatExponent : Takes eatExponent exponent where
  isPrefix := exponent_isPrefix
  run front cs h := by
    cases cs with
    | nil => simp [eatExponent, exponent, peek, between]
    | cons c cs =>
      have hpeek : ((between front (c :: cs)).peek == some 'e' ||
          (between front (c :: cs)).peek == some 'E') = (c == 'e' || c == 'E') := rfl
      rw [eatExponent, exponent, hpeek]
      cases hletter : c == 'e' || c == 'E' with
      | false =>
        rw [Bool.false_and, Bool.false_and, if_neg Bool.false_ne_true, if_neg Bool.false_ne_true,
          List.append_nil]
        rfl
      | true =>
        have hsize : c.utf8Size = 1 := utf8Size_eq_one hletter rfl rfl
        rw [Bool.true_and, Bool.true_and]
        cases cs with
        | nil =>
          -- the letter is the last character
          rw [if_neg (by simp [digitAt, digitsAhead, peekNth, between]), if_neg (by simp [signedDigits]),
            List.append_nil]
          rfl
        | cons d ds =>
          have hahead : (between front (c :: d :: ds)).digitsAhead =
              if d == '+' || d == '-' then 2 else 1 := rfl
          rw [hahead, signedDigits]
          split
          · rename_i hsign
            have hsize' : d.utf8Size = 1 := utf8Size_eq_one hsign rfl rfl
            have hdigits := @advanceBy_eatDigits front [c, d] ds h
            rw [show Text.size [c, d] = 2 by simp [hsize, hsize']] at hdigits
            rw [digitAt_two]
            split
            · exact hdigits
            · rw [if_neg (by simp), List.append_nil]
              rfl
          · have hdigits := @advanceBy_eatDigits front [c] (d :: ds) h
            rw [show Text.size [c] = 1 by simp [hsize]] at hdigits
            rw [digitAt_one, isEmpty_digits, Bool.not_not]
            split
            · exact hdigits
            · rw [List.append_nil]
              rfl

theorem eatNumber_between {front : Text} {c : Char} {cs : Text}
    (hc : c.isDigit = true ∨ c = '-') (h : Text.size (front ++ c :: cs) < offsetLimit) :
    eatNumber (between front (c :: cs)) =
      .ok (between (front ++ c :: Lexer.number cs) (cs.drop (Lexer.number cs).length)) := by
  have hrun := (((takes_eatMinus.bind takes_eatDigits).bind takes_eatFraction).bind
    takes_eatExponent).run front (c :: cs) h
  have hfirst : minus (c :: cs) ++ digits ((c :: cs).drop (minus (c :: cs)).length) =
      c :: digits cs := by
    rcases hc with hdigit | rfl
    · have hne : c ≠ '-' := by
        rintro rfl
        exact absurd hdigit (by decide)
      simp [minus, digits, hne, hdigit]
    · rfl
  have hbinds : eatNumber (between front (c :: cs)) =
      ((eatMinus (between front (c :: cs)) >>= eatDigits) >>= eatFraction) >>= eatExponent := by
    simp only [eatNumber, bind_assoc]
  rw [hbinds, hrun]
  simp only [hfirst, List.length_cons, List.drop_succ_cons, List.cons_append]
  rw [number_eq]

/-! ## Strings -/

/-- Quoted strings end where their closing quote is, or where the first structural character was. -/
theorem scanQuoted_eq (i : Nat) (structural : Option Nat) (cs : Text) :
    scanQuoted i structural cs = match closedBody cs with
      | some body => (i + body.size, true)
      | none => (structural.getD (i + (openBody cs).size), false) := by
  have hbackslash : Char.utf8Size '\\' = 1 := rfl
  have hquote : Char.utf8Size '"' = 1 := rfl
  induction cs using closedBody.induct generalizing i structural with
  | case1 => simp [scanQuoted, closedBody, openBody]
  | case2 c cs hc => simp [scanQuoted, closedBody, openBody, hc, hbackslash]
  | case3 c cs hc ih =>
    simp only [scanQuoted, closedBody, openBody, hc, ih]
    cases closedBody cs <;> simp [hbackslash, Nat.add_assoc]
  | case4 c cs hne hq =>
    obtain rfl : c = '"' := by simpa using hq
    simp [scanQuoted, closedBody, hquote]
  | case5 c cs hne hq hb =>
    rw [scanQuoted.eq_3 _ _ _ _ hne, closedBody.eq_3 _ _ hne, openBody.eq_3 _ _ hne]
    simp [hq, hb]
  | case6 c cs hne hq hb ih =>
    rw [scanQuoted.eq_3 _ _ _ _ hne, closedBody.eq_3 _ _ hne, openBody.eq_3 _ _ hne]
    simp only [hq, hb, ih, Bool.false_or]
    cases closedBody cs with
    | some body => simp [Nat.add_assoc]
    | none =>
      -- an earlier structural character stays the first one
      cases structural <;> cases hs : isStructural c <;> simp [Nat.add_assoc]

theorem startsWith_tripleQuote (cs : Text) :
    Text.startsWith cs tripleQuote = true ↔ ∃ ds, cs = '"' :: '"' :: '"' :: ds := by
  rw [Text.startsWith, List.isPrefixOf_iff_prefix]
  exact ⟨fun ⟨ds, h⟩ => ⟨ds, h.symm⟩, fun ⟨ds, h⟩ => ⟨ds, h.symm⟩⟩

theorem find?_tripleQuote (cs : Text) :
    (find? tripleQuote cs).map (· + 3) = (tripleBody cs).map Text.size := by
  induction cs using tripleBody.induct with
  | case1 cs => rfl
  | case2 => rfl
  | case3 c cs hne ih =>
    have hstart : ¬ Text.startsWith (c :: cs) tripleQuote = true := by
      rw [startsWith_tripleQuote]
      rintro ⟨ds, hds⟩
      obtain ⟨rfl, hcs⟩ := List.cons.inj hds
      exact hne ds rfl hcs
    rw [find?, if_neg hstart, tripleBody.eq_3 _ _ hne]
    cases hfind : find? tripleQuote cs <;> cases htriple : tripleBody cs <;>
      simp [hfind, htriple, Nat.add_assoc] at ih ⊢
    exact ih

/-- What a scanner has done when it has handed out a token. -/
def handOut (front : Text) (kind : TokenKind) (taken rest : Text) : Token × Scanner :=
  (⟨kind, ⟨front.size, front.size + taken.size⟩, taken⟩, between (front ++ taken) rest)

theorem take_between {go : Scanner → Except Fault Scanner} {front cs taken rest : Text}
    (kind : TokenKind) (h : go (between front cs) = .ok (between (front ++ taken) rest)) :
    (between front cs).take kind go = .ok (handOut front kind taken rest) := by
  rw [take, h, position_between]
  simp only [Bind.bind, Except.bind, token_between]
  rfl

theorem quotedString_between {front cs : Text} (h : Text.size (front ++ '"' :: cs) < offsetLimit)
    (hopen : ∀ ds, cs = '"' :: '"' :: ds → False) :
    (between front ('"' :: cs)).quotedString =
      .ok (handOut front (string cs).1 ('"' :: (string cs).2) (cs.drop (string cs).2.length)) := by
  have hbody : dropBytes ('"' :: cs) 1 = .ok cs := dropBytes_size ['"'] cs
  have htake : ∀ kind taken, taken <+: cs →
      (between front ('"' :: cs)).take kind (·.advanceBy (1 + Text.size taken)) =
        .ok (handOut front kind ('"' :: taken) (cs.drop taken.length)) := fun kind taken htaken =>
    take_between kind (advanceBy_size (List.cons_prefix_cons.mpr ⟨rfl, htaken⟩) h)
  rw [quotedString, rest_between, hbody, string.eq_2 _ hopen]
  simp only [Bind.bind, Except.bind, scanQuoted_eq, Nat.zero_add, Option.getD_none]
  cases hclosed : closedBody cs with
  | some body => exact htake .string body (closedBody_isPrefix hclosed)
  | none => exact htake .unterminatedString (openBody cs) (openBody_isPrefix cs)

theorem multilineString_between {front cs : Text}
    (h : Text.size (front ++ (tripleQuote ++ cs)) < offsetLimit) :
    (between front (tripleQuote ++ cs)).multilineString =
      .ok (handOut front (string ('"' :: '"' :: cs)).1 ('"' :: (string ('"' :: '"' :: cs)).2)
        (('"' :: '"' :: cs).drop (string ('"' :: '"' :: cs)).2.length)) := by
  have hquotes := advanceBy_size (List.prefix_append tripleQuote cs) h
  have hrest : ∀ kind taken, taken <+: cs → (do
      let s ← (between (front ++ tripleQuote) cs).advanceBy (Text.size taken)
      return (← s.token kind front.size, s)) =
        .ok (handOut front kind (tripleQuote ++ taken) (cs.drop taken.length)) := by
    intro kind taken htaken
    rw [advanceBy_size htaken (by rwa [List.append_assoc]), List.append_assoc]
    simp only [Bind.bind, Except.bind, token_between]
    rfl
  have hfind := find?_tripleQuote cs
  rw [List.drop_left] at hquotes
  rw [multilineString, position_between]
  show ((between front (tripleQuote ++ cs)).advanceBy (Text.size tripleQuote) >>= _) = _
  rw [hquotes]
  simp only [Bind.bind, Except.bind, rest_between, string]
  cases htriple : tripleBody cs with
  | some body =>
    obtain ⟨n, hn, hsize⟩ : ∃ n, find? tripleQuote cs = some n ∧ n + 3 = Text.size body := by
      simpa [htriple] using hfind
    simp only [hn, hsize]
    exact hrest .multilineString body (tripleBody_isPrefix htriple)
  | none =>
    have hn : find? tripleQuote cs = none := by simpa [htriple] using hfind
    simp only [hn]
    exact hrest .unterminatedString cs (List.prefix_refl cs)

/-! ## Tokens -/

theorem word_between {front cs : Text} {c : Char} (hc : isNameStart c = true)
    (h : Text.size (front ++ c :: cs) < offsetLimit) :
    (between front (c :: cs)).word =
      .ok (handOut front (wordKind (c :: cs.takeWhile isNameChar)) (c :: cs.takeWhile isNameChar)
        (cs.drop (cs.takeWhile isNameChar).length)) := by
  have hname : isNameChar c = true := by
    simp only [isNameStart, Bool.or_eq_true] at hc
    rcases hc with hc | hc <;> simp [isNameChar, Char.isAlphanum, hc]
  have hrun := (takes_advanceWhile isNameChar).run front (c :: cs) h
  have hslice := Text.slice?_size front (c :: cs.takeWhile isNameChar)
    (cs.drop (cs.takeWhile isNameChar).length)
  rw [List.append_assoc, List.cons_append,
    List.prefix_iff_eq_append.mp (List.takeWhile_prefix isNameChar)] at hslice
  rw [List.takeWhile_cons, if_pos hname, List.length_cons, List.drop_succ_cons] at hrun
  rw [word, hrun, position_between]
  simp only [Bind.bind, Except.bind, Span.slice, position_between, source_between, Text.size_append,
    hslice, token_between]
  rfl

/-- The next token is the one that the rules of the lexer find. -/
theorem nextToken_between {front cs : Text} {c : Char}
    (h : Text.size (front ++ c :: cs) < offsetLimit) :
    (between front (c :: cs)).nextToken =
      .ok (handOut front (scan c cs).1 (c :: (scan c cs).2) (cs.drop (scan c cs).2.length)) := by
  have hpeek : (between front (c :: cs)).peek = some c := rfl
  have hadvance : ∀ kind, (between front (c :: cs)).take kind advance =
      .ok (handOut front kind [c] cs) := fun kind =>
    take_between kind (takes_advance.run front (c :: cs) h)
  have hwhile : ∀ kind p, p c = true → (between front (c :: cs)).take kind (advanceWhile p) =
      .ok (handOut front kind (c :: cs.takeWhile p) (cs.drop (cs.takeWhile p).length)) := by
    intro kind p hp
    have hrun := (takes_advanceWhile p).run front (c :: cs) h
    rw [List.takeWhile_cons, if_pos hp] at hrun
    exact take_between kind hrun
  rw [nextToken, hpeek]
  simp only
  -- one case for each rule; the marks are single characters
  split
  case h_7 => exact hwhile .comment _ rfl
  case h_8 =>
    rw [rest_between]
    split
    · rename_i hquotes
      obtain ⟨ds, hds⟩ := (startsWith_tripleQuote _).mp hquotes
      obtain ⟨-, rfl⟩ := List.cons.inj hds
      exact multilineString_between h
    · rename_i hquotes
      refine quotedString_between h ?_
      rintro ds rfl
      exact hquotes ((startsWith_tripleQuote _).mpr ⟨ds, rfl⟩)
  case h_9 =>
    rw [digitAt_one, scan]
    split
    · exact take_between .number (eatNumber_between (.inr rfl) h)
    · exact hadvance .badCharacter
  case h_10 =>
    rw [scan.eq_10 c cs ‹_› ‹_› ‹_› ‹_› ‹_› ‹_› ‹_› ‹_› ‹_›]
    split
    · rename_i hblank
      exact hwhile .whitespace isBlank hblank
    split
    · rename_i hdigit
      exact take_between .number (eatNumber_between (.inl hdigit) h)
    split
    · rename_i hname
      exact word_between hname h
    · exact hadvance .badCharacter
  all_goals exact hadvance _

theorem nextToken_end (front : Text) :
    (between front []).nextToken = .ok (.eof front.size, between front []) := by
  have htoken := token_between .eof front [] []
  rw [List.append_nil] at htoken
  show (do return (← (between front []).token .eof front.size, between front [])) = _
  rw [htoken]
  rfl

theorem restart_between (front rest : Text) :
    (between front rest).restart = .ok (between front rest) := by
  show startingAt (front ++ rest) front.size = _
  rw [startingAt, if_pos (Text.isBoundary_size front rest), dropBytes_size]
  rfl

/-- A scanner does what the cursor at the same place does. -/
theorem nextToken_eq_next {front rest : Text} (h : Text.size (front ++ rest) < offsetLimit) :
    (between front rest).nextToken = .ok ((Cursor.mk front.size rest).next.1,
      ⟨front ++ rest, (Cursor.mk front.size rest).next.2.rest,
        (Cursor.mk front.size rest).next.2.position⟩) := by
  cases rest with
  | nil => exact nextToken_end front
  | cons c cs =>
    have hbehind : scan c cs = ((scan c cs).1, (scan c cs).2) := rfl
    have hsource := List.prefix_iff_eq_append.mp (scan_isPrefix c cs)
    rw [nextToken_between h, handOut, between_append, List.cons_append, hsource]
    rfl

theorem next_of_nextToken {s s' : Scanner} {t : Token} (h : s.nextToken = .ok (t, s')) :
    s.next = .ok (if t.kind == .eof then none else some t, s') := by
  rw [next, h]
  rfl

theorem nextToken_of_lex {front rest : Text} {u : TokenKind × Text} {us : List (TokenKind × Text)}
    (hsize : Text.size (front ++ rest) < offsetLimit) (h : lex rest = u :: us) :
    (between front rest).nextToken = .ok (handOut front u.1 u.2 (us.flatMap (·.2))) := by
  cases rest with
  | nil => simp [lex] at h
  | cons c cs =>
    rw [lex_cons] at h
    obtain ⟨rfl, hrest⟩ := List.cons.inj h
    rw [nextToken_between hsize, ← hrest, flatMap_lex]

theorem collects_between {front rest : Text} (hsize : Text.size (front ++ rest) < offsetLimit) :
    Collects (between front rest) (place front.size (lex rest)) (between (front ++ rest) []) := by
  generalize hrow : lex rest = row
  induction row generalizing front rest with
  | nil =>
    obtain rfl : rest = [] := by rw [← flatMap_lex rest, hrow, List.flatMap_nil]
    rw [List.append_nil]
    exact .done (next_of_nextToken (nextToken_end front))
  | cons u us ih =>
    obtain ⟨-, hus⟩ := @lex_cut rest [u] us hrow
    have hrest : u.2 ++ us.flatMap (·.2) = rest := by rw [← flatMap_lex rest, hrow, List.flatMap_cons]
    have hkind : (u.1 == TokenKind.eof) = false :=
      beq_false_of_ne (kind_ne_eof_of_mem_lex (hrow ▸ List.mem_cons_self))
    have hnext := next_of_nextToken (nextToken_of_lex hsize hrow)
    have hmore := @ih (front ++ u.2) _ (by rwa [List.append_assoc, hrest]) hus
    simp only [hkind, Bool.false_eq_true, if_false] at hnext
    rw [List.append_assoc, hrest, Text.size_append] at hmore
    exact .more hnext hmore

end Scanner

/-! ## Tiles -/

/-- Whether a token is a part of a text: between two characters, not empty, and with the text that
its span covers. -/
structure Token.IsPartOf (t : Token) (source : Text) : Prop where
  not_eof : t.kind ≠ .eof
  nonempty : t.span.start < t.span.stop
  start : source.isBoundary t.span.start = true
  stop : source.isBoundary t.span.stop = true
  text : t.span.slice source = .ok t.text

/-- Whether tokens are parts of a text, each where the one in front of it ends, from one offset to
another. -/
def Tiles (source : Text) : Nat → List Token → Nat → Prop
  | start, [], stop => start = stop
  | start, t :: ts, stop => t.span.start = start ∧ t.IsPartOf source ∧ Tiles source t.span.stop ts stop

namespace Lexer

theorem isPartOf_of_append {kind : TokenKind} {front text back : Text} (hkind : kind ≠ .eof)
    (htext : text ≠ []) :
    Token.IsPartOf ⟨kind, ⟨front.size, front.size + text.size⟩, text⟩ (front ++ text ++ back) where
  not_eof := hkind
  nonempty := by
    have hpos : text.size ≠ 0 := fun h => htext (Text.size_eq_zero.mp h)
    simp only
    omega
  start := by
    rw [List.append_assoc]
    exact Text.isBoundary_size front (text ++ back)
  stop := by
    rw [← Text.size_append]
    exact Text.isBoundary_size (front ++ text) back
  text := by
    simp only [Span.slice, Text.slice?_size]

/-- The first tokens of what is left of a text tile it. -/
theorem tiles_place {front text : Text} {ts us : List (TokenKind × Text)}
    (h : lex text = ts ++ us) :
    Tiles (front ++ text) front.size (place front.size ts)
      (front.size + Text.size (ts.flatMap (·.2))) := by
  induction ts generalizing front text with
  | nil => rfl
  | cons t ts ih =>
    obtain ⟨-, hrest⟩ := @lex_cut text [t] (ts ++ us) h
    have htext : t.2 ++ (ts ++ us).flatMap (·.2) = text := by
      rw [← flatMap_lex text, h, List.cons_append, List.flatMap_cons]
    have hmem : t ∈ lex text := h ▸ List.mem_cons_self
    have hrow := @ih (front ++ t.2) _ hrest
    have hstop : Text.size (front ++ t.2) + Text.size (ts.flatMap (·.2)) =
        front.size + Text.size ((t :: ts).flatMap (·.2)) := by
      rw [List.flatMap_cons, Text.size_append, Text.size_append, Nat.add_assoc]
    rw [hstop, List.append_assoc, htext, Text.size_append] at hrow
    refine ⟨rfl, ?_, hrow⟩
    rw [← htext, ← List.append_assoc]
    exact isPartOf_of_append (kind_ne_eof_of_mem_lex hmem) (text_ne_nil_of_mem_lex hmem)

end Lexer

/-! ## Steps -/

open Lexer Scanner

/-- Whether a track has handed out the first of the tokens of what its scanner had in front of it
and, if these are all, ends of the input. -/
def Track.InStep (front text : Text) (t : Track) : Prop :=
  ∃ ts us n, lex text = ts ++ us ∧
    t.scanner = between (front ++ ts.flatMap (·.2)) (us.flatMap (·.2)) ∧
    t.handed = place front.size ts ++ List.replicate n (.eof (Text.size (front ++ text))) ∧
    (n ≠ 0 → us = [])

namespace Track

variable {front text : Text} {t : Track}

theorem inStep_between (front text : Text) : InStep front text ⟨between front text, []⟩ := by
  refine ⟨[], lex text, 0, rfl, ?_, rfl, by simp⟩
  rw [List.flatMap_nil, List.append_nil, flatMap_lex]

/-- Where a track stands: at the end, which it hands out, or in front of a token. -/
theorem InStep.cases (hsize : Text.size (front ++ text) < offsetLimit) (h : t.InStep front text) :
    t.scanner.nextToken = .ok (.eof (Text.size (front ++ text)), t.scanner) ∧
        InStep front text ⟨t.scanner, t.handed ++ [.eof (Text.size (front ++ text))]⟩ ∨
      ∃ u s, u.kind ≠ .eof ∧ t.scanner.nextToken = .ok (u, s) ∧
        InStep front text ⟨s, t.handed ++ [u]⟩ := by
  obtain ⟨ts, us, n, hlex, hscanner, hhanded, hend⟩ := h
  have htext : ts.flatMap (·.2) ++ us.flatMap (·.2) = text := by
    rw [← List.flatMap_append, ← hlex, flatMap_lex]
  cases us with
  | nil =>
    rw [List.flatMap_nil, List.append_nil] at htext
    rw [List.flatMap_nil, htext] at hscanner
    refine .inl ⟨by rw [hscanner]; exact nextToken_end _, ts, [], n + 1, hlex, ?_, ?_, fun _ => rfl⟩
    · rw [List.flatMap_nil, htext, hscanner]
    · rw [hhanded, List.append_assoc, List.replicate_succ']
  | cons u us =>
    -- no end has been handed out yet
    obtain rfl : n = 0 := by
      cases n with
      | zero => rfl
      | succ n => exact absurd (hend (Nat.succ_ne_zero n)) (by simp)
    have hnext := nextToken_of_lex (by rwa [List.append_assoc, htext]) (lex_cut hlex).2
    rw [← hscanner] at hnext
    have hkind : u.1 ≠ .eof :=
      kind_ne_eof_of_mem_lex (hlex ▸ List.mem_append_right ts List.mem_cons_self)
    refine .inr ⟨_, _, hkind, hnext, ts ++ [u], us, 0, ?_, ?_, ?_, by simp⟩
    · rw [hlex, List.append_assoc]
      rfl
    · rw [List.flatMap_append, ← List.append_assoc, List.flatMap_singleton]
    · simp only [hhanded, place_append_size, List.replicate_zero, List.append_nil]
      rw [Text.size_append front (ts.flatMap (·.2))]
      rfl

theorem InStep.nextToken (hsize : Text.size (front ++ text) < offsetLimit)
    (h : t.InStep front text) : ∃ t', t.nextToken = .ok t' ∧ t'.InStep front text := by
  rcases h.cases hsize with ⟨hnext, hstep⟩ | ⟨u, s, -, hnext, hstep⟩
  · exact ⟨_, by rw [Track.nextToken, hnext]; rfl, hstep⟩
  · exact ⟨_, by rw [Track.nextToken, hnext]; rfl, hstep⟩

theorem InStep.next (hsize : Text.size (front ++ text) < offsetLimit)
    (h : t.InStep front text) : ∃ t', t.next = .ok t' ∧ t'.InStep front text := by
  rcases h.cases hsize with ⟨hnext, -⟩ | ⟨u, s, hkind, hnext, hstep⟩
  · -- at the end nothing changes
    refine ⟨t, ?_, h⟩
    rw [Track.next, next_of_nextToken hnext]
    show Except.ok (Track.mk t.scanner (t.handed ++ [])) = _
    rw [List.append_nil]
  · refine ⟨_, ?_, hstep⟩
    rw [Track.next, next_of_nextToken hnext, beq_false_of_ne hkind]
    rfl

theorem InStep.scanner_restart (h : t.InStep front text) : t.scanner.restart = .ok t.scanner := by
  obtain ⟨ts, us, n, -, hscanner, -⟩ := h
  rw [hscanner, restart_between]

theorem InStep.restart (h : t.InStep front text) :
    ∃ t', t.restart = .ok t' ∧ t'.InStep front text := by
  refine ⟨t, ?_, h⟩
  rw [Track.restart, h.scanner_restart]
  rfl

end Track

namespace ScanStep

variable {front text : Text}

theorem exists_modify {P : Track → Prop} {f : Track → Except Fault Track} {tracks : List Track}
    (hf : ∀ t, P t → ∃ t', f t = .ok t' ∧ P t') (h : ∀ t ∈ tracks, P t) (i : Nat) :
    ∃ tracks', modify i f tracks = .ok tracks' ∧ ∀ t ∈ tracks', P t := by
  rw [modify]
  cases hi : tracks[i]? with
  | none => exact ⟨tracks, rfl, h⟩
  | some t =>
    obtain ⟨t', ht', hP⟩ := hf t (h t (List.mem_of_getElem? hi))
    refine ⟨tracks.set i t', by simp only [ht']; rfl, fun u hu => ?_⟩
    rcases List.mem_or_eq_of_mem_set hu with hu | rfl
    · exact h u hu
    · exact hP

/-- A step that is taken with tracks in step leaves them in step. -/
theorem exists_perform (hsize : Text.size (front ++ text) < offsetLimit) {tracks : List Track}
    (h : ∀ t ∈ tracks, t.InStep front text) (step : ScanStep) :
    ∃ tracks', perform tracks step = .ok tracks' ∧ ∀ t ∈ tracks', t.InStep front text := by
  cases step with
  | nextToken i => exact exists_modify (fun _ => Track.InStep.nextToken hsize) h i
  | next i => exact exists_modify (fun _ => Track.InStep.next hsize) h i
  | restart i => exact exists_modify (fun _ => Track.InStep.restart) h i
  | clone i =>
    refine ⟨tracks ++ tracks[i]?.toList, rfl, fun t ht => ?_⟩
    rcases List.mem_append.mp ht with ht | ht
    · exact h t ht
    · exact h t (List.mem_of_getElem? (Option.mem_toList.mp ht))

theorem exists_performAll (hsize : Text.size (front ++ text) < offsetLimit)
    (steps : List ScanStep) {tracks : List Track} (h : ∀ t ∈ tracks, t.InStep front text) :
    ∃ tracks', performAll tracks steps = .ok tracks' ∧ ∀ t ∈ tracks', t.InStep front text := by
  induction steps generalizing tracks with
  | nil => exact ⟨tracks, rfl, h⟩
  | cons step steps ih =>
    obtain ⟨tracks', hstep, h'⟩ := exists_perform hsize h step
    obtain ⟨tracks'', hsteps, h''⟩ := ih h'
    refine ⟨tracks'', ?_, h''⟩
    rw [performAll, List.foldlM_cons, hstep]
    exact hsteps

end ScanStep

/-! ## The whole of it -/

/-- Whether a track has handed out the first of some tokens, which tile a text from an offset up to
its scanner, and, if these are all, ends of the text; and its scanner, which is the same when it is
started anew, hands out the others when it is asked for all that are left. -/
def Track.Follows (source : Text) (offset : Nat) (all : List Token) (t : Track) : Prop :=
  ∃ ts us n, all = ts ++ us ∧ t.handed = ts ++ List.replicate n (.eof source.size) ∧
    (n ≠ 0 → us = []) ∧ Tiles source offset ts t.scanner.position ∧
    t.scanner.restart = .ok t.scanner ∧ t.scanner.Collects us (between source [])

theorem Track.InStep.follows {front text : Text} {t : Track}
    (hsize : Text.size (front ++ text) < offsetLimit) (h : t.InStep front text) :
    t.Follows (front ++ text) front.size (place front.size (lex text)) := by
  have hrestart := h.scanner_restart
  obtain ⟨ts, us, n, hlex, hscanner, hhanded, hend⟩ := h
  have htext : ts.flatMap (·.2) ++ us.flatMap (·.2) = text := by
    rw [← List.flatMap_append, ← hlex, flatMap_lex]
  refine ⟨place front.size ts, place (front.size + Text.size (ts.flatMap (·.2))) us, n, ?_, hhanded,
    ?_, ?_, hrestart, ?_⟩
  · rw [hlex, place_append_size]
  · intro hn
    rw [hend hn]
    rfl
  · rw [hscanner, position_between, Text.size_append]
    exact tiles_place hlex
  · have hcollects := collects_between (by rwa [List.append_assoc, htext])
    rw [← hscanner, (lex_cut hlex).2, Text.size_append, List.append_assoc, htext] at hcollects
    exact hcollects

/-- In a text of less than 2³² bytes, scanners that begin at one boundary hand out the tokens that
are left from there, whatever is done with them and their copies: nothing fails, the tokens tile the
text, asking goes on to its very end and not further, and starting anew changes nothing. -/
theorem scanners_tile {source : Text} {offset : Nat} (hsize : source.size < offsetLimit)
    (hoffset : source.isBoundary offset = true) :
    ∃ cursor scanner, Cursor.startingAt source offset = .ok cursor ∧
      Scanner.startingAt source offset = .ok scanner ∧
      Tiles source offset cursor.tokens source.size ∧
      (between source []).nextToken = .ok (.eof source.size, between source []) ∧
      ∀ steps, ∃ tracks, ScanStep.performAll [⟨scanner, []⟩] steps = .ok tracks ∧
        ∀ t ∈ tracks, t.Follows source offset cursor.tokens := by
  obtain ⟨front, text, rfl, rfl⟩ := Text.exists_append_of_isBoundary hoffset
  have hcursor : Cursor.startingAt (front ++ text) front.size = .ok ⟨front.size, text⟩ := by
    rw [Cursor.startingAt, Text.splitAt?_size]
  have hstops : Text.size (front ++ text) =
      front.size + Text.size ((lex text).flatMap (·.2)) := by
    rw [flatMap_lex, Text.size_append]
  refine ⟨_, _, hcursor, restart_between front text, ?_, nextToken_end _, fun steps => ?_⟩
  · rw [hstops]
    exact tiles_place (List.append_nil _).symm
  · have hfirst : ∀ t ∈ [Track.mk (between front text) []], t.InStep front text := by
      simp [Track.inStep_between]
    obtain ⟨tracks, hrun, hsteps⟩ := ScanStep.exists_performAll hsize steps hfirst
    exact ⟨tracks, hrun, fun t ht => (hsteps t ht).follows hsize⟩

/-- In `é"a{-€`, from behind the `é`: a scanner that has handed out the open string is copied, and
the copy is started anew and asked on to the end and past it. -/
theorem scanners_tile_open_string :
    Text.size ['é', '"', 'a', '{', '-', '€'] < offsetLimit ∧
      Text.isBoundary ['é', '"', 'a', '{', '-', '€'] 2 = true ∧
      ∃ cursor scanner, Cursor.startingAt ['é', '"', 'a', '{', '-', '€'] 2 = .ok cursor ∧
        Scanner.startingAt ['é', '"', 'a', '{', '-', '€'] 2 = .ok scanner ∧
        Tiles ['é', '"', 'a', '{', '-', '€'] 2 cursor.tokens 9 ∧
        ∃ tracks, ScanStep.performAll [⟨scanner, []⟩]
          [.next 0, .clone 0, .restart 1, .next 1, .nextToken 1, .nextToken 1, .nextToken 1] =
            .ok tracks ∧
          ∀ t ∈ tracks, t.Follows ['é', '"', 'a', '{', '-', '€'] 2 cursor.tokens := by
  have hsize : Text.size ['é', '"', 'a', '{', '-', '€'] < offsetLimit := by decide
  have hboundary : Text.isBoundary ['é', '"', 'a', '{', '-', '€'] 2 = true := by decide
  obtain ⟨cursor, scanner, hcursor, hscanner, htiles, -, hsteps⟩ := scanners_tile hsize hboundary
  exact ⟨hsize, hboundary, cursor, scanner, hcursor, hscanner, htiles, hsteps _⟩

end Maml
