import Maml.Layout
import Maml.Proofs.Lossless

/-! Words keep apart by themselves.

1. A word goes on up to a character that no word is written with, and what stands
   there does not change how the word is scanned (`scan_append_of_parted`). Two
   quotes with a third one behind them are the exception. A delimiter, which is a
   blank, a bracket, a comma, a colon or a comment, always ends it (`scan_append`).
2. So a text that is one token stays that token in front of a delimiter, and a
   punctuation mark stays one in front of anything (`lex_append`).
3. A gap is trivia, in front of any word, with as many line breaks as its blanks
   have (`exists_lex_gap`). -/
namespace Maml

def TokenKind.isPunctuation : TokenKind → Bool
  | lBrace | rBrace | lBracket | rBracket | colon | comma => true
  | _ => false

namespace Lexer

/-! ## Delimiters -/

/-- The characters that no word goes on with. -/
def isDelimiter (c : Char) : Bool := isBlank c || isStructural c || c == ':' || c == '#'

/-- Whether a text does not go on with a word. -/
def Delimited (cs : Text) : Prop := ∀ c ∈ cs.head?, isDelimiter c = true

theorem delimited_nil : Delimited [] := by
  intro c hc
  simp at hc

theorem delimited_cons {c : Char} {cs : Text} (h : isDelimiter c = true) : Delimited (c :: cs) := by
  intro c' hc'
  obtain rfl : c = c' := by simpa using hc'
  exact h

def delimiters : List Char := [' ', '\t', '\n', '\r', '{', '}', '[', ']', ',', ':', '#']

theorem mem_delimiters {c : Char} (h : isDelimiter c = true) : c ∈ delimiters := by
  simpa only [isDelimiter, isBlank, isLineBreak, isStructural, Bool.or_eq_true, beq_iff_eq,
    or_assoc, delimiters, List.mem_cons, List.not_mem_nil, or_false] using h

/-- The characters that a name or a number can go on with. -/
def isWordPart (c : Char) : Bool := isNameChar c || c == '.' || c == '+'

/-- Whether a text does not go on with a name or a number. -/
def Parted (cs : Text) : Prop := ∀ c ∈ cs.head?, isWordPart c = false

theorem parted_cons {c : Char} {cs : Text} (h : isWordPart c = false) : Parted (c :: cs) := by
  intro c' hc'
  obtain rfl : c = c' := by simpa using hc'
  exact h

theorem Delimited.parted {cs : Text} (h : Delimited cs) : Parted cs := by
  have hall : ∀ c ∈ delimiters, isWordPart c = false := by
    simp [delimiters, isWordPart, isNameChar]
  exact fun c hc => hall c (mem_delimiters (h c hc))

theorem Delimited.ne_quote {cs : Text} (h : Delimited cs) : ∀ c ∈ cs.head?, c ≠ '"' := by
  have hall : ∀ c ∈ delimiters, c ≠ '"' := by simp [delimiters]
  exact fun c hc => hall c (mem_delimiters (h c hc))

theorem not_isNameChar_of_not_isWordPart {c : Char} (h : isWordPart c = false) :
    isNameChar c = false := by
  simp only [isWordPart, Bool.or_eq_false_iff] at h
  exact h.1.1

theorem not_isDigit_of_not_isWordPart {c : Char} (h : isWordPart c = false) :
    c.isDigit = false := by
  have hname := not_isNameChar_of_not_isWordPart h
  simp only [isNameChar, Char.isAlphanum, Bool.or_eq_false_iff] at hname
  exact hname.1.1.2

theorem ne_numberPart_of_not_isWordPart {c : Char} (h : isWordPart c = false) :
    c ≠ '.' ∧ c ≠ 'e' ∧ c ≠ 'E' ∧ c ≠ '+' ∧ c ≠ '-' := by
  refine ⟨?_, ?_, ?_, ?_, ?_⟩ <;> rintro rfl <;> revert h <;> decide

/-! ## Rules in front of what is no part of a word -/

theorem takeWhile_append {p : Char → Bool} (cs : Text) {tail : Text}
    (h : ∀ c ∈ tail.head?, p c = false) : (cs ++ tail).takeWhile p = cs.takeWhile p := by
  induction cs with
  | nil =>
    cases tail with
    | nil => rfl
    | cons c tail => simp [h c (by simp)]
  | cons c cs ih => simp only [List.cons_append, List.takeWhile_cons, ih]

section

variable {tail : Text} (ht : Parted tail)
include ht

theorem digits_append (cs : Text) : digits (cs ++ tail) = digits cs :=
  takeWhile_append cs fun c hc => not_isDigit_of_not_isWordPart (ht c hc)

theorem startsWithDigit_append (cs : Text) : startsWithDigit (cs ++ tail) = startsWithDigit cs := by
  cases cs with
  | cons => rfl
  | nil =>
    cases tail with
    | nil => rfl
    | cons c tail => exact not_isDigit_of_not_isWordPart (ht c rfl)

theorem fraction_append (cs : Text) : fraction (cs ++ tail) = fraction cs := by
  cases cs with
  | cons c cs =>
    by_cases hc : c = '.'
    · subst hc
      rw [List.cons_append, fraction, fraction, startsWithDigit_append ht, digits_append ht]
    · rw [List.cons_append, fraction.eq_2 _ (by simp [hc]), fraction.eq_2 _ (by simp [hc])]
  | nil =>
    cases tail with
    | nil => rfl
    | cons c tail =>
      have hc := (ne_numberPart_of_not_isWordPart (ht c rfl)).1
      rw [List.nil_append, fraction.eq_2 _ (by simp [hc])]
      rfl

theorem signedDigits_append (cs : Text) : signedDigits (cs ++ tail) = signedDigits cs := by
  cases cs with
  | cons c cs =>
    have hdigits := digits_append ht (c :: cs)
    rw [List.cons_append] at hdigits ⊢
    rw [signedDigits, signedDigits, startsWithDigit_append ht, digits_append ht, hdigits]
  | nil =>
    cases tail with
    | nil => rfl
    | cons c tail =>
      obtain ⟨-, -, -, hplus, hminus⟩ := ne_numberPart_of_not_isWordPart (ht c rfl)
      have hdigits := digits_append ht []
      rw [List.nil_append] at hdigits ⊢
      rw [signedDigits, if_neg (by simp [hplus, hminus]), hdigits]
      rfl

theorem exponent_append (cs : Text) : exponent (cs ++ tail) = exponent cs := by
  cases cs with
  | cons c cs => rw [List.cons_append, exponent, exponent, signedDigits_append ht]
  | nil =>
    cases tail with
    | nil => rfl
    | cons c tail =>
      obtain ⟨-, he, hE, -⟩ := ne_numberPart_of_not_isWordPart (ht c rfl)
      rw [List.nil_append, exponent, if_neg (by simp [he, hE])]
      rfl

theorem number_append (cs : Text) : number (cs ++ tail) = number cs := by
  have hwhole : (cs ++ tail).drop (digits cs).length = cs.drop (digits cs).length ++ tail :=
    List.drop_append_of_le_length (digits_isPrefix cs).length_le
  have hpart : (cs.drop (digits cs).length ++ tail).drop
      (fraction (cs.drop (digits cs).length)).length =
        (cs.drop (digits cs).length).drop (fraction (cs.drop (digits cs).length)).length ++ tail :=
    List.drop_append_of_le_length (fraction_isPrefix _).length_le
  unfold number
  simp only
  rw [digits_append ht, hwhole, fraction_append ht, hpart, exponent_append ht]

theorem name_append (cs : Text) :
    (cs ++ tail).takeWhile isNameChar = cs.takeWhile isNameChar :=
  takeWhile_append cs fun c hc => not_isNameChar_of_not_isWordPart (ht c hc)

omit ht in
/-- A text does not begin with two quotes because of what is put behind it, unless it is a quote
in front of another. -/
theorem eq_of_append_eq_quotes {cs rest : Text} (hcs : cs ≠ [])
    (hquote : cs = ['"'] → ∀ c ∈ tail.head?, c ≠ '"') (h : cs ++ tail = '"' :: '"' :: rest) :
    ∃ ds, cs = '"' :: '"' :: ds := by
  obtain ⟨c, cs, rfl⟩ := List.exists_cons_of_ne_nil hcs
  obtain ⟨rfl, hrest⟩ := List.cons.inj h
  cases cs with
  | nil =>
    have htail : tail = '"' :: rest := hrest
    exact absurd rfl (hquote rfl '"' (by rw [htail]; rfl))
  | cons d cs =>
    obtain ⟨rfl, -⟩ := List.cons.inj hrest
    exact ⟨cs, rfl⟩

omit ht in
/-- A string that is closed stays as it is, except for two quotes in front of a third. -/
theorem string_append {cs : Text} (hk : (string cs).1 ≠ .unterminatedString)
    (hquote : cs = ['"'] → ∀ c ∈ tail.head?, c ≠ '"') : string (cs ++ tail) = string cs := by
  by_cases hquotes : ∃ ds, cs = '"' :: '"' :: ds
  · -- a multiline string
    obtain ⟨ds, rfl⟩ := hquotes
    rw [List.cons_append, List.cons_append, string, string]
    rw [string] at hk
    cases hbody : tripleBody ds with
    | none => simp [hbody] at hk
    | some body => rw [tripleBody_append hbody]
  · -- a string on one line: the tail could make it a multiline string only by beginning with a quote
    have hne : ∀ ds, cs = '"' :: '"' :: ds → False := fun ds h => hquotes ⟨ds, h⟩
    rw [string.eq_2 _ hne] at hk ⊢
    cases hbody : closedBody cs with
    | none => simp [hbody] at hk
    | some body =>
      have hcs : cs ≠ [] := by
        rintro rfl
        simp [closedBody] at hbody
      rw [string.eq_2 _ fun _ h => hquotes (eq_of_append_eq_quotes hcs hquote h),
        closedBody_append hbody]

/-- A word, or a mark between words, does not go on into what is no part of a word, except for two
quotes in front of a third. -/
theorem scan_append_of_parted {c : Char} {cs : Text} (hk : (scan c cs).1.isTrivia = false)
    (hs : (scan c cs).1 ≠ .unterminatedString)
    (hquote : c :: cs = ['"', '"'] → ∀ d ∈ tail.head?, d ≠ '"') :
    scan c (cs ++ tail) = scan c cs := by
  cases scanRule c with
  | mark _ hscan | bad hscan => rw [hscan, hscan]
  | comment _ hscan | blank _ hscan =>
    rw [hscan] at hk
    exact absurd hk nofun
  | quote hc hscan =>
    rw [hscan] at hs
    rw [hscan, hscan]
    exact string_append hs fun h => hquote (by rw [hc, h])
  | sign _ hscan => rw [hscan, hscan, startsWithDigit_append ht, number_append ht]
  | digit _ hscan => rw [hscan, hscan, number_append ht]
  | name _ hscan => rw [hscan, hscan, name_append ht]

end

/-- A word, or a mark between words, goes on up to a delimiter at most. -/
theorem scan_append {tail : Text} (ht : Delimited tail) {c : Char} {cs : Text}
    (hk : (scan c cs).1.isTrivia = false) (hs : (scan c cs).1 ≠ .unterminatedString) :
    scan c (cs ++ tail) = scan c cs :=
  scan_append_of_parted ht.parted hk hs fun _ => ht.ne_quote

/-! ## Punctuation -/

theorem scan_of_isPunctuation {c : Char} {cs : Text} (h : (scan c cs).1.isPunctuation = true) :
    isDelimiter c = true ∧ ∀ ds, scan c ds = ((scan c cs).1, []) := by
  cases scanRule c with
  | mark hc hscan =>
    have hmarks : ∀ m ∈ punctuation, isDelimiter m.1 = true := by decide
    exact ⟨hmarks _ hc, fun ds => by rw [hscan, hscan]⟩
  | quote _ hscan =>
    rw [hscan] at h
    exact absurd h (string_rec cs nofun nofun nofun)
  | sign _ hscan =>
    rw [hscan] at h
    split at h <;> exact absurd h nofun
  | name _ hscan =>
    rw [hscan] at h
    exact absurd h (wordKind_rec _ nofun nofun nofun nofun)
  | comment _ hscan | blank _ hscan | digit _ hscan | bad hscan =>
    rw [hscan] at h
    exact absurd h nofun

theorem mem_reserved_of_scan {c : Char} {cs : Text} (h : (scan c cs).1.isKeyword = true) :
    (c :: (scan c cs).2, (scan c cs).1) ∈ reserved := by
  cases scanRule c with
  | name _ hscan =>
    rw [hscan] at h ⊢
    rcases wordKind_cases (c :: cs.takeWhile isNameChar) with hword | hword
    · rw [hword] at h
      exact absurd h nofun
    · exact hword
  | mark hc hscan =>
    have hmarks : ∀ m ∈ punctuation, ¬ m.2.isKeyword = true := by decide
    rw [hscan] at h
    exact absurd h (hmarks _ hc)
  | quote _ hscan =>
    rw [hscan] at h
    exact absurd h (string_rec cs nofun nofun nofun)
  | sign _ hscan =>
    rw [hscan] at h
    split at h <;> exact absurd h nofun
  | comment _ hscan | blank _ hscan | digit _ hscan | bad hscan =>
    rw [hscan] at h
    exact absurd h nofun

theorem scan_of_isBlank {c : Char} (h : isBlank c = true) (cs : Text) :
    scan c cs = (.whitespace, cs.takeWhile isBlank) := by
  have hc : c = ' ' ∨ c = '\t' ∨ c = '\n' ∨ c = '\r' := by
    simpa only [isBlank, isLineBreak, Bool.or_eq_true, beq_iff_eq, or_assoc] using h
  rcases hc with rfl | rfl | rfl | rfl <;> rfl

/-! ## Trivia -/

theorem not_isTrivia_string (cs : Text) : (string cs).1.isTrivia = false :=
  string_rec cs rfl rfl rfl

theorem scan_of_isTrivia {c : Char} {cs : Text} (h : (scan c cs).1.isTrivia = true) :
    isBlank c = true ∧ scan c cs = (.whitespace, cs.takeWhile isBlank) ∨
      c = '#' ∧ scan c cs = (.comment, cs.takeWhile (!isLineBreak ·)) := by
  cases scanRule c with
  | blank hc hscan => exact .inl ⟨hc, hscan cs⟩
  | comment hc hscan => exact .inr ⟨hc, hscan cs⟩
  | mark hc hscan =>
    have hmarks : ∀ m ∈ punctuation, ¬ m.2.isTrivia = true := by decide
    rw [hscan] at h
    exact absurd h (hmarks _ hc)
  | quote _ hscan =>
    rw [hscan, not_isTrivia_string] at h
    exact absurd h nofun
  | sign _ hscan =>
    rw [hscan] at h
    split at h <;> exact absurd h nofun
  | name _ hscan =>
    rw [hscan] at h
    exact absurd h (wordKind_rec _ nofun nofun nofun nofun)
  | digit _ hscan | bad hscan =>
    rw [hscan] at h
    exact absurd h nofun

/-! ## Texts -/

theorem lex_cons (c : Char) (cs : Text) :
    lex (c :: cs) = ((scan c cs).1, c :: (scan c cs).2) :: lex (cs.drop (scan c cs).2.length) := by
  rw [lex]

theorem lex_of_scan {c : Char} {taken cs : Text} {kind : TokenKind}
    (h : scan c (taken ++ cs) = (kind, taken)) :
    lex (c :: (taken ++ cs)) = (kind, c :: taken) :: lex cs := by
  rw [lex_cons, h, List.drop_left]

theorem lex_eq_of_scan {c : Char} {cs : Text} {kind : TokenKind} (h : scan c cs = (kind, cs)) :
    lex (c :: cs) = [(kind, c :: cs)] := by
  have hlex : lex (c :: (cs ++ [])) = (kind, c :: cs) :: lex [] :=
    lex_of_scan (by rwa [List.append_nil])
  rwa [List.append_nil, lex] at hlex

theorem exists_scan_of_lex_eq {text : Text} {kind : TokenKind} (h : lex text = [(kind, text)]) :
    ∃ c cs, text = c :: cs ∧ scan c cs = (kind, cs) := by
  cases text with
  | nil => simp [lex] at h
  | cons c cs =>
    rw [lex_cons] at h
    obtain ⟨hkind, hcs⟩ := Prod.mk.inj (List.cons.inj h).1
    exact ⟨c, cs, rfl, Prod.ext hkind (List.cons.inj hcs).2⟩

theorem exists_tokenize_eq_singleton_iff {text : Text} {kind : TokenKind} :
    (∃ t, tokenize text = [t] ∧ t.kind = kind) ↔ lex text = [(kind, text)] := by
  constructor
  · rintro ⟨t, ht, rfl⟩
    have htext := flatMap_lex text
    rw [tokenize] at ht
    cases hlex : lex text with
    | nil => simp [hlex, place] at ht
    | cons first rest =>
      rw [hlex, place, List.cons.injEq] at ht
      obtain ⟨rfl, hrest⟩ := ht
      cases rest with
      | nil =>
        rw [hlex, List.flatMap_singleton] at htext
        rw [← htext]
      | cons => simp [place] at hrest
  · intro h
    refine ⟨⟨kind, ⟨0, 0 + text.size⟩, text⟩, ?_, rfl⟩
    rw [tokenize, h, place, place]

end Lexer

/-! ## Words -/

namespace Word

open Lexer

variable (w : Word) (tail : Text)

theorem exists_scan : ∃ c cs, w.text = c :: cs ∧ scan c cs = (w.kind, cs) :=
  exists_scan_of_lex_eq w.lex_text

variable {w}

theorem exists_delimiter (h : w.kind.isPunctuation = true) :
    ∃ c, w.text = [c] ∧ isDelimiter c = true ∧ ∀ cs, scan c cs = (w.kind, []) := by
  obtain ⟨c, cs, htext, hscan⟩ := w.exists_scan
  have hkind : (scan c cs).1.isPunctuation = true := by rw [hscan]; exact h
  obtain ⟨hdelimiter, hmark⟩ := scan_of_isPunctuation hkind
  rw [hscan] at hmark
  have hcs : cs = [] := (Prod.mk.inj (hscan.symm.trans (hmark cs))).2
  exact ⟨c, by rw [htext, hcs], hdelimiter, hmark⟩

theorem lex_append_of_isPunctuation (h : w.kind.isPunctuation = true) :
    lex (w.text ++ tail) = (w.kind, w.text) :: lex tail := by
  obtain ⟨c, htext, -, hmark⟩ := exists_delimiter h
  rw [htext]
  exact lex_of_scan (hmark tail)

theorem head?_not_isBlank (hk : w.kind.isTrivia = false) :
    ∀ c ∈ (w.text ++ tail).head?, isBlank c = false := by
  obtain ⟨c, cs, htext, hscan⟩ := w.exists_scan
  intro c' hc'
  rw [htext] at hc'
  obtain rfl : c = c' := by simpa using hc'
  cases hblank : isBlank c with
  | false => rfl
  | true =>
    rw [scan_of_isBlank hblank] at hscan
    rw [← (Prod.mk.inj hscan).1] at hk
    simp [TokenKind.isTrivia] at hk

variable {tail}

/-- A word is a token in front of a delimiter. -/
theorem lex_append (hk : w.kind.isTrivia = false) (hs : w.kind ≠ .unterminatedString)
    (ht : Delimited tail) : lex (w.text ++ tail) = (w.kind, w.text) :: lex tail := by
  obtain ⟨c, cs, htext, hscan⟩ := w.exists_scan
  have hlong : scan c (cs ++ tail) = (w.kind, cs) := by
    rw [scan_append ht (by rw [hscan]; exact hk) (by rw [hscan]; exact hs), hscan]
  rw [htext]
  exact lex_of_scan hlong

theorem mem_reserved (h : w.kind.isKeyword = true) : (w.text, w.kind) ∈ reserved := by
  obtain ⟨c, cs, htext, hscan⟩ := w.exists_scan
  have hword : (c :: (scan c cs).2, (scan c cs).1) ∈ reserved :=
    mem_reserved_of_scan (by rw [hscan]; exact h)
  rw [hscan] at hword
  rw [htext]
  exact hword

end Word

/-! ## Gaps -/

namespace Lexer

theorem isBlank_of_isLineBreak {c : Char} (h : isLineBreak c = true) : isBlank c = true := by
  simp [isBlank, h]

theorem isGap_dropWhile {gap : Text} (h : IsGap gap) : IsGap (gap.dropWhile isBlank) := by
  induction h with
  | nil => exact .nil
  | blank hc h ih => rwa [List.dropWhile_cons, if_pos hc]
  | comment hbody hc h ih => exact .comment hbody hc h

def breaksLine (ts : List (TokenKind × Text)) : Bool :=
  ts.any fun t => t.1 == .whitespace && t.2.any isLineBreak

theorem takeWhile_comment {body : Text} (hbody : body.any isLineBreak = false) {tail : Text}
    (ht : ∀ c ∈ tail.head?, isLineBreak c = true) :
    (body ++ tail).takeWhile (!isLineBreak ·) = body := by
  rw [takeWhile_append body fun c hc => by simp [ht c hc]]
  exact List.takeWhile_eq_self_iff.mpr fun c hc => by simp [List.any_eq_false.mp hbody c hc]

/-- A gap is trivia in front of a word, and has line breaks exactly if the blanks among it do. -/
theorem exists_lex_gap {gap : Text} (h : IsGap gap) (tail : Text)
    (ht : ∀ c ∈ tail.head?, isBlank c = false) :
    ∃ ts, lex (gap ++ tail) = ts ++ lex tail ∧ (∀ t ∈ ts, t.1.isTrivia = true) ∧
      breaksLine ts = gap.any isLineBreak := by
  -- a run of blanks is one token, so the induction is on the length, not on the gap
  induction hn : gap.length using Nat.strongRecOn generalizing gap with
  | ind n ih =>
    subst hn
    cases h with
    | nil => exact ⟨[], rfl, by simp, rfl⟩
    | @blank c gap hc h =>
      -- the blanks behind `c` belong to its token
      have hlength : (gap.dropWhile isBlank).length < (c :: gap).length :=
        Nat.lt_succ_of_le (List.dropWhile_sublist _).length_le
      obtain ⟨ts, hlex, htrivia, hbreaks⟩ := ih _ hlength (isGap_dropWhile h) rfl
      have hsplit := gap.takeWhile_append_dropWhile (p := isBlank)
      have hscan : scan c (gap.takeWhile isBlank ++ (gap.dropWhile isBlank ++ tail)) =
          (.whitespace, gap.takeWhile isBlank) := by
        rw [scan_of_isBlank hc, ← List.append_assoc, hsplit, takeWhile_append gap ht]
      refine ⟨(.whitespace, c :: gap.takeWhile isBlank) :: ts, ?_, ?_, ?_⟩
      · have htoken := lex_of_scan hscan
        rw [hlex, ← List.append_assoc, hsplit] at htoken
        exact htoken
      · intro t ht
        rcases List.mem_cons.mp ht with rfl | ht
        · rfl
        · exact htrivia t ht
      · have hany : gap.any isLineBreak =
            ((gap.takeWhile isBlank).any isLineBreak || (gap.dropWhile isBlank).any isLineBreak) := by
          rw [← List.any_append, hsplit]
        rw [breaksLine, List.any_cons, ← breaksLine, hbreaks, List.any_cons, List.any_cons, hany]
        simp [Bool.or_assoc]
    | @comment body c gap hbody hc h =>
      -- the line break behind a comment does not belong to it
      have hlength : (c :: gap).length < ('#' :: body ++ c :: gap).length := by
        simp only [List.length_cons, List.length_append]
        omega
      obtain ⟨ts, hlex, htrivia, hbreaks⟩ := ih _ hlength (.blank (isBlank_of_isLineBreak hc) h) rfl
      have hscan : scan '#' (body ++ (c :: gap ++ tail)) = (.comment, body) := by
        rw [scan, takeWhile_comment hbody (by simpa using hc)]
      refine ⟨(.comment, '#' :: body) :: ts, ?_, ?_, ?_⟩
      · have htoken := lex_of_scan hscan
        rw [hlex] at htoken
        simpa using htoken
      · intro t ht
        rcases List.mem_cons.mp ht with rfl | ht
        · rfl
        · exact htrivia t ht
      · rw [breaksLine, List.any_cons, ← breaksLine, hbreaks, List.any_append, List.any_cons, hbody]
        rfl

theorem isTrivia_of_mem_lex_end {text : Text} (h : IsEnd text) :
    ∀ t ∈ lex text, t.1.isTrivia = true := by
  cases h with
  | @gap gap h =>
    obtain ⟨ts, hlex, htrivia, -⟩ := exists_lex_gap h [] (by simp)
    rw [List.append_nil, lex, List.append_nil] at hlex
    rw [hlex]
    exact htrivia
  | @comment gap body h hbody =>
    have hscan : scan '#' (body ++ []) = (.comment, body) := by
      rw [scan, takeWhile_comment hbody (by simp)]
    have hcomment := lex_of_scan hscan
    rw [List.append_nil, lex] at hcomment
    obtain ⟨ts, hlex, htrivia, -⟩ := exists_lex_gap h ('#' :: body) (by simp; decide)
    rw [hlex, hcomment]
    intro t ht
    rcases List.mem_append.mp ht with ht | ht
    · exact htrivia t ht
    · obtain rfl : t = _ := List.mem_singleton.mp ht
      rfl

end Lexer

end Maml
