import Maml.Proofs.Splicing
import Maml.Repair

/-! Where tokens end.

1. A number goes on into the text behind it if that begins with a digit, or with a fraction or an
   exponent that the number does not have (`number_append_eq_iff`).
2. `Ends` says of a token of any sort that it does not go on into the text behind it. It is then one
   in front of that text, and only then (`lex_append_iff`).
3. A number from in front of which a plus sign is taken away stays a token, and with it all others,
   exactly if nothing in front of it `Joins` with it (`lex_unsigned`, `not_joins_of_lex`). If other
   tokens come about, then other significant ones (`lex_eq_of_filter_eq`). -/
namespace Maml.Lexer

/-! ## Numbers that go on -/

def AreDigits (text : Text) : Prop := ∀ c ∈ text, c.isDigit = true

theorem digits_eq_nil_iff {cs : Text} : digits cs = [] ↔ startsWithDigit cs = false := by
  cases cs with
  | nil => simp [digits, startsWithDigit]
  | cons c cs => simp [digits, startsWithDigit, List.takeWhile_cons]

theorem areDigits_digits (cs : Text) : AreDigits (digits cs) := by
  have hall := List.all_takeWhile (p := Char.isDigit) (l := cs)
  exact List.all_eq_true.mp hall

theorem AreDigits.not_mem {whole : Text} (h : AreDigits whole) {c : Char} (hc : c.isDigit = false) :
    c ∉ whole := fun hmem => Bool.false_ne_true (hc.symm.trans (h c hmem))

theorem AreDigits.not_hasExponent {whole : Text} (h : AreDigits whole) : ¬ HasExponent whole := by
  rintro (he | he)
  · exact h.not_mem (by decide) he
  · exact h.not_mem (by decide) he

theorem AreDigits.digits_append {whole : Text} (h : AreDigits whole) (tail : Text) :
    digits (whole ++ tail) = whole ++ digits tail := List.takeWhile_append_of_pos h

theorem AreDigits.startsWithDigit {whole : Text} (h : AreDigits whole) (hne : whole ≠ [])
    (tail : Text) : startsWithDigit (whole ++ tail) = true := by
  obtain ⟨c, cs, rfl⟩ := List.exists_cons_of_ne_nil hne
  exact h c List.mem_cons_self

theorem AreDigits.number_append {whole : Text} (h : AreDigits whole) (tail : Text) :
    number (whole ++ tail) = whole ++ number tail := by
  have hdrop : (whole ++ tail).drop (whole ++ digits tail).length =
      tail.drop (digits tail).length := by
    rw [List.length_append, ← List.drop_drop, List.drop_left]
  simp only [number, h.digits_append, hdrop, List.append_assoc]

theorem number_of_not_startsWithDigit {cs : Text} (h : startsWithDigit cs = false) :
    number cs = fraction cs ++ exponent (cs.drop (fraction cs).length) := by
  rw [number_eq, digits_eq_nil_iff.mpr h]
  rfl

theorem number_append_of_point {part : Text} (hp : AreDigits part) (hne : part ≠ []) (tail : Text) :
    number ('.' :: part ++ tail) =
      '.' :: part ++ (digits tail ++ exponent (tail.drop (digits tail).length)) := by
  have hfraction : fraction ('.' :: part ++ tail) = '.' :: (part ++ digits tail) := by
    rw [List.cons_append, fraction, if_pos (hp.startsWithDigit hne tail), hp.digits_append]
  have hdrop : ('.' :: part ++ tail).drop ('.' :: (part ++ digits tail)).length =
      tail.drop (digits tail).length := by
    rw [List.cons_append, List.length_cons, List.drop_succ_cons, List.length_append,
      ← List.drop_drop, List.drop_left]
  rw [number_of_not_startsWithDigit rfl, hfraction, hdrop]
  simp

theorem exponent_append_of_letter {e : Char} {part : Text} (he : e = 'e' ∨ e = 'E')
    (hself : signedDigits part = part) (hne : part ≠ []) (tail : Text) :
    exponent (e :: part ++ tail) = e :: part ++ digits tail := by
  have hsigned : signedDigits (part ++ tail) = part ++ digits tail := by
    obtain ⟨c, cs, rfl⟩ := List.exists_cons_of_ne_nil hne
    rw [signedDigits] at hself
    rw [List.cons_append, signedDigits]
    split at hself
    · rename_i hsign
      split at hself
      · have hcs : AreDigits cs := (List.cons.inj hself).2 ▸ areDigits_digits cs
        have hstart : startsWithDigit (cs ++ tail) = true := by
          cases cs with
          | nil => contradiction
          | cons d ds => assumption
        rw [if_pos hsign, if_pos hstart, hcs.digits_append]
        rfl
      · exact absurd hself.symm (List.cons_ne_nil _ _)
    · rename_i hsign
      have hcs : AreDigits (c :: cs) := hself ▸ areDigits_digits (c :: cs)
      rw [if_neg hsign, ← List.cons_append, hcs.digits_append]
  have hsome : (part ++ digits tail).isEmpty = false := by
    cases part with
    | nil => contradiction
    | cons => rfl
  rw [List.cons_append, exponent, hsigned, hsome, if_pos (by simpa using he)]
  rfl

theorem number_append_of_exponent {e : Char} {part : Text} (he : e = 'e' ∨ e = 'E')
    (hself : signedDigits part = part) (hne : part ≠ []) (tail : Text) :
    number (e :: part ++ tail) = e :: part ++ digits tail := by
  have hdigit : startsWithDigit (e :: part ++ tail) = false := by rcases he with rfl | rfl <;> rfl
  have hfraction : fraction (e :: part ++ tail) = [] := by rcases he with rfl | rfl <;> rfl
  rw [number_of_not_startsWithDigit hdigit, hfraction, List.length_nil, List.drop_zero,
    exponent_append_of_letter he hself hne]
  rfl

theorem SurvivesCut.self {rule : Text → Text} (h : SurvivesCut rule)
    (hp : ∀ cs, rule cs <+: cs) (cs : Text) : rule (rule cs) = rule cs := by
  obtain ⟨rest, hrest⟩ := hp cs
  have hcut := h (rule cs) rest
  rw [hrest] at hcut
  exact hcut (List.prefix_refl _)

theorem fraction_cases (cs : Text) : fraction cs = [] ∨
    ∃ part, fraction cs = '.' :: part ∧ AreDigits part ∧ part ≠ [] := by
  unfold fraction
  split
  · rename_i cs
    split
    · rename_i hstart
      refine .inr ⟨_, rfl, areDigits_digits cs, fun hnil => ?_⟩
      rw [digits_eq_nil_iff, hstart] at hnil
      exact absurd hnil (by decide)
    · exact .inl rfl
  · exact .inl rfl

theorem exponent_cases (cs : Text) : exponent cs = [] ∨
    ∃ e part, exponent cs = e :: part ∧ (e = 'e' ∨ e = 'E') ∧ signedDigits part = part ∧
      part ≠ [] := by
  unfold exponent
  split
  · rename_i c cs
    split
    · rename_i h
      simp only [Bool.and_eq_true, Bool.or_eq_true, beq_iff_eq, Bool.not_eq_true',
        List.isEmpty_eq_false_iff] at h
      exact .inr ⟨c, _, rfl, h.1, survivesCut_signedDigits.self signedDigits_isPrefix cs, h.2⟩
    · exact .inl rfl
  · exact .inl rfl

def GoesOn (text tail : Text) : Prop :=
  startsWithDigit tail = true ∨
    ('.' ∉ text ∧ ¬ HasExponent text) ∧ fraction tail ≠ [] ∨
      ¬ HasExponent text ∧ exponent tail ≠ []

theorem number_cases {cs : Text} (h : number cs = cs) : AreDigits cs ∨
    ('.' ∈ cs ∧ ¬ HasExponent cs) ∧ (∀ tail, number (cs ++ tail) =
      cs ++ (digits tail ++ exponent (tail.drop (digits tail).length))) ∨
    HasExponent cs ∧ ∀ tail, number (cs ++ tail) = cs ++ digits tail := by
  rw [number_eq] at h
  have hwhole := areDigits_digits cs
  generalize digits cs = whole at h hwhole
  rcases exponent_cases (cs.drop (whole ++ fraction (cs.drop whole.length)).length) with
    hnone | ⟨e, expo, hexpo, he, hself, hne⟩
  · rw [hnone, List.append_nil] at h
    rcases fraction_cases (cs.drop whole.length) with hnone | ⟨part, hpart, hdigits, hne⟩
    · rw [hnone, List.append_nil] at h
      exact .inl (h ▸ hwhole)
    · rw [hpart] at h
      subst h
      refine .inr (.inl ⟨⟨by simp, ?_⟩, fun tail => ?_⟩)
      · have hw := hwhole.not_hasExponent
        have hp := hdigits.not_hasExponent
        simp only [HasExponent, List.mem_append, List.mem_cons, not_or] at hw hp ⊢
        exact ⟨⟨hw.1, by decide, hp.1⟩, hw.2, by decide, hp.2⟩
      · rw [List.append_assoc, hwhole.number_append, number_append_of_point hdigits hne,
          List.append_assoc]
  · rw [hexpo] at h
    refine .inr (.inr ⟨?_, fun tail => ?_⟩)
    · rw [HasExponent, ← h]
      rcases he with rfl | rfl <;> simp
    · rcases fraction_cases (cs.drop whole.length) with hnone | ⟨part, hpart, hdigits, hpne⟩
      · rw [hnone, List.append_nil] at h
        rw [← h, List.append_assoc, hwhole.number_append, number_append_of_exponent he hself hne,
          List.append_assoc]
      · rw [hpart] at h
        have hdigit : digits (e :: expo ++ tail) = [] := by rcases he with rfl | rfl <;> rfl
        rw [← h, List.append_assoc, List.append_assoc, hwhole.number_append,
          number_append_of_point hdigits hpne, hdigit, List.length_nil, List.drop_zero,
          exponent_append_of_letter he hself hne]
        simp

theorem number_append_eq_iff {cs : Text} (h : number cs = cs) (tail : Text) :
    number (cs ++ tail) = cs ↔ ¬ GoesOn cs tail := by
  have hdigits : digits tail = [] ↔ ¬ startsWithDigit tail = true := by
    rw [digits_eq_nil_iff, Bool.not_eq_true]
  rcases number_cases h with hwhole | ⟨⟨hpoint, hplain⟩, hnumber⟩ | ⟨hexponent, hnumber⟩
  · have hpoint : '.' ∉ cs := hwhole.not_mem (by decide)
    have hplain := hwhole.not_hasExponent
    rw [hwhole.number_append, List.append_right_eq_self, number_eq]
    by_cases hstart : startsWithDigit tail = true
    · simp [GoesOn, hdigits, hstart]
    · have hnil := hdigits.mpr hstart
      by_cases hfraction : fraction tail = []
      · simp [GoesOn, hnil, hstart, hfraction, hplain]
      · simp [GoesOn, hnil, hfraction, hplain, hpoint]
  · rw [hnumber, GoesOn]
    by_cases hstart : startsWithDigit tail = true
    · simp [hdigits, hstart]
    · simp [hdigits.mpr hstart, hstart, hpoint, hplain]
  · rw [hnumber, GoesOn]
    simp [hdigits, hexponent]

/-! ## Ends -/

/-- Whether a token does not go on into the text behind it. -/
structure Ends (t : TokenKind × Text) (tail : Text) : Prop extends EndsAt t tail where
  name : t.1.isName = true → ∀ c ∈ tail.head?, isNameChar c = false
  number : t.1 = .number → ¬ GoesOn t.2 tail
  sign : t.2 = ['-'] → startsWithDigit tail = false

section
variable {c : Char} {cs tail : Text} {kind : TokenKind}

theorem goesOn_cons (hc : c = '-' ∨ c.isDigit = true) : GoesOn (c :: cs) tail ↔ GoesOn cs tail := by
  have hne : c ≠ '.' ∧ c ≠ 'e' ∧ c ≠ 'E' := by
    refine ⟨?_, ?_, ?_⟩ <;> rintro rfl <;> revert hc <;> decide
  simp [GoesOn, HasExponent, hne.1.symm, hne.2.1.symm, hne.2.2.symm]

theorem isName_wordKind (word : Text) : (wordKind word).isName = true :=
  wordKind_rec word rfl rfl rfl rfl

theorem scan_of_isName (h : (scan c cs).1.isName = true) : isNameStart c = true ∧
    ∀ ds, scan c ds = (wordKind (c :: ds.takeWhile isNameChar), ds.takeWhile isNameChar) := by
  cases scanRule c with
  | name hc hscan => exact ⟨hc, hscan⟩
  | mark hc hscan =>
    have hmarks : ∀ m ∈ punctuation, ¬ m.2.isName = true := by decide
    rw [hscan] at h
    exact absurd h (hmarks _ hc)
  | quote _ hscan =>
    rw [hscan] at h
    exact absurd h (string_rec cs nofun nofun nofun)
  | sign _ hscan =>
    rw [hscan] at h
    split at h <;> exact absurd h nofun
  | comment _ hscan | blank _ hscan | digit _ hscan | bad hscan =>
    rw [hscan] at h
    exact absurd h nofun

theorem scan_of_number (h : (scan c cs).1 = .number) :
    (c = '-' ∧ startsWithDigit cs = true ∨ c.isDigit = true) ∧ scan c cs = (.number, number cs) := by
  cases scanRule c with
  | digit hc hscan => exact ⟨.inr hc, hscan cs⟩
  | sign hc hscan =>
    by_cases hstart : startsWithDigit cs = true
    · exact ⟨.inl ⟨hc, hstart⟩, by rw [hscan, if_pos hstart]⟩
    · rw [hscan, if_neg hstart] at h
      exact absurd h nofun
  | mark hc hscan =>
    have hmarks : ∀ m ∈ punctuation, m.2 ≠ .number := by decide
    rw [hscan] at h
    exact absurd h (hmarks _ hc)
  | quote _ hscan =>
    rw [hscan] at h
    exact absurd h (string_rec cs nofun nofun nofun)
  | name _ hscan =>
    rw [hscan] at h
    exact absurd h (wordKind_rec _ nofun nofun nofun nofun)
  | comment _ hscan | blank _ hscan | bad hscan =>
    rw [hscan] at h
    exact absurd h nofun

theorem ends_of_scan_append (hself : scan c cs = (kind, cs))
    (h : scan c (cs ++ tail) = (kind, cs)) : Ends (kind, c :: cs) tail := by
  have hends := endsAt_of_lex_cons (lex_of_scan h)
  rw [flatMap_lex] at hends
  refine ⟨hends, fun hname => ?_, fun hnumber => ?_, fun hsign => ?_⟩
  · have hkind : (scan c cs).1.isName = true := by rw [hself]; exact hname
    rw [(scan_of_isName hkind).2] at h
    have htaken := (Prod.mk.inj h).2
    have hhead := @head?_drop_takeWhile isNameChar (cs ++ tail)
    rwa [htaken, List.drop_left] at hhead
  · have hkind : (scan c cs).1 = .number := by rw [hself]; exact hnumber
    have hkind' : (scan c (cs ++ tail)).1 = .number := by rw [h]; exact hnumber
    obtain ⟨hc, hscan⟩ := scan_of_number hkind
    obtain ⟨-, hlong⟩ := scan_of_number hkind'
    rw [hself] at hscan
    rw [h] at hlong
    have hcs : cs = number cs := (Prod.mk.inj hscan).2
    rw [goesOn_cons (hc.imp_left And.left), ← number_append_eq_iff hcs.symm]
    exact (Prod.mk.inj hlong).2.symm
  · obtain ⟨rfl, rfl⟩ := List.cons.inj hsign
    obtain rfl := (Prod.mk.inj hself).1
    rw [List.nil_append, scan] at h
    split at h
    · exact absurd (Prod.mk.inj h).1 (by decide)
    · rename_i hstart
      exact Bool.eq_false_iff.mpr hstart

theorem scan_append_of_ends (hself : scan c cs = (kind, cs)) (hopen : kind ≠ .unterminatedString)
    (hends : Ends (kind, c :: cs) tail) : scan c (cs ++ tail) = (kind, cs) := by
  obtain ⟨⟨hblank, hcomment, hquotes⟩, hname, hnumber, hsign⟩ := hends
  cases scanRule c with
  | mark _ hscan | bad hscan => rw [hscan, ← hself, hscan]
  | comment _ hscan =>
    rw [hscan] at hself
    obtain ⟨rfl, hcs⟩ := Prod.mk.inj hself
    rw [hscan, takeWhile_append_of_eq fun _ d hd => by simp [hcomment rfl d hd], hcs]
  | quote hc hscan =>
    rw [hscan] at hself
    rw [hscan, string_append (by rw [hself]; exact hopen) fun h => hquotes (by rw [hc, h]), hself]
  | sign hc hscan =>
    rw [hscan] at hself
    rw [hscan]
    split at hself
    · rename_i hstart
      obtain ⟨rfl, hcs⟩ := Prod.mk.inj hself
      have hstart : startsWithDigit (cs ++ tail) = true := by
        cases cs with
        | nil => contradiction
        | cons => exact hstart
      rw [if_pos hstart, (number_append_eq_iff hcs tail).mpr]
      rw [← goesOn_cons (.inl hc)]
      exact hnumber rfl
    · obtain ⟨rfl, rfl⟩ := Prod.mk.inj hself
      rw [List.nil_append, hsign (by rw [hc])]
      rfl
  | blank _ hscan =>
    rw [hscan] at hself
    obtain ⟨rfl, hcs⟩ := Prod.mk.inj hself
    rw [hscan, takeWhile_append_of_eq fun _ => hblank rfl, hcs]
  | digit hc hscan =>
    rw [hscan] at hself
    obtain ⟨rfl, hcs⟩ := Prod.mk.inj hself
    rw [hscan, (number_append_eq_iff hcs tail).mpr]
    rw [← goesOn_cons (.inr hc)]
    exact hnumber rfl
  | name _ hscan =>
    rw [hscan] at hself
    obtain ⟨rfl, hcs⟩ := Prod.mk.inj hself
    have hend := hname (isName_wordKind _)
    rw [hscan, takeWhile_append_of_eq fun _ => hend, hcs]

theorem scan_append_iff (hself : scan c cs = (kind, cs)) (hopen : kind ≠ .unterminatedString) :
    scan c (cs ++ tail) = (kind, cs) ↔ Ends (kind, c :: cs) tail :=
  ⟨ends_of_scan_append hself, scan_append_of_ends hself hopen⟩

/-- A token is one in front of a text exactly if it ends there. -/
theorem lex_append_iff {t : TokenKind × Text} (hself : lex t.2 = [t])
    (hopen : t.1 ≠ .unterminatedString) :
    lex (t.2 ++ tail) = t :: lex tail ↔ Ends t tail := by
  obtain ⟨kind, text⟩ := t
  obtain ⟨c, cs, htext, hscan⟩ := exists_scan_of_lex_eq hself
  obtain rfl : text = c :: cs := htext
  rw [← scan_append_iff hscan hopen, List.cons_append, lex_cons, List.cons.injEq]
  constructor
  · rintro ⟨htoken, -⟩
    exact Prod.ext (Prod.mk.inj htoken).1 (List.cons.inj (Prod.mk.inj htoken).2).2
  · intro h
    rw [h, List.drop_left]
    exact ⟨rfl, rfl⟩

end

theorem lex_of_mem_lex {text : Text} {t : TokenKind × Text} (h : t ∈ lex text) : lex t.2 = [t] := by
  obtain ⟨front, back, hlex⟩ := List.mem_iff_append.mp h
  have hself := (@lex_cut _ [t] back (lex_cut hlex).2).1
  rwa [List.flatMap_singleton] at hself

theorem lex_of_mem_tokenize {source : Text} {t : Token} (h : t ∈ tokenize source) :
    lex t.text = [(t.kind, t.text)] := by
  obtain ⟨front, back, hlex, -⟩ := exists_append_of_mem_place h
  exact lex_of_mem_lex (hlex ▸ List.mem_append_right front List.mem_cons_self)

theorem lex_cut_cons {more : Text} {t : TokenKind × Text} {ts : List (TokenKind × Text)}
    (h : lex ((t :: ts).flatMap (·.2) ++ more) = t :: ts ++ lex more) :
    lex (ts.flatMap (·.2) ++ more) = ts ++ lex more := by
  have hrest : lex ((ts ++ lex more).flatMap (·.2)) = ts ++ lex more := (@lex_cut _ [t] _ h).2
  rwa [List.flatMap_append, flatMap_lex] at hrest

theorem ends_of_lex_cons {more : Text} {t : TokenKind × Text} {ts : List (TokenKind × Text)}
    (h : lex ((t :: ts).flatMap (·.2) ++ more) = t :: ts ++ lex more)
    (hopen : t.1 ≠ .unterminatedString) : Ends t (ts.flatMap (·.2) ++ more) := by
  have hrest := lex_cut_cons h
  rw [List.flatMap_cons, List.append_assoc, List.cons_append, ← hrest] at h
  exact (lex_append_iff (lex_of_mem_lex (by rw [h]; exact List.mem_cons_self)) hopen).mp h

theorem ends_of_isTrivia {t : TokenKind × Text} {tail : Text} (hself : lex t.2 = [t])
    (ht : t.1.isTrivia = true) (h : EndsAt t tail) : Ends t tail := by
  obtain ⟨kind, text⟩ := t
  have ht : kind.isTrivia = true := ht
  refine ⟨h, fun hname => ?_, fun hnumber => ?_, fun hsign => ?_⟩
  · have hname : kind.isName = true := hname
    exfalso
    revert ht hname
    cases kind <;> decide
  · obtain rfl : kind = .number := hnumber
    exact absurd ht Bool.false_ne_true
  · obtain rfl : text = ['-'] := hsign
    obtain rfl : kind = .badCharacter := by
      rw [lex_cons] at hself
      exact (Prod.mk.inj (List.cons.inj hself).1).1.symm
    exact absurd ht Bool.false_ne_true

theorem isTrivia_scan_append {c : Char} {cs : Text} (h : (scan c cs).1.isTrivia = false)
    (tail : Text) : (scan c (cs ++ tail)).1.isTrivia = false := by
  rw [← Bool.not_eq_true] at h ⊢
  intro htrivia
  rcases scan_of_isTrivia htrivia with ⟨hblank, -⟩ | ⟨rfl, -⟩
  · rw [scan_of_isBlank hblank] at h
    exact h rfl
  · exact h rfl

/-! ## Numbers behind other tokens -/

theorem startsWithDigit_append_of_ne_nil {cs : Text} (h : cs ≠ []) (tail tail' : Text) :
    startsWithDigit (cs ++ tail) = startsWithDigit (cs ++ tail') := by
  obtain ⟨c, cs, rfl⟩ := List.exists_cons_of_ne_nil h
  rfl

theorem fraction_ne_nil_iff {cs : Text} :
    fraction cs ≠ [] ↔ ∃ ds, cs = '.' :: ds ∧ startsWithDigit ds = true := by
  unfold fraction
  split
  · split <;> simp_all
  · rename_i hne
    simp only [ne_eq, not_true_eq_false, false_iff, not_exists, not_and]
    exact fun ds hds => absurd hds (hne ds)

theorem signedDigits_ne_nil_iff {cs : Text} : signedDigits cs ≠ [] ↔
    startsWithDigit cs = true ∨
      ∃ s ds, cs = s :: ds ∧ (s = '+' ∨ s = '-') ∧ startsWithDigit ds = true := by
  cases cs with
  | nil => simp [signedDigits, startsWithDigit]
  | cons c cs =>
    rw [signedDigits]
    split
    · rename_i hsign
      simp only [Bool.or_eq_true, beq_iff_eq] at hsign
      have hdigit : startsWithDigit (c :: cs) = false := by rcases hsign with rfl | rfl <;> rfl
      split <;> simp_all
    · rename_i hsign
      simp only [Bool.or_eq_true, beq_iff_eq] at hsign
      rw [ne_eq, digits_eq_nil_iff, Bool.not_eq_false]
      refine ⟨.inl, fun h => h.elim id ?_⟩
      rintro ⟨s, ds, heq, hs, -⟩
      obtain ⟨rfl, rfl⟩ := List.cons.inj heq
      exact absurd hs hsign

theorem exponent_ne_nil_iff {cs : Text} : exponent cs ≠ [] ↔
    ∃ e ds, cs = e :: ds ∧ (e = 'e' ∨ e = 'E') ∧ signedDigits ds ≠ [] := by
  cases cs with
  | nil => simp [exponent]
  | cons c cs =>
    rw [exponent]
    split <;> simp_all

theorem ne_nil_of_lex_eq {t : TokenKind × Text} (h : lex t.2 = [t]) : t.2 ≠ [] := by
  intro hnil
  rw [hnil, lex] at h
  exact absurd h (by simp)

theorem eq_of_lex_point {t : TokenKind × Text} {cs : Text} (h : lex t.2 = [t])
    (ht : t.2 = '.' :: cs) : t = (.badCharacter, ['.']) := by
  rw [ht, lex_cons] at h
  exact (List.cons.inj h).1.symm

theorem eq_of_lex_sign {t : TokenKind × Text} {c : Char} (h : lex t.2 = [t]) (ht : t.2 = [c])
    (hc : c = '+' ∨ c = '-') : t = (.badCharacter, [c]) := by
  rw [ht, lex_cons] at h
  rcases hc with rfl | rfl <;> exact (List.cons.inj h).1.symm

theorem isName_of_lex_letter {t : TokenKind × Text} {e : Char} {cs : Text} (h : lex t.2 = [t])
    (ht : t.2 = e :: cs) (he : e = 'e' ∨ e = 'E') : t.1.isName = true := by
  rw [ht, lex_cons] at h
  obtain rfl := (List.cons.inj h).1
  have hscan : (scan e cs).1 = wordKind (e :: cs.takeWhile isNameChar) := by
    rcases he with rfl | rfl <;> rfl
  show (scan e cs).1.isName = true
  rw [hscan]
  exact isName_wordKind _

theorem eq_of_lex_letter {t : TokenKind × Text} {e : Char} (h : lex t.2 = [t]) (ht : t.2 = [e])
    (he : e = 'e' ∨ e = 'E') : t = (.identifier, [e]) := by
  rw [ht, lex_cons] at h
  rcases he with rfl | rfl <;> exact (List.cons.inj h).1.symm

section
variable {n behind more : Text} {ts : List (TokenKind × Text)}
  (hn : ∃ c cs, n = c :: cs ∧ (c = '-' ∨ c.isDigit = true))
include hn

/-- If there is a digit behind tokens, then because no token is in front of it, or it is one of
theirs. -/
theorem startsWithDigit_unsigned (hts : ∀ t ∈ ts, lex t.2 = [t])
    (h : startsWithDigit (ts.flatMap (·.2) ++ (n ++ behind)) = true) :
    ts = [] ∧ startsWithDigit n = true ∨
      startsWithDigit (ts.flatMap (·.2) ++ '+' :: more) = true := by
  cases ts with
  | nil =>
    obtain ⟨c, cs, rfl, -⟩ := hn
    exact .inl ⟨rfl, h⟩
  | cons t ts =>
    have hne : (t :: ts).flatMap (·.2) ≠ [] := by
      simp [ne_nil_of_lex_eq (hts t List.mem_cons_self)]
    rw [startsWithDigit_append_of_ne_nil hne _ (n ++ behind)]
    exact .inr h

theorem signedDigits_unsigned {text : Text} {e : Char} (he : e = 'e' ∨ e = 'E')
    (hplain : ¬ HasExponent text) {u : TokenKind × Text} {v : Text} (hv : u.2 = e :: v)
    (hu : lex u.2 = [u]) (hts : ∀ t ∈ ts, lex t.2 = [t])
    (hjoins : ¬ Joins n ((.number, text) :: u :: ts))
    (h : signedDigits (v ++ (ts.flatMap (·.2) ++ (n ++ behind))) ≠ []) :
    signedDigits (v ++ (ts.flatMap (·.2) ++ '+' :: more)) ≠ [] := by
  cases ts with
  | nil => exact absurd (.behind _ (.name (isName_of_lex_letter hu hv he))) hjoins
  | cons w ws =>
    obtain ⟨hw, hws⟩ := List.forall_mem_cons.mp hts
    have hwne : w.2 ≠ [] := ne_nil_of_lex_eq hw
    have hkeep {front : Text} (h : startsWithDigit
        (front ++ ((w :: ws).flatMap (·.2) ++ (n ++ behind))) = true) : startsWithDigit
          (front ++ ((w :: ws).flatMap (·.2) ++ '+' :: more)) = true := by
      have hne : front ++ (w :: ws).flatMap (·.2) ≠ [] := by simp [hwne]
      rw [← List.append_assoc] at h ⊢
      rw [startsWithDigit_append_of_ne_nil hne _ (n ++ behind)]
      exact h
    rw [signedDigits_ne_nil_iff] at h ⊢
    rcases h with hstart | ⟨s, ds, hds, hs, hstart⟩
    · exact .inl (hkeep hstart)
    · refine .inr ?_
      cases v with
      | cons a v =>
        obtain ⟨rfl, rfl⟩ := List.cons.inj hds
        exact ⟨_, _, rfl, hs, hkeep hstart⟩
      | nil =>
        obtain ⟨a, w', hw'⟩ := List.exists_cons_of_ne_nil hwne
        rw [List.nil_append, List.flatMap_cons, hw', List.append_assoc] at hds ⊢
        obtain ⟨rfl, rfl⟩ := List.cons.inj hds
        refine ⟨_, _, rfl, hs, ?_⟩
        cases w' with
        | cons d w' => exact hstart
        | nil =>
          rcases startsWithDigit_unsigned hn hws hstart with ⟨rfl, hdigit⟩ | hstart
          · -- the sign alone is between the letter and the number
            exfalso
            obtain rfl := eq_of_lex_letter hu hv he
            obtain rfl := eq_of_lex_sign hw hw' hs
            rcases hs with rfl | rfl
            · exact hjoins (.exponent hdigit he hplain)
            · exact hjoins (.behind _ (.behind _ (.sign hdigit)))
          · exact hstart

theorem not_goesOn_unsigned {text : Text} (hts : ∀ t ∈ ts, lex t.2 = [t])
    (hend : ¬ GoesOn text (ts.flatMap (·.2) ++ '+' :: more))
    (hjoins : ¬ Joins n ((.number, text) :: ts)) :
    ¬ GoesOn text (ts.flatMap (·.2) ++ (n ++ behind)) := by
  -- in front of the number stands what the other number goes on with
  have hfirst {d : Char} {ds : Text} (hd : d = '.' ∨ d = 'e' ∨ d = 'E')
      (h : ts.flatMap (·.2) ++ (n ++ behind) = d :: ds) :
      ∃ u us v, ts = u :: us ∧ u.2 = d :: v ∧ ds = v ++ (us.flatMap (·.2) ++ (n ++ behind)) := by
    cases ts with
    | nil =>
      obtain ⟨c, cs, rfl, hc⟩ := hn
      obtain rfl : c = d := (List.cons.inj h).1
      exfalso
      rcases hd with rfl | rfl | rfl <;> revert hc <;> decide
    | cons u us =>
      obtain ⟨a, v, hv⟩ := List.exists_cons_of_ne_nil (ne_nil_of_lex_eq (hts u List.mem_cons_self))
      rw [List.flatMap_cons, hv, List.append_assoc] at h
      obtain ⟨rfl, rfl⟩ := List.cons.inj h
      exact ⟨u, us, v, rfl, hv, rfl⟩
  rintro (h | ⟨hplain, h⟩ | ⟨hplain, h⟩)
  · rcases startsWithDigit_unsigned hn hts h with ⟨rfl, hdigit⟩ | hstart
    · exact hjoins (.digits hdigit)
    · exact hend (.inl hstart)
  · obtain ⟨ds, hds, hstart⟩ := fraction_ne_nil_iff.mp h
    obtain ⟨u, us, v, rfl, hv, rfl⟩ := hfirst (.inl rfl) hds
    obtain ⟨hu, hus⟩ := List.forall_mem_cons.mp hts
    obtain rfl := eq_of_lex_point hu hv
    obtain rfl : [] = v := (List.cons.inj hv).2
    rcases startsWithDigit_unsigned hn hus hstart with ⟨rfl, hdigit⟩ | hstart
    · exact hjoins (.point hdigit hplain)
    · exact hend (.inr (.inl ⟨hplain, fraction_ne_nil_iff.mpr ⟨_, rfl, hstart⟩⟩))
  · obtain ⟨e, ds, hds, he, hsigned⟩ := exponent_ne_nil_iff.mp h
    obtain ⟨u, us, v, rfl, hv, rfl⟩ := hfirst (.inr he) hds
    obtain ⟨hu, hus⟩ := List.forall_mem_cons.mp hts
    have hsigned := @signedDigits_unsigned n behind more us hn _ _ he hplain _ _ hv hu hus hjoins
      hsigned
    have hbegin : (u :: us).flatMap (·.2) ++ '+' :: more =
        e :: (v ++ (us.flatMap (·.2) ++ '+' :: more)) := by
      rw [List.flatMap_cons, hv, List.append_assoc]
      rfl
    exact hend (.inr (.inr ⟨hplain, exponent_ne_nil_iff.mpr ⟨e, _, hbegin, he, hsigned⟩⟩))

theorem not_isBlank : ∃ c cs, n = c :: cs ∧ isBlank c = false ∧ isNameChar c = true ∧ c ≠ '"' := by
  obtain ⟨c, cs, rfl, hc⟩ := hn
  refine ⟨c, cs, rfl, Bool.eq_false_iff.mpr fun hblank => ?_, ?_, ?_⟩
  · have hcases : c = ' ' ∨ c = '\t' ∨ c = '\n' ∨ c = '\r' := by
      simpa only [isBlank, isLineBreak, Bool.or_eq_true, beq_iff_eq, or_assoc] using hblank
    rcases hcases with rfl | rfl | rfl | rfl <;> revert hc <;> decide
  · rcases hc with rfl | hc
    · rfl
    · simp [isNameChar, Char.isAlphanum, hc]
  · rintro rfl
    revert hc
    decide

theorem endsAt_unsigned {t : TokenKind × Text} (hts : ∀ u ∈ ts, lex u.2 = [u])
    (hend : EndsAt t (ts.flatMap (·.2) ++ '+' :: more)) :
    EndsAt t (ts.flatMap (·.2) ++ (n ++ behind)) := by
  cases ts with
  | cons u us =>
    obtain ⟨c, cs, hu⟩ := List.exists_cons_of_ne_nil (ne_nil_of_lex_eq (hts u List.mem_cons_self))
    refine hend.of_head? ?_
    rw [List.flatMap_cons, hu]
    rfl
  | nil =>
    obtain ⟨c, cs, rfl, hblank, -, hquote⟩ := not_isBlank hn
    refine ⟨fun _ d hd => ?_, fun hcomment => ?_, fun _ d hd => ?_⟩
    · exact Option.some.inj hd ▸ hblank
    · -- the comment would have gone on with the sign
      exact absurd (hend.comment hcomment '+' rfl) (by decide)
    · exact Option.some.inj hd ▸ hquote

/-- What ends at a plus sign ends at the number behind that, unless it goes on with it. -/
theorem ends_unsigned {t : TokenKind × Text} (ht : lex t.2 = [t]) (hts : ∀ u ∈ ts, lex u.2 = [u])
    (hend : Ends t (ts.flatMap (·.2) ++ '+' :: more)) (hjoins : ¬ Joins n (t :: ts)) :
    Ends t (ts.flatMap (·.2) ++ (n ++ behind)) := by
  obtain ⟨kind, text⟩ := t
  refine ⟨endsAt_unsigned hn hts hend.toEndsAt, fun hname => ?_, ?_, fun hsign => ?_⟩
  · cases ts with
    | nil => exact absurd (.name hname) hjoins
    | cons u us =>
      have hend := hend.name hname
      rw [List.flatMap_cons, List.append_assoc] at hend ⊢
      rwa [List.head?_append_of_ne_nil _ (ne_nil_of_lex_eq (hts u List.mem_cons_self))] at hend ⊢
  · rintro rfl
    exact not_goesOn_unsigned hn hts (hend.number rfl) hjoins
  · refine Bool.eq_false_iff.mpr fun hstart => ?_
    rcases startsWithDigit_unsigned hn hts hstart with ⟨rfl, hdigit⟩ | hstart
    · rw [eq_of_lex_sign ht hsign (.inr rfl)] at hjoins
      exact hjoins (.sign hdigit)
    · exact Bool.false_ne_true ((hend.sign hsign).symm.trans hstart)

/-- If nothing in front of it goes on with it, a number is a token without its plus sign, too. -/
theorem lex_unsigned (hopen : ∀ t ∈ ts, t.1 ≠ .unterminatedString)
    (h : lex (ts.flatMap (·.2) ++ '+' :: more) = ts ++ lex ('+' :: more))
    (hjoins : ¬ Joins n ts) :
    lex (ts.flatMap (·.2) ++ (n ++ behind)) = ts ++ lex (n ++ behind) := by
  induction ts with
  | nil => rfl
  | cons t ts ih =>
    obtain ⟨ht, hts⟩ := List.forall_mem_cons.mp hopen
    have hself : ∀ u ∈ t :: ts, lex u.2 = [u] := fun u hu =>
      lex_of_mem_lex (by rw [h]; exact List.mem_append_left _ hu)
    obtain ⟨htself, htsself⟩ := List.forall_mem_cons.mp hself
    have hend : Ends t (ts.flatMap (·.2) ++ (n ++ behind)) :=
      ends_unsigned hn htself htsself (ends_of_lex_cons h ht) hjoins
    rw [List.flatMap_cons, List.append_assoc, (lex_append_iff htself ht).mpr hend,
      ih hts (lex_cut_cons h) fun hj => hjoins (.behind t hj), List.cons_append]

/-- If it is a token without its plus sign, nothing in front of a number goes on with it. -/
theorem not_joins_of_lex
    (h : lex (ts.flatMap (·.2) ++ (n ++ behind)) = ts ++ lex (n ++ behind)) : ¬ Joins n ts := by
  obtain ⟨c, cs, rfl, -, hname, -⟩ := not_isBlank hn
  intro hjoins
  induction hjoins with
  | @name kind text hkind =>
    have hopen : kind ≠ .unterminatedString := by
      rintro rfl
      exact Bool.false_ne_true hkind
    have hend := (ends_of_lex_cons h hopen).name hkind c rfl
    exact Bool.false_ne_true (hend.symm.trans hname)
  | digits hdigit => exact (ends_of_lex_cons h nofun).number rfl (.inl hdigit)
  | sign hdigit =>
    exact Bool.false_ne_true (((ends_of_lex_cons h nofun).sign rfl).symm.trans hdigit)
  | point hdigit hplain =>
    exact (ends_of_lex_cons h nofun).number rfl
      (.inr (.inl ⟨hplain, fraction_ne_nil_iff.mpr ⟨_, rfl, hdigit⟩⟩))
  | exponent hdigit he hplain =>
    exact (ends_of_lex_cons h nofun).number rfl (.inr (.inr ⟨hplain, exponent_ne_nil_iff.mpr
      ⟨_, _, rfl, he, signedDigits_ne_nil_iff.mpr (.inr ⟨_, _, rfl, .inl rfl, hdigit⟩)⟩⟩))
  | behind t _ ih => exact ih (lex_cut_cons h)

/-- If a text has other tokens than what it is put together of, it has other significant ones. -/
theorem lex_eq_of_filter_eq
    (h : lex (ts.flatMap (·.2) ++ '+' :: more) = ts ++ lex ('+' :: more))
    (hfilter : (lex (ts.flatMap (·.2) ++ (n ++ behind))).filter (!·.1.isTrivia) =
      (ts ++ lex (n ++ behind)).filter (!·.1.isTrivia)) :
    lex (ts.flatMap (·.2) ++ (n ++ behind)) = ts ++ lex (n ++ behind) := by
  induction ts with
  | nil => rfl
  | cons t ts ih =>
    have hself : ∀ u ∈ t :: ts, lex u.2 = [u] := fun u hu =>
      lex_of_mem_lex (by rw [h]; exact List.mem_append_left _ hu)
    obtain ⟨ht, hts⟩ := List.forall_mem_cons.mp hself
    rw [List.flatMap_cons, List.append_assoc] at hfilter ⊢
    have hfirst : lex (t.2 ++ (ts.flatMap (·.2) ++ (n ++ behind))) =
        t :: lex (ts.flatMap (·.2) ++ (n ++ behind)) := by
      cases htrivia : t.1.isTrivia with
      | true =>
        have hopen : t.1 ≠ .unterminatedString := fun hkind => by
          rw [hkind] at htrivia
          exact Bool.false_ne_true htrivia
        have hend := (ends_of_lex_cons h hopen).toEndsAt
        exact (lex_append_iff ht hopen).mpr
          (ends_of_isTrivia ht htrivia (endsAt_unsigned hn hts hend))
      | false =>
        have hself : lex t.2 = [(t.1, t.2)] := ht
        obtain ⟨c, cs, htext, hscan⟩ := exists_scan_of_lex_eq hself
        have hkind : (scan c cs).1.isTrivia = false := by rw [hscan]; exact htrivia
        have hkind := isTrivia_scan_append hkind (ts.flatMap (·.2) ++ (n ++ behind))
        rw [htext, List.cons_append, lex_cons] at hfilter ⊢
        rw [List.filter_cons_of_pos (by simp [hkind]), List.cons_append,
          List.filter_cons_of_pos (by simp [htrivia])] at hfilter
        have hsame := (List.cons.inj hfilter).1
        have htaken := congrArg Prod.snd hsame
        rw [htext] at htaken
        rw [hsame, (List.cons.inj htaken).2, List.drop_left]
    rw [hfirst] at hfilter ⊢
    rw [ih (lex_cut_cons h), List.cons_append]
    cases htrivia : t.1.isTrivia <;> simpa [htrivia] using hfilter

end

end Maml.Lexer
