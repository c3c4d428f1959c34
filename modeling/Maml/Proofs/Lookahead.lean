import Maml.Proofs.Endings
import Maml.Proofs.LongestMatch
import Maml.Proofs.Splicing

/-! Texts that are changed behind a token.

The lexer looks further than it takes: past the end of a number, and along the whole line for the
quote that closes a string.

1. If one tail is `Alike` to another, a rule that takes nothing of the one takes nothing of the
   other in its place (`Keeps`). Every rule of the lexer does so (`scan_of_alike`), and the tokens
   in front of the tail stay (`lex_of_alike`).
2. What is written behind a name or a string leaves the tail alike, if it has no quote, no
   backslash and no line break, and does not go on with a number (`lex_insert`). That holds of
   strings without a closing quote in front of it as well: what is written does not close them. -/
namespace Maml.Lexer

/-! ## Tails -/

/-- Whether what ends in front of a tail ends in front of another one in its place. -/
structure Alike (tail tail' : Text) : Prop where
  ne_nil : tail ≠ []
  head : tail'.head? = tail.head?
  fraction : fraction tail = [] → fraction tail' = []
  signedDigits : signedDigits tail = [] → signedDigits tail' = []
  exponent : exponent tail = [] → exponent tail' = []
  closed : ∀ cs, closedBody (cs ++ tail) = none → closedBody (cs ++ tail') = none

/-- Whether a rule takes the same if it takes nothing of a tail and another one comes in its
place. -/
def Keeps (rule : Text → Text) (tail tail' : Text) : Prop :=
  ∀ cs, rule (cs ++ tail) <+: cs → rule (cs ++ tail') = rule (cs ++ tail)

variable {tail tail' : Text}

theorem Keeps.append {f g : Text → Text} (hf : Keeps f tail tail') (hg : Keeps g tail tail') :
    Keeps (fun cs => f cs ++ g (cs.drop (f cs).length)) tail tail' := by
  intro cs h
  simp only at h ⊢
  have hfirst : f (cs ++ tail) <+: cs := (List.prefix_append _ _).trans h
  rw [hf cs hfirst]
  obtain ⟨rest, hrest⟩ := hfirst
  generalize f (cs ++ tail) = taken at h hrest
  subst hrest
  rw [List.append_assoc, List.drop_left] at h
  rw [List.append_assoc, List.append_assoc, List.drop_left, List.drop_left,
    hg rest ((List.prefix_append_right_inj _).mp h)]

namespace Alike

theorem keeps_takeWhile (h : Alike tail tail') (p : Char → Bool) :
    Keeps (List.takeWhile p) tail tail' := by
  intro cs htaken
  induction cs with
  | nil =>
    have hhead := h.head
    rw [List.nil_append] at htaken
    cases tail with
    | nil => exact absurd rfl h.ne_nil
    | cons c tail =>
      cases tail' with
      | nil => exact absurd hhead nofun
      | cons d tail' =>
        obtain rfl : d = c := Option.some.inj hhead
        have hd : p d = false := by
          cases hd : p d with
          | false => rfl
          | true => simp [hd] at htaken
        simp [hd]
  | cons c cs ih =>
    rw [List.cons_append, List.takeWhile_cons] at htaken
    rw [List.cons_append, List.cons_append, List.takeWhile_cons, List.takeWhile_cons]
    split at htaken
    · rename_i hc
      rw [if_pos hc, if_pos hc, ih (List.cons_prefix_cons.mp htaken).2]
    · rename_i hc
      rw [if_neg hc, if_neg hc]

theorem keeps_digits (h : Alike tail tail') : Keeps digits tail tail' := h.keeps_takeWhile _

theorem startsWithDigit_append (h : Alike tail tail') (cs : Text) :
    startsWithDigit (cs ++ tail') = startsWithDigit (cs ++ tail) := by
  have hhead := h.head
  cases cs with
  | cons => rfl
  | nil =>
    cases tail <;> cases tail' <;> simp_all [startsWithDigit]

theorem keeps_fraction (h : Alike tail tail') : Keeps Lexer.fraction tail tail' := by
  intro cs htaken
  cases cs with
  | nil =>
    have hnone : Lexer.fraction tail = [] := List.prefix_nil.mp htaken
    exact (h.fraction hnone).trans hnone.symm
  | cons c cs =>
    by_cases hc : c = '.'
    · subst hc
      rw [List.cons_append, Lexer.fraction] at htaken
      rw [List.cons_append, List.cons_append, Lexer.fraction, Lexer.fraction,
        h.startsWithDigit_append]
      split
      · rename_i hdigit
        rw [if_pos hdigit] at htaken
        rw [h.keeps_digits cs (List.cons_prefix_cons.mp htaken).2]
      · rfl
    · rw [List.cons_append, List.cons_append, Lexer.fraction.eq_2 _ (by simp [hc]),
        Lexer.fraction.eq_2 _ (by simp [hc])]

theorem keeps_signedDigits (h : Alike tail tail') : Keeps Lexer.signedDigits tail tail' := by
  intro cs htaken
  cases cs with
  | nil =>
    have hnone : Lexer.signedDigits tail = [] := List.prefix_nil.mp htaken
    exact (h.signedDigits hnone).trans hnone.symm
  | cons c cs =>
    rw [List.cons_append, Lexer.signedDigits] at htaken
    rw [List.cons_append, List.cons_append, Lexer.signedDigits, Lexer.signedDigits,
      h.startsWithDigit_append]
    split at htaken
    · rename_i hsign
      rw [if_pos hsign, if_pos hsign]
      split
      · rename_i hdigit
        rw [if_pos hdigit] at htaken
        rw [h.keeps_digits cs (List.cons_prefix_cons.mp htaken).2]
      · rfl
    · rename_i hsign
      rw [if_neg hsign, if_neg hsign]
      exact h.keeps_digits (c :: cs) htaken

theorem keeps_exponent (h : Alike tail tail') : Keeps Lexer.exponent tail tail' := by
  intro cs htaken
  cases cs with
  | nil =>
    have hnone : Lexer.exponent tail = [] := List.prefix_nil.mp htaken
    exact (h.exponent hnone).trans hnone.symm
  | cons c cs =>
    rw [List.cons_append, Lexer.exponent] at htaken
    rw [List.cons_append, List.cons_append, Lexer.exponent, Lexer.exponent]
    by_cases hletter : (c == 'e' || c == 'E') = true
    · have hdigits : Lexer.signedDigits (cs ++ tail) <+: cs := by
        split at htaken
        · exact (List.cons_prefix_cons.mp htaken).2
        · rename_i hnone
          have hnil : Lexer.signedDigits (cs ++ tail) = [] := by simpa [hletter] using hnone
          rw [hnil]
          exact List.nil_prefix
      rw [h.keeps_signedDigits cs hdigits]
    · rw [if_neg (by simp [hletter]), if_neg (by simp [hletter])]

theorem keeps_number (h : Alike tail tail') : Keeps number tail tail' := by
  intro cs htaken
  rw [number_eq] at htaken
  rw [number_eq, number_eq]
  exact (h.keeps_digits.append h.keeps_fraction).append h.keeps_exponent cs htaken

/-! ## Strings -/

theorem keeps_openBody (h : Alike tail tail') : Keeps openBody tail tail' := by
  obtain ⟨t, ts, rfl⟩ := List.exists_cons_of_ne_nil h.ne_nil
  obtain ⟨ts', rfl⟩ : ∃ ts', tail' = t :: ts' := List.head?_eq_some_iff.mp h.head
  intro cs htaken
  induction cs using unit_induction with
  | nil =>
    -- it stops at the first character of the tail
    have hstop : (isLineBreak t || isStructural t) = true := by
      by_contra hgoes
      have hnone : openBody (t :: ts) = [] := List.prefix_nil.mp htaken
      unfold openBody at hnone
      split at hnone
      · simp at *
      · split at hnone <;> simp at hnone
      · rename_i hcons
        obtain ⟨rfl, rfl⟩ := List.cons.inj hcons
        simp [hgoes] at hnone
    have hslash : t ≠ '\\' := by
      rintro rfl
      exact absurd hstop (by decide)
    rw [List.nil_append, List.nil_append, openBody_plain hslash, openBody_plain hslash,
      if_pos hstop, if_pos hstop]
  | slash =>
    -- the backslash in front of the tail takes nothing with it, so the tail breaks the line
    cases hbreak : isLineBreak t with
    | true => exact (openBody_broken hbreak ts').trans (openBody_broken hbreak ts).symm
    | false =>
      rw [List.singleton_append, openBody_escape hbreak] at htaken
      simp at htaken
  | broken c cs hbreak => exact (openBody_broken hbreak _).trans (openBody_broken hbreak _).symm
  | escape c cs hbreak ih =>
    simp only [List.cons_append, openBody_escape hbreak, List.cons_prefix_cons, true_and]
      at htaken ⊢
    rw [ih htaken]
  | plain c cs hslash ih =>
    rw [List.cons_append, openBody_plain hslash] at htaken
    rw [List.cons_append, List.cons_append, openBody_plain hslash, openBody_plain hslash]
    split
    · rfl
    · rename_i hgoes
      rw [if_neg hgoes] at htaken
      rw [ih (List.cons_prefix_cons.mp htaken).2]

theorem string_append (h : Alike tail tail') {cs : Text} (htaken : (string (cs ++ tail)).2 <+: cs) :
    string (cs ++ tail') = string (cs ++ tail) := by
  by_cases hquotes : ∃ ds, cs = '"' :: '"' :: ds
  · obtain ⟨ds, rfl⟩ := hquotes
    rw [List.cons_append, List.cons_append, string] at htaken ⊢
    rw [List.cons_append, List.cons_append, string]
    cases hbody : tripleBody (ds ++ tail) with
    | some body =>
      obtain ⟨rest, rfl⟩ : body <+: ds := by simpa [hbody] using htaken
      rw [List.append_assoc, tripleBody_body_append hbody]
    | none =>
      -- it would take the tail too
      have hlength := htaken.length_le
      have hpos := List.length_pos_iff.mpr h.ne_nil
      simp only [hbody, List.length_cons, List.length_append] at hlength
      omega
  · -- neither tail makes a multiline string of it
    have hne {end' : Text} (hhead : end'.head? = tail.head?) (ds : Text) :
        cs ++ end' = '"' :: '"' :: ds → False := by
      intro hcs
      rcases cs with _ | ⟨c, _ | ⟨d, cs⟩⟩
      · -- a quote directly behind the first one closes the string
        have hquote : tail.head? = some '"' := by rw [← hhead, show end' = _ from hcs]; rfl
        obtain ⟨ts, rfl⟩ := List.head?_eq_some_iff.mp hquote
        rw [List.nil_append] at htaken
        unfold string at htaken
        split at htaken
        · split at htaken <;> simp at htaken
        · simp [closedBody] at htaken
      · obtain ⟨rfl, hend⟩ := List.cons.inj hcs
        have hquote : tail.head? = some '"' := by rw [← hhead, show end' = _ from hend]; rfl
        obtain ⟨ts, rfl⟩ := List.head?_eq_some_iff.mp hquote
        rw [List.singleton_append, string] at htaken
        split at htaken <;> simp at htaken
      · obtain ⟨rfl, hrest⟩ := List.cons.inj hcs
        obtain ⟨rfl, -⟩ := List.cons.inj hrest
        exact hquotes ⟨cs, rfl⟩
    rw [string.eq_2 _ (hne rfl)] at htaken ⊢
    rw [string.eq_2 _ (hne h.head)]
    cases hbody : closedBody (cs ++ tail) with
    | some body =>
      obtain ⟨rest, rfl⟩ : body <+: cs := by simpa [hbody] using htaken
      rw [List.append_assoc, closedBody_body_append hbody]
    | none =>
      rw [hbody] at htaken
      rw [h.closed cs hbody, h.keeps_openBody cs htaken]

end Alike

/-! ## Tokens -/

/-- A token in front of a tail stays in front of one that is alike. -/
theorem scan_of_alike (h : Alike tail tail') {c : Char} {cs : Text}
    (htaken : (scan c (cs ++ tail)).2 <+: cs) : scan c (cs ++ tail') = scan c (cs ++ tail) := by
  cases scanRule c with
  | mark _ hscan | bad hscan => rw [hscan, hscan]
  | comment _ hscan | blank _ hscan | name _ hscan =>
    rw [hscan] at htaken
    rw [hscan, hscan, h.keeps_takeWhile _ cs htaken]
  | quote _ hscan =>
    rw [hscan] at htaken
    rw [hscan, hscan, h.string_append htaken]
  | sign _ hscan =>
    rw [hscan] at htaken
    rw [hscan, hscan, h.startsWithDigit_append]
    by_cases hdigit : startsWithDigit (cs ++ tail) = true
    · rw [if_pos hdigit] at htaken
      rw [if_pos hdigit, if_pos hdigit, h.keeps_number cs htaken]
    · rw [if_neg hdigit, if_neg hdigit]
  | digit _ hscan =>
    rw [hscan] at htaken
    rw [hscan, hscan, h.keeps_number cs htaken]

/-- The tokens in front of a tail stay in front of one that is alike. -/
theorem lex_of_alike (h : Alike tail tail') {front back : List (TokenKind × Text)}
    (hlex : lex (front.flatMap (·.2) ++ tail) = front ++ back) :
    lex (front.flatMap (·.2) ++ tail') = front ++ lex tail' := by
  induction front with
  | nil => rfl
  | cons t front ih =>
    obtain ⟨kind, text⟩ := t
    obtain ⟨c, cs, rfl⟩ : ∃ c cs, text = c :: cs := List.exists_cons_of_ne_nil
      (text_ne_nil_of_mem_lex (t := (kind, text)) (by rw [hlex]; simp))
    have hrest : lex ((front ++ back).flatMap (·.2)) = front ++ back :=
      (@lex_cut _ [(kind, c :: cs)] _ hlex).2
    have hbehind : (front ++ back).flatMap (·.2) = front.flatMap (·.2) ++ tail := by
      have hall := flatMap_lex ((((kind, c :: cs) :: front).flatMap (·.2)) ++ tail)
      rw [hlex, List.cons_append, List.flatMap_cons, List.flatMap_cons, List.append_assoc] at hall
      exact List.append_cancel_left hall
    rw [hbehind] at hrest
    rw [List.flatMap_cons, List.append_assoc, List.cons_append, lex_cons] at hlex
    obtain ⟨htoken, -⟩ := List.cons.inj hlex
    obtain ⟨hkind, htext⟩ := Prod.mk.inj htoken
    obtain ⟨-, htaken⟩ := List.cons.inj htext
    have hscan : scan c (cs ++ (front.flatMap (·.2) ++ tail')) = (kind, cs) := by
      rw [← List.append_assoc] at hkind htaken ⊢
      rw [scan_of_alike h (by rw [htaken]; exact List.prefix_append _ _)]
      exact Prod.ext hkind htaken
    rw [List.flatMap_cons, List.append_assoc]
    exact (lex_of_scan hscan).trans (congrArg (_ :: ·) (ih hrest))

/-! ## What is written behind a token -/

/-- Whether a text can be written behind a name or a string and leave strings open that are. -/
structure Plain (text : Text) : Prop where
  letters : ∀ c ∈ text, c ≠ '"' ∧ c ≠ '\\' ∧ isLineBreak c = false
  head : ∀ c ∈ text.head?, c.isDigit = false ∧ c ≠ '+' ∧ c ≠ '-'

/-- A string that is not closed is not closed by what is written between its characters, unless a
backslash takes the first of it. -/
theorem closedBody_insert {cs text rest : Text} (htext : Plain text)
    (hlast : cs.getLast? ≠ some '\\') (h : closedBody (cs ++ rest) = none) :
    closedBody (cs ++ (text ++ rest)) = none := by
  induction cs using unit_induction with
  | nil =>
    -- the text has no quote
    have hletters := htext.letters
    rw [List.nil_append] at h ⊢
    clear htext
    induction text with
    | nil => exact h
    | cons c text ih =>
      obtain ⟨⟨hquote, hslash, hbreak⟩, hmore⟩ := List.forall_mem_cons.mp hletters
      rw [List.cons_append, closedBody_cons hslash hquote hbreak, ih hmore]
      rfl
  | slash => exact absurd rfl hlast
  | broken c cs hbreak => simp [closedBody, hbreak]
  | escape c cs hbreak ih =>
    have hlast' : cs.getLast? ≠ some '\\' := by
      cases cs with
      | nil => simp
      | cons => simpa [List.getLast?_cons_cons] using hlast
    rw [List.cons_append, List.cons_append, closedBody_escape hbreak, Option.map_eq_none_iff] at h ⊢
    exact ih hlast' h
  | plain c cs hslash ih =>
    have hlast' : cs.getLast? ≠ some '\\' := by
      cases cs with
      | nil => simp
      | cons => simpa [List.getLast?_cons_cons] using hlast
    have hquote : c ≠ '"' := by
      rintro rfl
      rw [List.cons_append, closedBody_quote] at h
      exact absurd h (by simp)
    rw [List.cons_append] at h ⊢
    cases hbreak : isLineBreak c with
    | true => exact closedBody_lineBreak hbreak _
    | false =>
      rw [closedBody_cons hslash hquote hbreak, Option.map_eq_none_iff] at h ⊢
      exact ih hlast' h

/-- What is written behind a token that is no number leaves alike what it begins with. -/
theorem alike_insert {x text rest : Text} (htext : Plain text)
    (hfirst : ∃ c cs, x = c :: cs ∧ c.isDigit = false ∧ c ≠ '+' ∧ c ≠ '-' ∧ c ≠ '.')
    (hlast : x.getLast? ≠ some '\\') : Alike (x ++ rest) (x ++ (text ++ rest)) := by
  obtain ⟨c, cs, rfl, hdigit, hplus, hminus, hpoint⟩ := hfirst
  have hdigits (ds : Text) : digits (c :: ds) = [] := by simp [digits, hdigit]
  have hfraction (ds : Text) : fraction (c :: ds) = [] := fraction.eq_2 _ (by simp [hpoint])
  have hsigned (ds : Text) : signedDigits (c :: ds) = [] := by
    rw [signedDigits, if_neg (by simp [hplus, hminus]), hdigits]
  have hstarts (ds : Text) (h : startsWithDigit (ds ++ rest) = false) :
      startsWithDigit (ds ++ (text ++ rest)) = false := by
    cases ds with
    | cons => exact h
    | nil =>
      cases text with
      | nil => exact h
      | cons d text => exact (htext.head d rfl).1
  have hexponent (ds : Text) (h : signedDigits (ds ++ rest) = []) :
      signedDigits (ds ++ (text ++ rest)) = [] := by
    cases ds with
    | nil =>
      cases text with
      | nil => exact h
      | cons d text =>
        obtain ⟨hd, hplus, hminus⟩ := htext.head d rfl
        rw [List.nil_append, List.cons_append, signedDigits, if_neg (by simp [hplus, hminus])]
        simp [digits, hd]
    | cons d ds =>
      rw [List.cons_append, signedDigits] at h ⊢
      split
      · rename_i hsign
        rw [if_pos hsign] at h
        split at h
        · exact absurd h (List.cons_ne_nil _ _)
        · rename_i hnone
          rw [if_neg (by simp [hstarts ds (Bool.eq_false_iff.mpr hnone)])]
      · rename_i hsign
        rw [if_neg hsign] at h
        have hd : d.isDigit = false := by
          cases hd : d.isDigit with
          | false => rfl
          | true => simp [digits, hd] at h
        simp [digits, hd]
  refine ⟨List.cons_ne_nil _ _, rfl, fun _ => hfraction _, fun _ => hsigned _, fun h => ?_,
    fun ds h => ?_⟩
  · rw [List.cons_append, exponent] at h ⊢
    split at h
    · exact absurd h (List.cons_ne_nil _ _)
    · rename_i hnone
      rw [if_neg]
      rw [Bool.and_eq_true, not_and, Bool.not_eq_true', Bool.not_eq_false,
        List.isEmpty_iff] at hnone ⊢
      exact fun hletter => hexponent cs (hnone hletter)
  · rw [← List.append_assoc] at h ⊢
    refine closedBody_insert htext ?_ h
    rwa [List.getLast?_append_of_ne_nil _ (List.cons_ne_nil _ _)]

/-- What is written behind a token leaves the tokens in front of it as they are. -/
theorem lex_insert {source x text : Text} {kind : TokenKind} {front back : List (TokenKind × Text)}
    (h : lex source = front ++ (kind, x) :: back) (htext : Plain text)
    (hfirst : ∃ c cs, x = c :: cs ∧ c.isDigit = false ∧ c ≠ '+' ∧ c ≠ '-' ∧ c ≠ '.')
    (hlast : x.getLast? ≠ some '\\') :
    lex (front.flatMap (·.2) ++ (x ++ (text ++ back.flatMap (·.2)))) =
      front ++ lex (x ++ (text ++ back.flatMap (·.2))) := by
  have hlex : lex (front.flatMap (·.2) ++ (x ++ back.flatMap (·.2))) =
      front ++ (kind, x) :: back := by
    rw [← h, ← flatMap_lex source, h]
    simp
  exact lex_of_alike (alike_insert htext hfirst hlast) hlex

/-! ## Names -/

section
variable {source name : Text} {ts us : List (TokenKind × Text)}
  (h : lex source = ts ++ (.identifier, name) :: us)
include h

theorem exists_name : ∃ c cs, name = c :: cs ∧ isNameStart c = true ∧
    (∀ d ∈ cs, isNameChar d = true) ∧ ∀ d ∈ (us.flatMap (·.2)).head?, isNameChar d = false := by
  have hself := (lex_cut h).2
  rw [List.flatMap_cons] at hself
  obtain ⟨c, cs, hname⟩ := List.exists_cons_of_ne_nil
    (text_ne_nil_of_mem_lex (t := (.identifier, name)) (by rw [h]; simp))
  obtain rfl : name = c :: cs := hname
  rw [List.cons_append, lex_cons] at hself
  obtain ⟨hkind, htaken⟩ := Prod.mk.inj (List.cons.inj hself).1
  obtain ⟨hstart, hscan⟩ := scan_of_isName (show (scan c _).1.isName = true by rw [hkind]; rfl)
  have htaken : (cs ++ us.flatMap (·.2)).takeWhile isNameChar = cs := by
    rw [hscan] at htaken
    exact (List.cons.inj htaken).2
  refine ⟨c, cs, rfl, hstart, fun d hd => ?_, fun d hd => ?_⟩
  · rw [← htaken] at hd
    exact List.all_eq_true.mp List.all_takeWhile d hd
  · have hdrop : (cs ++ us.flatMap (·.2)).dropWhile isNameChar = us.flatMap (·.2) := by
      have hwhole := List.takeWhile_append_dropWhile (p := isNameChar) (l := cs ++ us.flatMap (·.2))
      rw [htaken] at hwhole
      exact List.append_cancel_left hwhole
    have hhead := List.head?_dropWhile_not isNameChar (cs ++ us.flatMap (·.2))
    rw [hdrop] at hhead
    simpa [Option.mem_def.mp hd] using hhead

theorem first_of_name :
    ∃ c cs, name = c :: cs ∧ c.isDigit = false ∧ c ≠ '+' ∧ c ≠ '-' ∧ c ≠ '.' := by
  obtain ⟨c, cs, hname, hstart, -⟩ := exists_name h
  refine ⟨c, cs, hname, Bool.eq_false_iff.mpr (not_isDigit_of_isNameStart hstart), ?_, ?_, ?_⟩
  all_goals rintro rfl; exact absurd hstart (by decide)

theorem getLast?_of_name : name.getLast? ≠ some '\\' := by
  obtain ⟨c, cs, rfl, hstart, hcs, -⟩ := exists_name h
  intro hlast
  rcases List.mem_cons.mp (List.mem_of_mem_getLast? (Option.mem_def.mpr hlast)) with rfl | hmem
  · exact absurd hstart (by decide)
  · exact absurd (hcs _ hmem) (by decide)

end

end Maml.Lexer
