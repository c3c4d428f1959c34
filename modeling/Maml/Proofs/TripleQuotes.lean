import Mathlib.Data.List.Infix
import Maml.Proofs.Endings
import Maml.Proofs.OpenStrings
import Maml.Proofs.Quoting

/-! Texts between triple quotes mean themselves.

1. The first three quotes in a row behind a text are those that follow it exactly if the text has
   no three in a row and does not end with one, which the next three would go on
   (`Lexer.tripleBody_append_eq_self_iff`).
2. So a text in triple quotes is one token exactly if it fits between them
   (`Quoted.lex_tripleQuoted_iff`), and every multiline string is such a text
   (`Quoted.exists_of_lex_multilineString`).
3. Its quotes are taken away together (`Quoted.stripTripleQuotes_tripleQuoted`), so it is read
   without a mistake and means what stands between them (`triple_quotes_are_verbatim`). -/
namespace Maml

namespace Lexer

/-! ## The first three quotes -/

/-- Whether a text can stand between triple quotes. -/
structure FitsTripleQuotes (b : Text) : Prop where
  no_quotes : ¬ tripleQuote <:+: b
  /-- A quote at the end would make three with the first two behind it. -/
  no_last_quote : ¬ ['"'] <:+ b

instance (b : Text) : Decidable (FitsTripleQuotes b) :=
  decidable_of_iff (¬ tripleQuote <:+: b ∧ ¬ ['"'] <:+ b)
    ⟨fun h => ⟨h.1, h.2⟩, fun h => ⟨h.no_quotes, h.no_last_quote⟩⟩

theorem fitsTripleQuotes_cons {c : Char} {b : Text}
    (h : ∀ cs, c :: (b ++ tripleQuote) ≠ tripleQuote ++ cs) :
    FitsTripleQuotes (c :: b) ↔ FitsTripleQuotes b := by
  have hfront : ¬ tripleQuote <+: c :: b := by
    rintro ⟨cs, hcs⟩
    apply h (cs ++ tripleQuote)
    rw [← List.append_assoc, hcs, List.cons_append]
  have hlast : ['"'] ≠ c :: b := by
    rintro hcb
    obtain ⟨rfl, rfl⟩ := List.cons.inj hcb
    exact h ['"'] rfl
  constructor
  · intro hfits
    refine ⟨fun hquotes => hfits.no_quotes (List.infix_cons hquotes), fun hquote => ?_⟩
    exact hfits.no_last_quote (hquote.trans (List.suffix_cons c b))
  · intro hfits
    refine ⟨fun hquotes => ?_, fun hquote => ?_⟩
    · exact (List.infix_cons_iff.mp hquotes).elim hfront hfits.no_quotes
    · exact (List.suffix_cons_iff.mp hquote).elim hlast hfits.no_last_quote

theorem not_fitsTripleQuotes_cons {c : Char} {b cs : Text}
    (h : c :: (b ++ tripleQuote) = tripleQuote ++ cs) : ¬ FitsTripleQuotes (c :: b) := by
  intro hfits
  obtain ⟨rfl, hbehind⟩ := List.cons.inj h
  rcases b with _ | ⟨d, _ | ⟨e, ds⟩⟩
  · exact hfits.no_last_quote (List.suffix_refl _)
  · obtain rfl : d = '"' := (List.cons.inj hbehind).1
    exact hfits.no_last_quote (List.suffix_cons _ _)
  · obtain ⟨rfl, hmore⟩ := List.cons.inj hbehind
    obtain ⟨rfl, -⟩ := List.cons.inj hmore
    exact hfits.no_quotes (List.prefix_append tripleQuote ds).isInfix

/-- The first three quotes behind a text are the next ones exactly if it fits between them. -/
theorem tripleBody_append_eq_self_iff {b : Text} :
    tripleBody (b ++ tripleQuote) = some (b ++ tripleQuote) ↔ FitsTripleQuotes b := by
  induction b with
  | nil => exact iff_of_true rfl (by decide)
  | cons c b ih =>
    by_cases hfront : ∃ cs, c :: (b ++ tripleQuote) = tripleQuote ++ cs
    · obtain ⟨cs, hcs⟩ := hfront
      refine iff_of_false (fun hbody => ?_) (not_fitsTripleQuotes_cons hcs)
      -- the quotes that are found are too short
      have hfound : tripleBody (tripleQuote ++ cs) = some tripleQuote := rfl
      rw [List.cons_append, hcs, hfound, ← hcs] at hbody
      have hlength := congrArg List.length (Option.some.inj hbody)
      simp [tripleQuote] at hlength
    · have hne := not_exists.mp hfront
      have hbehind : ¬ tripleQuote <+: c :: (b ++ tripleQuote) := by
        rintro ⟨cs, hcs⟩
        exact hne cs hcs.symm
      rw [fitsTripleQuotes_cons hne, ← ih, List.cons_append, tripleBody_cons hbehind]
      simp

theorem exists_of_tripleBody {cs body : Text} (h : tripleBody cs = some body) :
    ∃ b, body = b ++ tripleQuote ∧ FitsTripleQuotes b := by
  obtain ⟨b, rfl⟩ := (findsQuotes_of_tripleBody h).isSuffix
  have hself := tripleBody_body_append h []
  rw [List.append_nil] at hself
  exact ⟨b, rfl, tripleBody_append_eq_self_iff.mp hself⟩

end Lexer

/-! ## Texts in triple quotes -/

namespace Quoted

open Lexer

def tripleQuoted (b : Text) : Text := tripleQuote ++ b ++ tripleQuote

/-- A text in triple quotes is one multiline string exactly if it fits between them. -/
theorem lex_tripleQuoted_iff {b : Text} :
    lex (tripleQuoted b) = [(.multilineString, tripleQuoted b)] ↔ FitsTripleQuotes b := by
  rw [← tripleBody_append_eq_self_iff]
  constructor
  · intro h
    obtain ⟨c, cs, htext, hscan⟩ := exists_scan_of_lex_eq h
    obtain ⟨rfl, rfl⟩ := List.cons.inj htext
    have hscan : string ('"' :: '"' :: (b ++ tripleQuote)) =
      (.multilineString, '"' :: '"' :: (b ++ tripleQuote)) := hscan
    rw [string] at hscan
    cases hbody : tripleBody (b ++ tripleQuote) with
    | none => simp [hbody] at hscan
    | some body => simpa [hbody] using hscan
  · intro h
    apply lex_eq_of_scan
    show string ('"' :: '"' :: (b ++ tripleQuote)) = _
    rw [string, h]
    rfl

/-- Every multiline string is a text in triple quotes that fits between them. -/
theorem exists_of_lex_multilineString {text : Text} (h : lex text = [(.multilineString, text)]) :
    ∃ b, text = tripleQuoted b ∧ FitsTripleQuotes b := by
  obtain ⟨c, cs, rfl, hscan⟩ := exists_scan_of_lex_eq h
  obtain ⟨rfl, hstring⟩ := scan_quoted (.inr (.inr rfl)) (congrArg Prod.fst hscan)
  rw [hscan] at hstring
  unfold string at hstring
  split at hstring
  · rename_i ds
    cases hbody : tripleBody ds with
    | none => simp [hbody] at hstring
    | some body =>
      obtain ⟨b, rfl, hfits⟩ := exists_of_tripleBody hbody
      rw [hbody] at hstring
      exact ⟨b, congrArg ('"' :: ·) (congrArg Prod.snd hstring).symm, hfits⟩
  · split at hstring <;> exact absurd (congrArg Prod.fst hstring) nofun

/-- Triple quotes around a text are taken away together. -/
theorem stripTripleQuotes_tripleQuoted (b : Text) : stripTripleQuotes (tripleQuoted b) = b := by
  have hrest : (tripleQuoted b).drop tripleQuote.length = b ++ tripleQuote := by
    rw [tripleQuoted, List.append_assoc, List.drop_left]
  have hstart : Text.startsWith (tripleQuoted b) tripleQuote = true := by
    rw [tripleQuoted, List.append_assoc]
    exact List.isPrefixOf_iff_prefix.mpr (List.prefix_append _ _)
  have hend : Text.endsWith (b ++ tripleQuote) tripleQuote = true :=
    List.isSuffixOf_iff_suffix.mpr (List.suffix_append _ _)
  rw [stripTripleQuotes, strip, hrest, hstart, hend]
  simp

def multilineWord {b : Text} (h : FitsTripleQuotes b) : Word :=
  ⟨.multilineString, tripleQuoted b, lex_tripleQuoted_iff.mpr h⟩

theorem string?_of_multilineWord? {v : View.Value} {text : Text}
    (h : (View.Value.content v).word? = some (.multilineString, text)) :
    View.Value.string? v = some (stripTripleQuotes text) := by
  rw [View.Value.string?]
  cases hcontent : View.Value.content v with
  | multilineString l =>
    rw [hcontent] at h
    obtain ⟨-, rfl⟩ := Prod.mk.inj (Option.some.inj h)
    rfl
  | _ => simp [hcontent, View.Content.word?] at h

end Quoted

open Lexer Quoted

/-- A text in triple quotes is a single multiline string exactly if it has no three quotes in a row
and does not end with a quote. It is then read without a mistake, and the string is the text as it
stands, whatever escapes it seems to have. Every multiline string of a document is of this form. -/
theorem triple_quotes_are_verbatim (b : Text) :
    ((∃ t, tokenize (tripleQuoted b) = [t] ∧ t.kind = .multilineString) ↔ FitsTripleQuotes b) ∧
    (FitsTripleQuotes b → (parse (tripleQuoted b)).errors = [] ∧
      ∃ file value, (Site.root (parse (tripleQuoted b)).tree).view? .file = some file ∧
        View.File.value? file = some value ∧ View.Value.string? value = some b) ∧
    ∀ source, ∀ t ∈ tokenize source, t.kind = .multilineString →
      ∃ b, t.text = tripleQuoted b ∧ FitsTripleQuotes b := by
  refine ⟨exists_tokenize_eq_singleton_iff.trans lex_tripleQuoted_iff, fun h => ?_,
    fun source t ht hkind => ?_⟩
  · obtain ⟨herrors, file, value, hfile, hvalue, hread⟩ :=
      readFrom_of_layout (layout_scalar ⟨multilineWord h, rfl⟩) (Nat.zero_le _)
    refine ⟨herrors, file, value, hfile, hvalue, ?_⟩
    rw [string?_of_multilineWord? hread]
    exact congrArg some (stripTripleQuotes_tripleQuoted b)
  · apply exists_of_lex_multilineString
    rw [← hkind]
    exact lex_of_mem_tokenize ht

/-- Two quotes and a break of the line fit between triple quotes, and a backslash stands there for
itself. -/
theorem triple_quotes_around_two_quotes :
    let b : Text := ['"', '"', '\n', '\\', 'n']
    FitsTripleQuotes b ∧ (parse (tripleQuoted b)).errors = [] ∧
      (∃ file value, (Site.root (parse (tripleQuoted b)).tree).view? .file = some file ∧
        View.File.value? file = some value ∧ View.Value.string? value = some b) ∧
      ∃ t ∈ tokenize (tripleQuoted b), t.kind = .multilineString ∧
        ∃ b', t.text = tripleQuoted b' ∧ FitsTripleQuotes b' := by
  intro b
  have hfits : FitsTripleQuotes b := by decide
  obtain ⟨htoken, hread, hforms⟩ := triple_quotes_are_verbatim b
  obtain ⟨t, ht, hkind⟩ := htoken.mpr hfits
  have hmem : t ∈ tokenize (tripleQuoted b) := by simp [ht]
  obtain ⟨herrors, hvalue⟩ := hread hfits
  exact ⟨hfits, herrors, hvalue, t, hmem, hkind, hforms _ t hmem hkind⟩

end Maml
