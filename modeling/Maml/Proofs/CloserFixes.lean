import Maml.Proofs.CloserPlaces
import Maml.Proofs.Respacing

/-! Fixes that put in closers.

1. A missing closer is told behind a container that lacks it (`Draft.unclosed_of_mem_notes`), so
   there is a marked place in the document that ends where it is told.
2. Something that is a token in front of anything can be put in behind any significant token of a
   text, and no other token changes (`Parse.exists_text_of_insertion`).
3. So the fix of a missing closer leaves every mistake but this one
   (`closer_fix_resolves_one`). -/
namespace Maml

open Draft

/-! ## Missing closers -/

namespace Draft

/-- A missing closer is told behind a container that lacks it. -/
theorem unclosed_of_mem_notes {d : Draft} {c : Container} {e : ParseError} (h : Formed d)
    (he : e ∈ d.notes) (hexpected : e.expected = c.expectedCloser) :
    (Mark.unclosed c).holds d d.lexemes ∧ e.range = .empty d.lastToken.span.stop := by
  have hnone {expected : Expected} {found : Token} {range : Span} (hother : ∀ c : Container,
      expected ≠ c.expectedCloser) (he : e ∈ [ParseError.ofToken expected found range]) : False := by
    obtain rfl := List.mem_singleton.mp he
    exact hother c hexpected
  have hkey {key : Lexeme} (he : e ∈ (keyNote key).toList) : False := by
    unfold keyNote at he
    split at he
    · exact hnone (by decide) he
    · exact absurd he List.not_mem_nil
  have hvalue {es : List Container} {colon : Lexeme} {note : Option ParseError} {value : List Draft}
      (h : Shaped es (.behindColon colon note) value) (he : e ∈ note.toList) : False := by
    rcases shaped_behindColon h with ⟨next, -, rfl⟩ | ⟨-, -, rfl, -⟩
    · exact hnone (by decide) he
    · exact absurd he List.not_mem_nil
  cases h with
  | scalar | value | list | key | skipped | closed => exact absurd he List.not_mem_nil
  | invalid | signed | tooDeep | junk | trailing => exact (hnone (by decide) he).elim
  | @stray c' => cases c' <;> exact (hnone (by decide) he).elim
  | @unclosed _ c' opener ds next =>
    obtain rfl := List.mem_singleton.mp he
    obtain rfl : c' = c := by
      have hexpected : c'.expectedCloser = c.expectedCloser := hexpected
      revert hexpected
      cases c <;> cases c' <;> decide
    refine ⟨⟨rfl, _, _, _, _, rfl⟩, congrArg (fun t : Token => Span.empty t.span.stop) ?_⟩
    simp [containerNode, lastToken]
  | keyValue _ hv =>
    rcases List.mem_append.mp he with he | he
    · exact (hkey he).elim
    · exact (hvalue hv he).elim
  | incomplete =>
    rcases List.mem_append.mp he with he | he
    · exact (hkey he).elim
    · unfold colonNote at he
      split at he
      · exact absurd he List.not_mem_nil
      · exact (hnone (by decide) he).elim
  | literalKey hv =>
    rcases List.mem_cons.mp he with rfl | he
    · exact (hnone (by decide) (List.mem_singleton.mpr rfl)).elim
    · exact (hvalue hv he).elim

end Draft

namespace Parse

variable {source : Text} {place back : List Lexeme}

theorem exists_marked_of_closer {c : Container} {e : ParseError} (he : e ∈ (parse source).errors)
    (hexpected : e.expected = c.expectedCloser) : ∃ place, Marked (.unclosed c) place (drafts source) ∧
      ∀ back, lexemes source = place ++ back → e.range = .empty (Lexeme.sizeList place) := by
  obtain ⟨x, hx, hnote⟩ := List.mem_flatMap.mp ((perm_errors_parse source).mem_iff.mpr he)
  obtain ⟨hholds, hrange⟩ := unclosed_of_mem_notes (formed_of_mem_standings hx) hnote hexpected
  obtain ⟨front, hmarked⟩ := exists_marked_of_mem hholds 0 [] (drafts source) hx
  refine ⟨_, hmarked, fun back hlexemes => ?_⟩
  have hp := placed_lexemes source
  rw [hlexemes] at hp
  have hstop := stop_lastToken (placed_append.mp (placed_append.mp hp).1).2
  rw [hrange, hstop, Nat.zero_add, Lexeme.sizeList_append]

/-- What is a token in front of anything can be put in behind any significant token of a text. -/
theorem exists_text_of_insertion (hclosed : ∀ t ∈ tokenize source, t.kind ≠ .unterminatedString)
    (hlexemes : lexemes source = place ++ back) (hplace : place ≠ []) {sep : TokenKind × Text}
    (hsep : ∀ us, Lexer.Separates sep us) (hkind : sep.1.isTrivia = false) :
    ∃ text, applyEdits source [.insert (Lexeme.sizeList place) sep.2] = .ok text ∧
      (lexemes text).map Lexeme.spelling =
        place.map Lexeme.spelling ++ ([], sep) :: back.map Lexeme.spelling := by
  obtain ⟨trailing, hlex, htrailing⟩ := exists_lex_eq source
  have hvalid := (placed_lexemes source).2
  rw [hlexemes] at hvalid
  obtain ⟨init, l, rfl⟩ := (List.eq_nil_or_concat place).resolve_left hplace
  rw [List.concat_eq_append] at hlexemes hvalid ⊢
  rw [hlexemes, List.map_append, spelled, List.flatMap_append] at hlex
  -- the tokens up to the last one of the place, and those behind it
  have hold : Lexer.lex source = (spelled (init.map Lexeme.spelling) ++ l.spelling.1) ++
      l.spelling.2 :: (spelled (back.map Lexeme.spelling) ++ trailing) := by
    rw [hlex]
    simp [spelled]
  have hnew : spelled ((init ++ [l]).map Lexeme.spelling) = spelled (init.map Lexeme.spelling) ++
      l.spelling.1 ++ [l.spelling.2] := by
    simp [spelled]
  have hopen := all_closed_lex hclosed
  have hl : l.spelling.2.1.isTrivia = false := (hvalid l (by simp)).2
  have hself := Lexer.flatMap_lex source
  rw [hold] at hopen hself
  have hspaced : Lexer.Respaced
      (l.spelling.2 :: (spelled (back.map Lexeme.spelling) ++ trailing))
      (l.spelling.2 :: sep :: (spelled (back.map Lexeme.spelling) ++ trailing)) :=
    .separate hl [] (hsep _) (Lexer.respaced_refl _)
  have htext := Lexer.lex_of_respaced hspaced hopen (by rw [hself, hold])
  refine ⟨_, ?_, @map_spelling_lexemes _ ((init ++ [l]).map Lexeme.spelling ++
    ([], sep) :: back.map Lexeme.spelling) trailing (htext.trans ?_) ?_ htrailing⟩
  · have hinsert := applyEdits_insert ((spelled ((init ++ [l]).map Lexeme.spelling)).flatMap (·.2))
      sep.2 ((spelled (back.map Lexeme.spelling) ++ trailing).flatMap (·.2))
    rw [size_spelled, hnew] at hinsert
    simpa [← hself] using hinsert
  · simp [spelled]
  · intro u hu
    rcases List.mem_append.mp hu with hu | hu
    · obtain ⟨m, hm, rfl⟩ := List.mem_map.mp hu
      exact isSpelling_spelling (hvalid m (List.mem_append_left _ hm))
    rcases List.mem_cons.mp hu with rfl | hu
    · exact ⟨by simp, hkind⟩
    · obtain ⟨m, hm, rfl⟩ := List.mem_map.mp hu
      exact isSpelling_spelling (hvalid m (List.mem_append_right _ hm))

end Parse

/-! ## Closers put in -/

def Container.closerText : Container → Text
  | object => ['}']
  | array => [']']

theorem Lexer.separates_closer (c : Container) (us : List (TokenKind × Text)) :
    Separates (c.closer, c.closerText) us := by
  have hlex (tail : Text) : lex (c.closerText ++ tail) = (c.closer, c.closerText) :: lex tail := by
    cases c
    · have hscan : scan '}' ([] ++ tail) = (.rBrace, []) := rfl
      exact lex_of_scan hscan
    · have hscan : scan ']' ([] ++ tail) = (.rBracket, []) := rfl
      exact lex_of_scan hscan
  refine ⟨?_, ?_, ?_, hlex _⟩
  · cases c <;> exact parted_cons (by decide)
  · cases c <;> simp [Container.closerText]
  · cases c <;> simp [Container.closerText]

theorem ParseError.fixes_of_closer {c : Container} {e : ParseError}
    (h : e.expected = c.expectedCloser) : (Diagnostic.ofParseError e).fixes =
      [⟨if e.expected = .rBrace then "Insert '\x7d'" else "Insert ']'",
        [.insert e.range.start c.closerText]⟩] := by
  obtain ⟨expected, foundKind, foundText, range⟩ := e
  obtain rfl : expected = c.expectedCloser := h
  cases c <;> rfl

/-- Neighbours in two lists, one behind the other, are neighbours in one of them, or the end of
the first and the beginning of the second. -/
theorem pair_cases {α : Type} {as bs : List α} {a b : α} (h : [a, b] <:+: as ++ bs) :
    [a, b] <:+: as ∨ a ∈ as.getLast? ∧ b ∈ bs.head? ∨ [a, b] <:+: bs := by
  induction as with
  | nil => exact .inr (.inr h)
  | cons c as ih =>
    rcases List.infix_cons_iff.mp h with hstart | hrest
    · cases as with
      | nil =>
        obtain ⟨rfl, htail⟩ := List.cons_prefix_cons.mp hstart
        cases bs with
        | nil => exact absurd htail (by simp)
        | cons d bs =>
          obtain ⟨rfl, -⟩ := List.cons_prefix_cons.mp htail
          exact .inr (.inl ⟨rfl, rfl⟩)
      | cons d as =>
        obtain ⟨rfl, htail⟩ := List.cons_prefix_cons.mp hstart
        obtain ⟨rfl, -⟩ := List.cons_prefix_cons.mp htail
        exact .inl ⟨[], as, rfl⟩
    · rcases ih hrest with hleft | ⟨hlast, hhead⟩ | hright
      · exact .inl (List.infix_cons hleft)
      · refine .inr (.inl ⟨?_, hhead⟩)
        cases as with
        | nil => exact absurd hlast (by simp)
        | cons d as => rwa [List.getLast?_cons_cons]
      · exact .inr (.inr hright)

theorem pair_cases_inserted {α : Type} {as bs : List α} {a b x : α}
    (h : [a, b] <:+: as ++ x :: bs) : [a, b] <:+: as ++ bs ∨ a = x ∨ b = x := by
  rcases pair_cases h with ⟨front, back, rfl⟩ | ⟨-, hb⟩ | hright
  · exact .inl ⟨front, back ++ bs, by simp⟩
  · exact .inr (.inr (Option.some.inj hb).symm)
  · rcases List.infix_cons_iff.mp hright with hstart | ⟨front, back, rfl⟩
    · exact .inr (.inl (List.cons_prefix_cons.mp hstart).1)
    · exact .inl ⟨as ++ front, back, by simp⟩

/-- The fix of a missing closer resolves one mistake of its sort, and no other mistake comes or
goes. -/
theorem closer_fix_resolves_one {source : Text} {e : ParseError}
    (hclosed : ∀ t ∈ tokenize source, t.kind ≠ .unterminatedString)
    (hshallow : ∀ e ∈ (parse source).errors, e.expected ≠ .nestingLimit)
    (he : e ∈ (parse source).errors) (hexpected : e.expected = .rBrace ∨ e.expected = .rBracket) :
    ∃ fix text, (Diagnostic.ofParseError e).fixes = [fix] ∧
      fix.title = (if e.expected = .rBrace then "Insert '\x7d'" else "Insert ']'") ∧
      fix.apply source = .ok text ∧
      (parse source).expectations.Perm (e.expected :: (parse text).expectations) := by
  obtain ⟨c, hexpected⟩ : ∃ c : Container, e.expected = c.expectedCloser :=
    hexpected.elim (⟨.object, ·⟩) (⟨.array, ·⟩)
  obtain ⟨place, hmarked, hrange⟩ := Parse.exists_marked_of_closer he hexpected
  -- the closer takes no room until the text is read again
  let x : Lexeme := ⟨[], ⟨c.closer, .empty e.range.start, c.closerText⟩⟩
  have hnone : .nestingLimit ∉ expectations (Parse.drafts source) := fun hmem => by
    obtain ⟨err, herr, hlimit⟩ := List.mem_map.mp hmem
    exact hshallow err herr hlimit
  obtain ⟨back, hlexemes, hperm⟩ :=
    exists_documentDrafts_inserted hnone (show x.kind = c.closer from rfl) hmarked
  have hlexemes : Parse.lexemes source = place ++ back := hlexemes
  have hstart : e.range.start = Lexeme.sizeList place := by rw [hrange back hlexemes]; rfl
  obtain ⟨text, happly, hspelling⟩ := Parse.exists_text_of_insertion hclosed hlexemes
    hmarked.place_ne_nil (Lexer.separates_closer c) (by cases c <;> rfl)
  refine ⟨_, text, ParseError.fixes_of_closer hexpected, rfl, hstart ▸ happly, ?_⟩
  have hp := Parse.placed_lexemes source
  have hn := Parse.nodup_lexemes source
  have hfresh : x ∉ Parse.lexemes source := fun hx =>
    Nat.lt_irrefl _ (bounds_of_placed hp x hx).2.1
  rw [hlexemes] at hn hfresh hp
  have hkind : x.token.kind ≠ .badCharacter ∧ x.token.kind ≠ .number := by
    simp only [x]
    cases c <;> decide
  obtain ⟨m, h, -, hrecast⟩ := Parse.exists_recast_of_spelling
    (Lexemes.ofTokens (tokenize source) source.size).eof
    (List.nodup_middle.mpr (List.nodup_cons.mpr ⟨hfresh, hn⟩))
    (by rw [hspelling, List.map_append, List.map_cons]; rfl) fun l n hpair => by
      rcases pair_cases_inserted hpair with hold | rfl | rfl
      · exact isSignedNumber_iff hp hold
      · simp [isSignedNumber, SpellsSigned, Lexeme.spelling, Token.word, hkind.1]
      · simp [isSignedNumber, SpellsSigned, Lexeme.spelling, Token.word, hkind.2]
  rw [hexpected, show (parse text).expectations = _ from map_expected_of_relaid hrecast]
  exact hperm

/-- The innermost of the arrays that lack their closers at one place. -/
theorem closer_fix_resolves_one_of_two :
    let source : Text := ['[', '[', '1']
    let e : ParseError := ⟨.rBracket, .eof, [], ⟨3, 3⟩⟩
    (∀ t ∈ tokenize source, t.kind ≠ .unterminatedString) ∧
      (∀ e ∈ (parse source).errors, e.expected ≠ .nestingLimit) ∧ e ∈ (parse source).errors ∧
      (e.expected = .rBrace ∨ e.expected = .rBracket) ∧
      ∃ fix text, (Diagnostic.ofParseError e).fixes = [fix] ∧
        fix.title = (if e.expected = .rBrace then "Insert '\x7d'" else "Insert ']'") ∧
        fix.apply source = .ok text ∧
        (parse source).expectations.Perm (e.expected :: (parse text).expectations) := by
  have hclosed : ∀ t ∈ tokenize ['[', '[', '1'], t.kind ≠ .unterminatedString := by decide +kernel
  have hshallow : ∀ e ∈ (parse ['[', '[', '1']).errors, e.expected ≠ .nestingLimit := by
    decide +kernel
  have he : (⟨.rBracket, .eof, [], ⟨3, 3⟩⟩ : ParseError) ∈ (parse ['[', '[', '1']).errors := by
    decide +kernel
  exact ⟨hclosed, hshallow, he, .inr rfl, closer_fix_resolves_one hclosed hshallow he (.inr rfl)⟩

end Maml
