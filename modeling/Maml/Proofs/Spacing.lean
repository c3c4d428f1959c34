import Maml.Proofs.Words
import Mathlib.Data.List.Chain

/-! The words of a layout are its significant tokens.

1. Words `KeepApart` if one of the two is a punctuation mark or the second begins a line. In
   a layout all neighbours do (`allApart_of_laidOut`).
2. A row of such words is divided into exactly these words again, each with its
   gap as the trivia in front of it (`map_outline_group`). -/
namespace Maml

open Lexer

/-! ## Neighbours -/

def TokenKind.isLaidOut (kind : TokenKind) : Bool :=
  kind.isPunctuation || kind.isScalar || kind.isKeyStart

theorem TokenKind.isLaidOut_iff : ∀ {kind : TokenKind}, kind.isLaidOut = true →
    kind.isTrivia = false ∧ kind ≠ .unterminatedString := by
  decide

namespace Spaced

/-- Whether no word in front of this one goes on with it. -/
def StandsApart (s : Spaced) : Prop := s.kind.isPunctuation = true ∨ s.onNewLine = true

/-- Whether the first of two words does not go on with the second. -/
def KeepApart (s t : Spaced) : Prop := s.kind.isPunctuation = true ∨ t.StandsApart

abbrev AllApart (ss : List Spaced) : Prop := ss.IsChain KeepApart

theorem allApart_of_isPunctuation {s : Spaced} {ss : List Spaced}
    (hs : s.kind.isPunctuation = true) (h : AllApart ss) : AllApart (s :: ss) :=
  List.isChain_cons.mpr ⟨fun _ _ => .inl hs, h⟩

end Spaced

open Spaced

theorem isPunctuation_opener (c : Container) : c.opener.isPunctuation = true := by
  cases c <;> rfl

theorem isPunctuation_closer (c : Container) : c.closer.isPunctuation = true := by
  cases c <;> rfl

/-- A row in front of words that stand apart. -/
def ApartFrom (p : Part) (ss : List Spaced) : Prop :=
  ∀ ts, AllApart ts → (∀ t ∈ ts.head?, t.StandsApart) → AllApart (ss ++ ts) ∧
    match p with
    | .tail _ _ => ∀ t ∈ (ss ++ ts).head?, t.StandsApart
    | _ => True

theorem apartFrom_of_laidOut {p : Part} {ss : List Spaced} (h : LaidOut p ss) :
    ApartFrom p ss := by
  induction h with
  | scalar => exact fun ts hts hhead => ⟨List.isChain_cons.mpr ⟨fun t ht => .inr (hhead t ht), hts⟩, trivial⟩
  | @container c es opener ss closer ho hc h ih =>
    intro ts hts hhead
    have hcloser : closer.kind.isPunctuation = true := by rw [hc]; exact isPunctuation_closer c
    have hopener : opener.kind.isPunctuation = true := by rw [ho]; exact isPunctuation_opener c
    have hinner := ih (closer :: ts) (allApart_of_isPunctuation hcloser hts)
      (fun t ht => .inl (by simpa [← Option.mem_some_iff.mp ht] using hcloser))
    rw [List.append_assoc, List.cons_append]
    exact ⟨allApart_of_isPunctuation hopener hinner.1, trivial⟩
  | @member k d key colon ss hk hc h ih =>
    intro ts hts hhead
    have hcolon : colon.kind.isPunctuation = true := by rw [hc]; rfl
    have hrest := allApart_of_isPunctuation hcolon (ih ts hts hhead).1
    refine ⟨List.isChain_cons.mpr ⟨?_, hrest⟩, trivial⟩
    intro t ht
    obtain rfl : colon = t := by simpa using ht
    exact .inr (.inl hcolon)
  | item h ih => exact fun ts hts hhead => ⟨(ih ts hts hhead).1, trivial⟩
  | nil => exact fun ts hts hhead => ⟨hts, trivial⟩
  | cons h ht ih iht =>
    intro ts hts hhead
    obtain ⟨htail, hapart⟩ := iht ts hts hhead
    rw [List.append_assoc]
    exact ⟨(ih _ htail hapart).1, trivial⟩
  | done => exact fun ts hts hhead => ⟨hts, hhead⟩
  | @comma c es comma ss hc h ih =>
    intro ts hts hhead
    have hcomma : comma.kind.isPunctuation = true := by rw [hc]; rfl
    refine ⟨allApart_of_isPunctuation hcomma (ih ts hts hhead).1, ?_⟩
    intro t ht
    obtain rfl : comma = t := by simpa using ht
    exact .inl hcomma
  | @line c es s ss hs h ih =>
    -- without a comma, the line break is what keeps the next element apart
    intro ts hts hhead
    refine ⟨(ih ts hts hhead).1, ?_⟩
    intro t ht
    obtain rfl : s = t := by simpa using ht
    exact .inr hs

theorem allApart_of_laidOut {p : Part} {ss : List Spaced} (h : LaidOut p ss) : AllApart ss := by
  have happend := (apartFrom_of_laidOut h [] .nil (by simp)).1
  rwa [List.append_nil] at happend

theorem isLaidOut_of_mem {p : Part} {ss : List Spaced} (h : LaidOut p ss) :
    ∀ s ∈ ss, s.kind.isLaidOut = true := by
  induction h with
  | @scalar w s hw =>
    intro s' hs'
    obtain rfl := List.mem_singleton.mp hs'
    have hscalar := w.2
    rw [← hw] at hscalar
    simp [TokenKind.isLaidOut, Spaced.kind, hscalar]
  | @container c es opener ss closer ho hc h ih =>
    have hopener : opener.kind.isLaidOut = true := by rw [ho]; cases c <;> rfl
    have hcloser : closer.kind.isLaidOut = true := by rw [hc]; cases c <;> rfl
    intro s hs
    simp only [List.cons_append, List.mem_cons, List.mem_append, List.not_mem_nil, or_false] at hs
    rcases hs with rfl | hs | rfl
    · exact hopener
    · exact ih s hs
    · exact hcloser
  | @member k d key colon ss hk hc h ih =>
    have hkey : key.kind.isLaidOut = true := by
      have hstart := k.2
      rw [← hk] at hstart
      simp [TokenKind.isLaidOut, Spaced.kind, hstart]
    have hcolon : colon.kind.isLaidOut = true := by rw [hc]; rfl
    intro s hs
    rcases List.mem_cons.mp hs with rfl | hs
    · exact hkey
    rcases List.mem_cons.mp hs with rfl | hs
    · exact hcolon
    · exact ih s hs
  | item h ih => exact ih
  | nil => simp
  | cons h ht ih iht => exact fun s hs => (List.mem_append.mp hs).elim (ih s) (iht s)
  | done => simp
  | @comma c es comma ss hc h ih =>
    have hcomma : comma.kind.isLaidOut = true := by rw [hc]; rfl
    intro s hs
    rcases List.mem_cons.mp hs with rfl | hs
    · exact hcomma
    · exact ih s hs
  | line hs h ih => exact ih

/-! ## Delimiters between words -/

theorem delimited_gap {gap : Text} (h : IsGap gap) (tail : Text) (ht : gap = [] → Delimited tail) :
    Delimited (gap ++ tail) := by
  cases h with
  | nil => exact ht rfl
  | blank hc => exact delimited_cons (by simp [isDelimiter, hc])
  | comment => exact delimited_cons rfl

theorem delimited_end {text : Text} (h : IsEnd text) : Delimited text := by
  cases h with
  | gap h =>
    have hgap := delimited_gap h [] fun _ => delimited_nil
    rwa [List.append_nil] at hgap
  | comment h => exact delimited_gap h _ fun _ => delimited_cons rfl

theorem Spaced.StandsApart.delimited {s : Spaced} (h : s.StandsApart) (tail : Text) :
    Delimited (s.text ++ tail) := by
  rw [Spaced.text, List.append_assoc]
  apply delimited_gap s.isGap _
  intro hgap
  rcases h with h | h
  · obtain ⟨c, htext, hdelimiter, -⟩ := Word.exists_delimiter h
    rw [htext]
    exact delimited_cons hdelimiter
  · rw [Spaced.onNewLine, hgap] at h
    simp at h

theorem delimited_behind {s : Spaced} {ss : List Spaced} {text : Text} (h : AllApart (s :: ss))
    (hs : ¬ s.kind.isPunctuation = true) (hend : IsEnd text) :
    Delimited (ss.flatMap Spaced.text ++ text) := by
  cases ss with
  | nil => exact delimited_end hend
  | cons t ss =>
    have happart : t.StandsApart := ((List.isChain_cons_cons.mp h).1).resolve_left hs
    rw [List.flatMap_cons, List.append_assoc]
    exact happart.delimited _

/-! ## Lexemes -/

/-- What a layout says of a word: its kind, its text, and whether it begins a line. -/
def Spaced.outline (s : Spaced) : TokenKind × Text × Bool := (s.kind, s.word.text, s.onNewLine)

def Lexeme.onNewLine (l : Lexeme) : Bool :=
  l.trivia.any fun t => t.kind == .whitespace && t.text.any isLineBreak

def Lexeme.outline (l : Lexeme) : TokenKind × Text × Bool := (l.kind, l.token.text, l.onNewLine)

theorem place_append (o : Nat) (ts us : List (TokenKind × Text)) :
    ∃ o', place o (ts ++ us) = place o ts ++ place o' us := by
  induction ts generalizing o with
  | nil => exact ⟨o, rfl⟩
  | cons t ts ih =>
    obtain ⟨o', h⟩ := ih (o + t.2.size)
    exact ⟨o', by rw [List.cons_append, place, h]; rfl⟩

theorem map_place (o : Nat) (ts : List (TokenKind × Text)) :
    (place o ts).map (fun t => (t.kind, t.text)) = ts := by
  induction ts generalizing o with
  | nil => rfl
  | cons t ts ih => rw [place, List.map_cons, ih]

theorem all_closed_lex {source : Text} (h : ∀ t ∈ tokenize source, t.kind ≠ .unterminatedString) :
    ∀ t ∈ lex source, t.1 ≠ .unterminatedString := by
  intro t ht
  rw [← map_place 0 (lex source)] at ht
  obtain ⟨u, hu, rfl⟩ := List.mem_map.mp ht
  exact h u hu

theorem isTrivia_of_mem_place {o : Nat} {ts : List (TokenKind × Text)}
    (h : ∀ t ∈ ts, t.1.isTrivia = true) : ∀ t ∈ place o ts, t.isTrivia = true := by
  intro t ht
  have hmem : (t.kind, t.text) ∈ (place o ts).map fun t => (t.kind, t.text) :=
    List.mem_map_of_mem ht
  rw [map_place] at hmem
  exact h _ hmem

theorem onNewLine_place (o : Nat) (ts : List (TokenKind × Text)) (t : Token) :
    Lexeme.onNewLine ⟨place o ts, t⟩ = breaksLine ts := by
  have hts := map_place o ts
  rw [Lexeme.onNewLine, breaksLine, ← hts, List.any_map, hts]
  rfl

/-- Words that keep apart are the significant tokens of their text. -/
theorem map_outline_group {ss : List Spaced} {text : Text} (hkinds : ∀ s ∈ ss, s.kind.isLaidOut = true)
    (hapart : AllApart ss) (hend : IsEnd text) (o : Nat) :
    (Lexemes.group (place o (lex (ss.flatMap Spaced.text ++ text)))).1.map Lexeme.outline =
      ss.map Spaced.outline := by
  induction ss generalizing o with
  | nil =>
    have htrivia := isTrivia_of_mem_place (o := o) (isTrivia_of_mem_lex_end hend)
    rw [List.flatMap_nil, List.nil_append, Lexemes.group_of_isTrivia htrivia]
    rfl
  | cons s ss ih =>
    obtain ⟨htrivial, hstring⟩ := TokenKind.isLaidOut_iff (hkinds s List.mem_cons_self)
    -- the gap is trivia, the word behind it is a token, and the rest goes on from there
    have hword : lex (s.word.text ++ (ss.flatMap Spaced.text ++ text)) =
        (s.kind, s.word.text) :: lex (ss.flatMap Spaced.text ++ text) := by
      by_cases hs : s.kind.isPunctuation = true
      · exact Word.lex_append_of_isPunctuation _ hs
      · exact Word.lex_append htrivial hstring (delimited_behind hapart hs hend)
    obtain ⟨ts, hlex, htrivia, hbreaks⟩ :=
      exists_lex_gap s.isGap (s.word.text ++ (ss.flatMap Spaced.text ++ text))
        (Word.head?_not_isBlank _ htrivial)
    have htext : (s :: ss).flatMap Spaced.text ++ text =
        s.gap ++ (s.word.text ++ (ss.flatMap Spaced.text ++ text)) := by
      simp [Spaced.text]
    obtain ⟨o', hplace⟩ := place_append o ts ((s.kind, s.word.text) :: lex (ss.flatMap Spaced.text ++ text))
    have hrest := ih (fun t ht => hkinds t (List.mem_cons_of_mem _ ht)) hapart.tail
      (o' + s.word.text.size)
    have htoken (span : Span) : (Token.mk s.kind span s.word.text).isTrivia = false := htrivial
    rw [htext, hlex, hword, hplace, place,
      Lexemes.group_append_cons (isTrivia_of_mem_place htrivia) (htoken _), List.map_cons, hrest,
      List.map_cons, Lexeme.outline, onNewLine_place, hbreaks]
    rfl

theorem map_outline_lexemes {p : Part} {ss : List Spaced} {rest source : Text} (h : LaidOut p ss)
    (hend : IsEnd rest) (hsource : source = ss.flatMap Spaced.text ++ rest) :
    (Lexemes.ofTokens (tokenize source) source.size).lexemes.map Lexeme.outline =
      ss.map Spaced.outline := by
  have hgroup := map_outline_group (isLaidOut_of_mem h) (allApart_of_laidOut h) hend 0
  rw [← hsource] at hgroup
  rw [Lexemes.ofTokens, takeWhile_tokenize]
  exact hgroup

end Maml
