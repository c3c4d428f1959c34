import Maml.Proofs.Changes
import Maml.Proofs.Options
import Maml.Proofs.Spacing
import Maml.Proofs.Splicing
import Maml.Proofs.Usable
import Maml.Repair

/-! Fixes that quote a token. -/
namespace Maml

open Draft

/-! ## Where tokens ask for quotes -/

namespace Draft

/-- Whether a node that begins with a mistake begins with a token or with a bracket. -/
def BeginsOpenly : Draft → Prop
  | node .error (some _) first _ _ =>
    (∃ l, first = leaf l) ∨ first.firstLexeme.kind.isOpener = true
  | _ => True

section
variable {eof : Token} {e : List Container} {behind : List Lexeme} {slot : Slot}

theorem beginsOpenly_junk {first : Draft} {rest : List Draft}
    (h : Read eof e .skipped behind (first :: rest)) : BeginsOpenly (junk first rest) := by
  cases h with
  | skippedToken | skippedScalar => exact .inl ⟨_, rfl⟩
  | skippedValue ho => exact .inr ho

theorem beginsOpenly_containers {c : Container} {opener : Lexeme} {ds : List Draft}
    {closer : Option Lexeme} {next : Token} (hds : EveryNode BeginsOpenly ds) :
    EveryNode BeginsOpenly [container c opener ds closer next] := by
  have hlist : EveryNode BeginsOpenly (wrap c.listKind ds) := by
    cases ds with
    | nil => exact everyNode_nil
    | cons d ds =>
      refine everyNode_node ?_ hds
      cases c <;> trivial
  have hcloser : EveryNode BeginsOpenly (closer.map leaf).toList := by
    cases closer with
    | none => exact everyNode_nil
    | some l => exact everyNode_leaf l
  refine everyNode_node trivial (everyNode_node ?_
    (everyNode_cons (everyNode_leaf opener) (everyNode_append_iff.mpr ⟨hlist, hcloser⟩)))
  cases c <;> trivial

theorem beginsOpenly_member {key colon : Lexeme} {value : List Draft} {note : Option ParseError}
    (hvalue : EveryNode BeginsOpenly value) :
    EveryNode BeginsOpenly [member key colon value note] := by
  have hparts := everyNode_cons (everyNode_leaf colon) hvalue
  unfold member
  split
  · exact everyNode_node trivial (everyNode_cons (everyNode_node trivial (everyNode_leaf key)) hparts)
  · exact everyNode_node (.inl ⟨key, rfl⟩) (everyNode_cons (everyNode_leaf key) hparts)

/-- Whatever is read begins openly where it begins with a mistake. -/
theorem everyNode_beginsOpenly {ds : List Draft} (h : Read eof e slot behind ds) :
    EveryNode BeginsOpenly ds := by
  have hinvalid (first : Draft) (rest : List Draft) (before after : Option ParseError)
      (hparts : EveryNode BeginsOpenly (first :: rest)) : EveryNode BeginsOpenly
        [plain .value (node .invalidValue before first rest after) []] :=
    everyNode_node trivial (everyNode_node trivial hparts)
  induction h with
  | scalar => exact everyNode_node trivial (everyNode_leaf _)
  | invalid => exact hinvalid _ _ _ _ (everyNode_leaf _)
  | @signed _ _ plus number => exact hinvalid _ _ _ _ (everyNode_map_leaf [plus, number])
  | @tooDeep _ _ opener run => exact hinvalid _ _ _ _ (everyNode_map_leaf (opener :: run))
  | closed _ _ _ _ ih => exact beginsOpenly_containers ih
  | unclosed _ _ _ _ ih => exact beginsOpenly_containers ih
  | nil => exact everyNode_nil
  | comma _ _ ih => exact everyNode_cons (everyNode_leaf _) ih
  | stray _ _ ih =>
    exact everyNode_cons (everyNode_node (.inl ⟨_, rfl⟩) (everyNode_leaf _)) ih
  | item _ _ _ ihd ih => exact everyNode_cons ihd ih
  | member _ _ _ _ _ _ ihv ih => exact everyNode_cons (beginsOpenly_member ihv) ih
  | memberAlone _ _ _ _ ih => exact everyNode_cons (beginsOpenly_member everyNode_nil) ih
  | incomplete _ _ _ ih =>
    exact everyNode_cons (everyNode_node trivial (everyNode_node trivial (everyNode_leaf _))) ih
  | incompleteSkipped _ _ _ _ _ ihs ih =>
    exact everyNode_cons (everyNode_node trivial (everyNode_node trivial (everyNode_leaf _)))
      (everyNode_cons (everyNode_node trivial ihs) ih)
  | junk hs _ _ _ ihs ih => exact everyNode_cons (everyNode_node (beginsOpenly_junk hs) ihs) ih
  | skippedNil => exact everyNode_nil
  | skippedToken _ _ _ _ _ ih => exact everyNode_cons (everyNode_leaf _) ih
  | skippedScalar _ _ _ ih =>
    exact everyNode_cons (everyNode_leaf _)
      (everyNode_cons (everyNode_node trivial (everyNode_leaf _)) ih)
  | skippedValue _ _ _ ihd ih => exact everyNode_cons ihd ih

end

end Draft

theorem Parse.beginsOpenly_of_mem_standings {source : Text} {x : Standing}
    (hx : x ∈ standings source) : BeginsOpenly x.draft := by
  have htrailing (ls : List Lexeme) : EveryNode BeginsOpenly (trailing ls) := by
    cases ls with
    | nil => exact everyNode_nil
    | cons l ls => exact everyNode_node trivial (everyNode_map_leaf (l :: ls))
  have hdrafts : EveryNode BeginsOpenly (drafts source) := by
    rw [drafts]
    generalize hds : documentDrafts _ (lexemes source) = ds
    have hread := readDocument_documentDrafts (Lexemes.ofTokens (tokenize source) source.size).eof
      (lexemes source)
    rw [hds] at hread
    cases hread with
    | value _ hd => exact everyNode_cons (everyNode_beginsOpenly hd) (htrailing _)
    | nothing => exact htrailing _
  exact hdrafts 0 [] x hx

/-! ## Mistakes that quotes resolve -/

namespace Classification

theorem of_invalidIdentifierValue {e : ParseError}
    (h : (ofParseError e).category = .invalidIdentifierValue) :
    e.expected = .value ∧ e.isMissing = false ∧ e.foundKind = .identifier := by
  obtain ⟨expected, foundKind, foundText, range⟩ := e
  cases expected <;> simp only [ofParseError, reduceCtorEq] at h
  case value =>
    split at h
    · exact absurd h (by simp [ofParseError.plus])
    · unfold ofValueError at h
      split at h
      · exact absurd h (by simp)
      · rename_i hpresent
        refine ⟨rfl, Bool.eq_false_iff.mpr hpresent, ?_⟩
        split at h
        · assumption
        all_goals exact absurd h (by simp [unexpected])
  all_goals
    repeat' split at h
    all_goals exact absurd h (by simp [ofParseError.plus, unexpected])

theorem of_expectedKey {e : ParseError} (h : (ofParseError e).category = .expectedKey) :
    e.expected = .key := by
  obtain ⟨expected, foundKind, foundText, range⟩ := e
  cases expected <;> simp only [ofParseError, ofValueError, reduceCtorEq] at h
  case key => rfl
  all_goals
    repeat' split at h
    all_goals exact absurd h (by simp [ofParseError.plus, unexpected])

end Classification

namespace Draft

/-- Whether a node lets a string be made of the lexeme that it begins with. -/
def Opens (whole : List Lexeme) (l : Lexeme) : Draft → Prop
  | leaf _ => False
  | node kind before first rest _ => first = leaf l ∧
    (kind = .invalidValue ∧ rest = [] ∨
      kind = .error ∧ before ≠ none ∧ Recasting.FollowedByColon whole l)

variable {whole : List Lexeme} {d : Draft} {e : ParseError}

theorem Opens.mem_ownLexemes {l : Lexeme} (h : Opens whole l d) : l ∈ d.ownLexemes := by
  cases d with
  | leaf => exact h.elim
  | node => exact Draft.mem_ownLexemes (List.mem_cons.mpr (.inl h.1.symm))

/-- What is noted at a node that is about neither a word in the place of a value nor a key. -/
def NotesElse (d : Draft) (e : ParseError) : Prop :=
  e.isMissing = true ∧ e.expected ≠ .key ∨ e.expected ∈ [.colon, .nestingLimit, .eof] ∨
    e.expected = .value ∧ e.foundKind = .badCharacter ∨
    e = quotingError e.expected d.firstLexeme ∧
      d.firstLexeme.kind ∈ [.comma, .unterminatedString]

theorem notesElse_of_missing {expected : Expected} {previous next : Token}
    (hexpected : expected ≠ .key) (he : e ∈ (missing expected previous next).toList) :
    NotesElse d e := by
  have hmissing := isMissing_of_mem_missing e he
  obtain rfl := List.mem_singleton.mp he
  exact .inl ⟨hmissing, hexpected⟩

theorem notesElse_of_behindColon {es : List Container} {colon : Lexeme} {note : Option ParseError}
    {value : List Draft} (h : Shaped es (.behindColon colon note) value) (he : e ∈ note.toList) :
    NotesElse d e := by
  rcases shaped_behindColon h with ⟨next, -, rfl⟩ | ⟨-, -, rfl, -⟩
  · exact notesElse_of_missing (by decide) he
  · exact absurd he List.not_mem_nil

theorem notesElse_of_keyNote {kind : NodeKind} {key : Lexeme} {rest : List Draft}
    {after : Option ParseError} (he : e ∈ (keyNote key).toList) :
    NotesElse (node kind (keyNote key) (plain .key (leaf key) []) rest after) e := by
  unfold keyNote at he
  split at he
  · rename_i hkind
    obtain rfl := List.mem_singleton.mp he
    exact .inr (.inr (.inr ⟨rfl, List.mem_cons_of_mem _ (List.mem_singleton.mpr
      (beq_iff_eq.mp hkind))⟩))
  · exact absurd he List.not_mem_nil

/-- What is noted at a node is about a word in the place of a value, about the first token in the
place of a key, or about something else. -/
theorem notes_cases (h : Formed d) (he : e ∈ d.notes) : NotesElse d e ∨
    e = quotingError .value d.firstLexeme ∧ d = node .invalidValue (some e) (leaf d.firstLexeme) []
      none ∨
    e = quotingError .key d.firstLexeme ∧ ∃ first rest after, d = node .error (some e) first rest
      after := by
  cases h with
  | scalar | value | list | key | skipped | closed => exact absurd he List.not_mem_nil
  | invalid =>
    obtain rfl := List.mem_singleton.mp he
    exact .inr (.inl ⟨rfl, rfl⟩)
  | signed hsigned =>
    obtain rfl := List.mem_singleton.mp he
    exact .inl (.inr (.inr (.inl ⟨rfl, (isSignedNumber_eq_true.mp hsigned).1⟩)))
  | tooDeep =>
    obtain rfl := List.mem_singleton.mp he
    exact .inl (.inr (.inl (by simp [ParseError.ofToken])))
  | @unclosed _ c => exact .inl (notesElse_of_missing (by cases c <;> decide) he)
  | stray hl =>
    obtain rfl := List.mem_singleton.mp he
    exact .inl (.inr (.inr (.inr ⟨rfl, List.mem_cons.mpr (.inl hl)⟩)))
  | keyValue _ hv =>
    rcases List.mem_append.mp he with he | he
    · exact .inl (notesElse_of_keyNote he)
    · exact .inl (notesElse_of_behindColon hv he)
  | incomplete =>
    rcases List.mem_append.mp he with he | he
    · exact .inl (notesElse_of_keyNote he)
    · unfold colonNote at he
      split at he
      · exact absurd he List.not_mem_nil
      · obtain rfl := List.mem_singleton.mp he
        exact .inl (.inr (.inl (by simp [ParseError.ofToken])))
  | literalKey hv =>
    rcases List.mem_cons.mp he with rfl | he
    · exact .inr (.inr ⟨rfl, _, _, _, rfl⟩)
    · exact .inl (notesElse_of_behindColon hv he)
  | junk =>
    obtain rfl := List.mem_singleton.mp he
    exact .inr (.inr ⟨rfl, _, _, _, rfl⟩)
  | trailing =>
    obtain rfl := List.mem_singleton.mp he
    exact .inl (.inr (.inl (by simp [ParseError.ofToken])))

theorem eq_node_of_identifier (h : Formed d) (he : e ∈ d.notes) (hexpected : e.expected = .value)
    (hpresent : e.isMissing = false) (hfound : e.foundKind = .identifier) :
    e = quotingError .value d.firstLexeme ∧
      d = node .invalidValue (some e) (leaf d.firstLexeme) [] none := by
  rcases notes_cases h he with
    (⟨hmissing, -⟩ | helse | ⟨-, helse⟩ | ⟨herror, helse⟩) | hd | ⟨herror, -⟩
  · exact absurd (hpresent.symm.trans hmissing) Bool.false_ne_true
  · exact absurd helse (by simp [hexpected])
  · exact absurd (hfound.symm.trans helse) (by decide)
  · rw [herror] at hfound
    rw [show d.firstLexeme.kind = .identifier from hfound] at helse
    exact absurd helse (by decide)
  · exact hd
  · exact absurd (congrArg ParseError.expected herror) (by rw [hexpected]; exact nofun)

theorem opens_of_identifier (h : Formed d) (he : e ∈ d.notes) (hexpected : e.expected = .value)
    (hpresent : e.isMissing = false) (hfound : e.foundKind = .identifier) :
    e = quotingError .value d.firstLexeme ∧ Opens whole d.firstLexeme d := by
  obtain ⟨herror, hd⟩ := eq_node_of_identifier h he hexpected hpresent hfound
  refine ⟨herror, ?_⟩
  rw [hd]
  exact ⟨rfl, .inl ⟨rfl, rfl⟩⟩

/-- A mistake of a key covers the token that its node begins with. -/
theorem eq_quotingError_of_key (h : Formed d) (he : e ∈ d.notes) (hexpected : e.expected = .key) :
    e = quotingError .key d.firstLexeme := by
  rcases notes_cases h he with
    (⟨-, helse⟩ | helse | ⟨helse, -⟩ | ⟨herror, -⟩) | ⟨herror, -⟩ | ⟨herror, -⟩
  · exact absurd hexpected helse
  · exact absurd helse (by simp [hexpected])
  · exact absurd (hexpected.symm.trans helse) (by decide)
  · rwa [hexpected] at herror
  · exact absurd (congrArg ParseError.expected herror) (by rw [hexpected]; exact nofun)
  · exact herror

/-- A mistake of a key in front of a colon is noted where that begins what is skipped. -/
theorem opens_of_quotable (h : Formed d) (hopen : BeginsOpenly d) (he : e ∈ d.notes)
    (hexpected : e.expected = .key) (hkey : isQuotable d.firstLexeme.kind = true)
    (hcolon : Recasting.FollowedByColon whole d.firstLexeme) : Opens whole d.firstLexeme d := by
  rcases notes_cases h he with
    (⟨-, helse⟩ | helse | ⟨helse, -⟩ | ⟨-, helse⟩) | ⟨herror, -⟩ | ⟨-, hd⟩
  · exact absurd hexpected helse
  · exact absurd helse (by simp [hexpected])
  · exact absurd (hexpected.symm.trans helse) (by decide)
  · exfalso
    revert hkey helse
    cases d.firstLexeme.kind <;> decide
  · exact absurd (congrArg ParseError.expected herror) (by rw [hexpected]; exact nofun)
  · obtain ⟨first, rest, after, rfl⟩ := hd
    rcases hopen with ⟨l, rfl⟩ | hopener
    · exact ⟨rfl, .inr ⟨rfl, nofun, hcolon⟩⟩
    · exfalso
      have hkey : isQuotable first.firstLexeme.kind = true := hkey
      revert hopener hkey
      cases first.firstLexeme.kind <;> decide

end Draft

namespace Parse

variable {source : Text}

theorem firstLexeme_mem_of_mem_standings {x : Standing} (hx : x ∈ standings source) :
    x.draft.firstLexeme ∈ lexemes source := by
  obtain ⟨front, back, hlexemes, -⟩ := among_of_mem_standingsRow 0 [] _ x hx
  obtain ⟨ls, hls⟩ := exists_lexemes_eq_cons x.draft
  rw [← lexemesList_drafts, show lexemesList (drafts source) = _ from hlexemes, hls]
  simp

/-- A lexeme that a colon comes behind has one behind it wherever it stands. -/
theorem followedByColon_of_eq_append {front back : List Lexeme} {l colon : Lexeme}
    (h : lexemes source = front ++ l :: colon :: back) (hcolon : colon.kind = .colon) :
    Recasting.FollowedByColon (lexemes source) l := by
  have hnodup := nodup_lexemes source
  rw [h] at hnodup ⊢
  rintro rest ⟨front', hrest⟩
  have hnot := List.nodup_append.mp hnodup
  have hmem : l ∉ front := fun hl => hnot.2.2 l hl l List.mem_cons_self rfl
  have hmem' : l ∉ colon :: back := (List.nodup_cons.mp hnot.2.1).1
  obtain ⟨-, -, rfl⟩ := (List.append_cons_inj_of_notMem hmem hmem').mp hrest.symm
  exact ⟨colon, rfl, hcolon⟩

/-- Where quotes are asked for a node begins that lets its first token be made a string, and the
mistake is noted there. -/
theorem exists_opens {e : ParseError} (he : e ∈ (parse source).errors)
    (hq : (Diagnostic.ofParseError e).AsksForQuotes source) :
    ∃ x ∈ standings source, e ∈ x.draft.notes ∧
      Opens (lexemes source) x.draft.firstLexeme x.draft ∧
      (e = quotingError .value x.draft.firstLexeme ∧ x.draft.firstLexeme.kind = .identifier ∨
        e = quotingError .key x.draft.firstLexeme ∧
          isQuotable x.draft.firstLexeme.kind = true) := by
  obtain ⟨x, hx, hnote⟩ := List.mem_flatMap.mp ((perm_errors_parse source).mem_iff.mpr he)
  have hformed := formed_of_mem_standings hx
  refine ⟨x, hx, hnote, ?_⟩
  rcases hq with hvalue | ⟨hkey, front, t, colon, back, htokens, hstart, hquotable, hcolon⟩
  · obtain ⟨hexpected, hpresent, hfound⟩ := Classification.of_invalidIdentifierValue hvalue
    obtain ⟨herror, hopens⟩ := opens_of_identifier hformed hnote hexpected hpresent hfound
    refine ⟨hopens, .inl ⟨herror, ?_⟩⟩
    rw [herror] at hfound
    exact hfound
  · have hexpected := Classification.of_expectedKey hkey
    have herror := eq_quotingError_of_key hformed hnote hexpected
    -- the token in question is the one that the node begins with
    have hlexemes : (lexemes source).map Lexeme.token = front ++ t :: colon :: back :=
      (map_token_lexemes source).trans htokens
    obtain ⟨fronts, rest, hsplit, -, hrest⟩ := List.map_eq_append_iff.mp hlexemes
    obtain ⟨l, rest, rfl, rfl, htail⟩ := List.map_eq_cons_iff.mp hrest
    obtain ⟨c, backs, rfl, rfl, -⟩ := List.map_eq_cons_iff.mp htail
    have hl : l = x.draft.firstLexeme := by
      refine eq_of_start_eq (by rw [hsplit]; simp) (firstLexeme_mem_of_mem_standings hx) ?_
      rw [hstart, herror]
      rfl
    subst hl
    exact ⟨opens_of_quotable hformed (beginsOpenly_of_mem_standings hx) hnote hexpected hquotable
      (followedByColon_of_eq_append hsplit hcolon), .inr ⟨herror, hquotable⟩⟩

end Parse

/-! ## Quoting one token -/

def TokenKind.canBeString (kind : TokenKind) : Bool := kind == .identifier || isQuotable kind

/-- Where an offset is when a token is quoted. -/
def grown (quoted : Token) (p : Nat) : Nat :=
  if p ≤ quoted.span.start then p
  else p + ((Quoted.quote quoted.text).size - quoted.text.size)

theorem grown_injective {quoted : Token} {p q : Nat} (h : grown quoted p = grown quoted q) : p = q := by
  unfold grown at h
  split at h <;> split at h <;> omega

def Token.isQuoted (t quoted : Token) : Bool :=
  t.span.start == quoted.span.start && t.kind.canBeString

/-- What becomes of a token when one is quoted. -/
def Token.requoted (t quoted : Token) : Token :=
  let span : Span := ⟨grown quoted t.span.start, grown quoted t.span.stop⟩
  if t.isQuoted quoted then ⟨.string, span, Quoted.quote t.text⟩ else ⟨t.kind, span, t.text⟩

section
variable {quoted t : Token}

theorem Token.requoted_of_not (h : t.isQuoted quoted = false) : t.requoted quoted =
    ⟨t.kind, ⟨grown quoted t.span.start, grown quoted t.span.stop⟩, t.text⟩ := by
  rw [requoted, h]
  rfl

theorem Token.requoted_of (h : t.isQuoted quoted = true) : t.requoted quoted =
    ⟨.string, ⟨grown quoted t.span.start, grown quoted t.span.stop⟩, Quoted.quote t.text⟩ := by
  rw [requoted, h]
  rfl

theorem Token.isTrivia_requoted (t : Token) : (t.requoted quoted).isTrivia = t.isTrivia := by
  cases h : t.isQuoted quoted with
  | false => rw [requoted_of_not h]; rfl
  | true =>
    rw [requoted_of h]
    have hkind : t.kind.canBeString = true := ((Bool.and_eq_true ..).mp h).2
    show TokenKind.isTrivia .string = t.kind.isTrivia
    revert hkind
    cases t.kind <;> decide

/-- Whether a mistake is told as before when a token is quoted. -/
def ParseError.isKept (quoted : Token) (e : ParseError) : Bool :=
  e.isMissing || e.range.start != quoted.span.start || e.expected == .colon ||
    !e.foundKind.canBeString

variable (quoted) in
def quoting : Recasting where
  map l := ⟨l.trivia.map fun t => t.requoted quoted, l.token.requoted quoted⟩
  quotes l := l.token.isQuoted quoted
  cut _ := none
  alike e e' := e'.expected = e.expected ∧ e.isKept quoted = true
  kind_map h := by
    have hkind := congrArg Token.kind (Token.requoted_of_not h)
    exact hkind
  kind_quotes h := by
    have hkind := congrArg Token.kind (Token.requoted_of h)
    exact ⟨((Bool.and_eq_true ..).mp h).2, hkind⟩
  kind_cut := @Recasting.kind_of_no_cut
  alike_stretch expected l m h := by
    refine ⟨rfl, ?_⟩
    rcases (Bool.and_eq_false_iff ..).mp h with h | h
    · simp [ParseError.isKept, ParseError.ofToken, bne, h]
    · simp [ParseError.isKept, ParseError.ofToken, h]
  alike_cover _ _ h := by
    refine ⟨rfl, ?_⟩
    simp [ParseError.isKept, ParseError.ofToken, (isSignedNumber_eq_true.mp h).1,
      TokenKind.canBeString, isQuotable, TokenKind.isKeyword]
  alike_colon _ _ _ _ := ⟨rfl, by simp [ParseError.isKept, ParseError.ofToken]⟩
  alike_gap _ _ _ _ :=
    ⟨rfl, by simp [ParseError.isKept, ParseError.isMissing, ParseError.ofToken, Span.isEmpty,
      Span.empty]⟩

theorem kept_quotingError {expected : Expected} {l : Lexeme}
    (hexpected : expected = .value ∨ expected = .key) (hl : l.token.span.isEmpty = false)
    (h : l.token.isQuoted quoted = true) :
    (quotingError expected l).isKept quoted = false := by
  obtain ⟨hstart, hkind⟩ := (Bool.and_eq_true ..).mp h
  rcases hexpected with rfl | rfl <;>
    simp [ParseError.isKept, quotingError, ParseError.ofToken, ParseError.isMissing, hl, hkind,
      beq_iff_eq.mp hstart]

theorem isSignedNumber_requoted {t u : Token} (ht : t.isQuoted quoted = false)
    (hu : u.isQuoted quoted = false) :
    isSignedNumber (t.requoted quoted) (u.requoted quoted) = isSignedNumber t u := by
  have hadjacent : (grown quoted u.span.start == grown quoted t.span.stop) =
      (u.span.start == t.span.stop) := by
    rw [Bool.eq_iff_iff, beq_iff_eq, beq_iff_eq]
    exact ⟨grown_injective, congrArg _⟩
  rw [Token.requoted_of_not ht, Token.requoted_of_not hu, isSignedNumber, isSignedNumber,
    hadjacent]

theorem keepsApart_quoting (whole : List Lexeme) : (quoting quoted).KeepsApart whole := by
  intro l m _ hsigned hl
  cases hm : m.token.isQuoted quoted with
  | false => rwa [← isSignedNumber_requoted hl hm]
  | true =>
    have hkind : (m.token.requoted quoted).kind = .number := by
      have hsigned : isSignedNumber (l.token.requoted quoted) (m.token.requoted quoted) = true :=
        hsigned
      exact (isSignedNumber_eq_true.mp hsigned).2.2.1
    rw [Token.requoted_of hm] at hkind
    exact absurd hkind (by simp)

end

namespace Parse

variable {source : Text}

/-- If a node lets a string be made of its first token, every node lets that change through. -/
theorem fits_quoting {y : Standing} (hy : y ∈ standings source)
    (hopens : Opens (lexemes source) y.draft.firstLexeme y.draft) :
    ∀ x ∈ standings source,
      (quoting y.draft.firstToken).Fits (lexemes source) x.draft := by
  intro x hx
  -- the lexeme is a part of that node alone
  have hsame {l : Lexeme} (hl : l ∈ x.draft.ownLexemes)
      (hq : l.token.isQuoted y.draft.firstToken = true) : l = y.draft.firstLexeme ∧ x = y := by
    have hfirst : l = y.draft.firstLexeme :=
      eq_of_start_eq (mem_lexemes_of_mem_ownLexemes hx hl) (firstLexeme_mem_of_mem_standings hy)
        (beq_iff_eq.mp ((Bool.and_eq_true ..).mp hq).1)
    exact ⟨hfirst, eq_of_mem_ownLexemes hx hy hl (hfirst ▸ hopens.mem_ownLexemes)⟩
  cases hd : x.draft with
  | leaf => trivial
  | node kind before first rest after =>
    have hnode {l : Lexeme} (hl : leaf l ∈ first :: rest)
        (hq : l.token.isQuoted y.draft.firstToken = true) : first = leaf l ∧
          (kind = .invalidValue ∧ rest = [] ∨ kind = .error ∧ before ≠ none ∧
            Recasting.FollowedByColon (lexemes source) l) := by
      obtain ⟨rfl, rfl⟩ := hsame (hd ▸ mem_ownLexemes hl) hq
      rw [hd] at hopens ⊢
      exact hopens
    refine ⟨fun l hl hq => ?_, ?_⟩
    · obtain ⟨rfl, hvalue | ⟨hkind, hbefore, hcolon⟩⟩ := hnode hl hq
      · exact .inl hvalue
      · exact .inr ⟨hkind, rfl, hbefore, hcolon⟩
    · rintro plus number rfl rfl hsigned
      obtain ⟨hsign, -, hkind, -⟩ := isSignedNumber_eq_true.mp hsigned
      have hplus : plus.token.isQuoted y.draft.firstToken = false := by
        rw [Token.isQuoted, hsign]
        exact Bool.and_false _
      have hnumber : number.token.isQuoted y.draft.firstToken = false := by
        cases hq : number.token.isQuoted y.draft.firstToken with
        | false => rfl
        | true =>
          -- it would be the first part of the node, which is the sign
          obtain ⟨hsame, -⟩ := hnode (by simp) hq
          obtain rfl := Draft.leaf.inj hsame
          exact absurd (hsign.symm.trans hkind) (by decide)
      have hmoved := isSignedNumber_requoted hplus hnumber
      rw [hsigned] at hmoved
      exact hmoved

end Parse

/-! ## The mistakes that are left -/

/-- If all but one thing of a list is kept, what is kept is the list without that thing. -/
theorem filter_eq_eraseIdx {α : Type} {keep : α → Bool} {as : List α} {i : Nat} {a : α}
    (hi : as[i]? = some a) (ha : keep a = false) (hcount : as.countP (!keep ·) = 1) :
    as.filter keep = as.eraseIdx i := by
  induction as generalizing i with
  | nil => simp at hi
  | cons b bs ih =>
    cases i with
    | zero =>
      obtain rfl : b = a := by simpa using hi
      have hnone : bs.countP (!keep ·) = 0 := by
        rw [List.countP_cons_of_pos (by simp [ha])] at hcount
        omega
      have hall : ∀ c ∈ bs, keep c = true := by simpa [List.countP_eq_zero] using hnone
      rw [List.filter_cons_of_neg (by simp [ha]), List.filter_eq_self.mpr hall]
      rfl
    | succ i =>
      have hi : bs[i]? = some a := by simpa using hi
      have hpos : 0 < bs.countP (!keep ·) :=
        List.countP_pos_iff.mpr ⟨a, List.mem_of_getElem? hi, by simp [ha]⟩
      have hb : keep b = true := by
        cases hb : keep b with
        | true => rfl
        | false =>
          rw [List.countP_cons_of_pos (by simp [hb])] at hcount
          omega
      rw [List.countP_cons_of_neg (by simp [hb])] at hcount
      rw [List.filter_cons_of_pos hb, List.eraseIdx_cons_succ, ih hi hcount]

namespace Parse

variable {source : Text}

theorem countP_isQuoted {l : Lexeme} (hl : l ∈ lexemes source)
    (hkind : l.kind.canBeString = true) :
    (lexemes source).countP (·.token.isQuoted l.token) = 1 := by
  obtain ⟨front, back, hsplit⟩ := List.mem_iff_append.mp hl
  have hnodup := nodup_lexemes source
  rw [hsplit] at hnodup
  obtain ⟨-, hback, happart⟩ := List.nodup_append.mp hnodup
  have hsame {m : Lexeme} (hm : m ∈ lexemes source) (hq : m.token.isQuoted l.token = true) :
      m = l := eq_of_start_eq hm hl (beq_iff_eq.mp ((Bool.and_eq_true ..).mp hq).1)
  have hnone (ms : List Lexeme) (hms : ∀ m ∈ ms, m ∈ lexemes source) (hne : l ∉ ms) :
      ms.countP (·.token.isQuoted l.token) = 0 := by
    rw [List.countP_eq_zero]
    intro m hm hq
    exact hne (hsame (hms m hm) hq ▸ hm)
  have hself : l.token.isQuoted l.token = true := by
    rw [Token.isQuoted, beq_self_eq_true, Bool.true_and]
    exact hkind
  have hfront := hnone front (fun m hm => by rw [hsplit]; simp [hm])
    fun hl => happart l hl l List.mem_cons_self rfl
  have hrest := hnone back (fun m hm => by rw [hsplit]; simp [hm]) (List.nodup_cons.mp hback).1
  rw [hsplit, List.countP_append, hfront, List.countP_cons, hrest, if_pos hself]

/-- When a token is quoted the mistake that asks for it is no longer told, and the others are told
as before. -/
theorem expectations_of_quoting {text : Text} {l : Lexeme} (hl : l ∈ lexemes source)
    (hkind : l.kind.canBeString = true) {expected : Expected}
    (hexpected : expected = .value ∨ expected = .key) {i : Nat}
    (hi : (parse source).errors[i]? = some (quotingError expected l))
    (h : Recast (quoting l.token) .file (drafts source) (drafts text)) :
    (parse text).expectations = (parse source).expectations.eraseIdx i := by
  have hpresent {m : Lexeme} (hm : m ∈ lexemes source) : m.token.span.isEmpty = false := by
    have hbounds := bounds_of_placed (placed_lexemes source) m hm
    simp only [Span.isEmpty, beq_eq_false_iff_ne]
    omega
  have halike : ∀ e e', (quoting l.token).alike e e' → e.isKept l.token = true :=
    fun _ _ h => h.2
  obtain ⟨herrors, hcount⟩ := h.errorsList halike fun m hm hq => by
    rw [lexemesList_drafts] at hm
    exact ⟨kept_quotingError (.inl rfl) (hpresent hm) hq,
      kept_quotingError (.inr rfl) (hpresent hm) hq⟩
  rw [lexemesList_drafts] at hcount
  have hone : (errorsList (drafts source)).countP (!·.isKept l.token) = 1 :=
    hcount.trans (countP_isQuoted hl hkind)
  have hself : l.token.isQuoted l.token = true := by
    rw [Token.isQuoted, beq_self_eq_true, Bool.true_and]
    exact hkind
  have hleft := filter_eq_eraseIdx hi (kept_quotingError hexpected (hpresent hl) hself) hone
  have hmap : ∀ es es', List.Forall₂ (quoting l.token).alike es es' →
      es'.map ParseError.expected = es.map ParseError.expected := by
    intro es es' h
    induction h with
    | nil => rfl
    | cons h _ ih => rw [List.map_cons, List.map_cons, ih, h.1]
  calc (parse text).expectations
      = ((errorsList (drafts source)).filter (·.isKept l.token)).map ParseError.expected :=
        hmap _ _ herrors
    _ = ((errorsList (drafts source)).eraseIdx i).map ParseError.expected := by
        rw [← errors_parse, hleft]
    _ = (parse source).expectations.eraseIdx i := (List.eraseIdx_map _ _ _).symm

end Parse

/-! ## The text after quoting -/

namespace Quoted

theorem size_le_escapeChar (c : Char) : c.utf8Size ≤ Text.size (escapeChar c) := by
  unfold escapeChar
  split
  iterate 7 decide
  split
  · have hascii : '\\'.utf8Size + ('u'.utf8Size + ('0'.utf8Size + '0'.utf8Size)) = 4 := by decide
    refine Nat.le_trans (Char.utf8Size_le_four _) ?_
    simp only [Text.size_cons]
    omega
  · simp [Text.size_cons]

theorem size_le_escape (text : Text) : text.size ≤ (escape text).size := by
  induction text with
  | nil => exact Nat.le_refl _
  | cons c cs ih =>
    have hc := size_le_escapeChar c
    rw [escape, List.flatMap_cons, Text.size_append, Text.size_cons]
    exact Nat.add_le_add hc ih

theorem size_le_quote (text : Text) : text.size ≤ (quote text).size := by
  have hescape := size_le_escape text
  rw [quote, List.cons_append, Text.size_cons, Text.size_append]
  omega

end Quoted

namespace Lexer

variable {source : Text} {front back : List (TokenKind × Text)} {t : TokenKind × Text}

def quotedText (front : List (TokenKind × Text)) (t : TokenKind × Text)
    (back : List (TokenKind × Text)) : Text :=
  front.flatMap (·.2) ++ (Quoted.quote t.2 ++ back.flatMap (·.2))

theorem spliced_quotedText (h : lex source = front ++ t :: back) :
    Spliced 0 source [⟨⟨Text.size (front.flatMap (·.2)),
      Text.size (front.flatMap (·.2)) + t.2.size⟩, Quoted.quote t.2⟩]
      (quotedText front t back) := by
  have hsource : source = front.flatMap (·.2) ++ (t.2 ++ (back.flatMap (·.2) ++ [])) := by
    rw [← flatMap_lex source, h, List.flatMap_append, List.flatMap_cons, List.append_nil]
  have hback : quotedText front t back =
      front.flatMap (·.2) ++ (Quoted.quote t.2 ++ (back.flatMap (·.2) ++ [])) := by
    rw [quotedText, List.append_nil]
  rw [hback, hsource]
  have hrest := Spliced.keep (back.flatMap (·.2))
    (Spliced.nothing (Text.size (front.flatMap (·.2)) + t.2.size + Text.size (back.flatMap (·.2))))
  have hchange := Spliced.change t.2 (Quoted.quote t.2) hrest
  refine .keep _ ?_
  rw [Nat.zero_add]
  exact hchange

theorem lex_quotedText (h : lex source = front ++ t :: back) (ht : t.1.isTrivia = false)
    (hopen : ∀ u ∈ lex source, u.1 ≠ .unterminatedString)
    (hempty : ∀ u ∈ front.getLast?, u.2 ≠ ['"', '"']) :
    lex (quotedText front t back) = front ++ (.string, Quoted.quote t.2) :: back := by
  obtain ⟨hfront, hrest⟩ := lex_cut h
  have hback := (@lex_cut _ [t] _ hrest).2
  have hne : t.2 ≠ [] := text_ne_nil_of_mem_lex (t := t) (by rw [h]; simp)
  have hends : ∀ u ∈ (lex (front.flatMap (·.2))).getLast?,
      EndsAt u (Quoted.quote t.2 ++ back.flatMap (·.2)) := by
    rw [hfront]
    intro u hu
    refine ⟨fun _ c hc => ?_, fun hcomment => ?_, fun hquotes => absurd hquotes (hempty u hu)⟩
    · obtain rfl : '"' = c := Option.some.inj hc
      decide
    · -- a comment would have gone on into the word
      obtain ⟨c, cs, htext, hblank⟩ := exists_cons_of_mem_lex (t := t) (by rw [h]; simp) ht
      have hbreak := (endsAt_of_lex_append h u hu).comment hcomment c (by
        rw [List.flatMap_cons, htext]; rfl)
      exact absurd hblank (by simp [isBlank, hbreak])
  have hparted : Parted (Quoted.quote t.2 ++ back.flatMap (·.2)) := parted_cons (by decide)
  rw [quotedText, lex_append_of_endsAt hparted ?_ hends, hfront, lex_quote_append hne, hback]
  rw [hfront]
  exact fun u hu => hopen u (by rw [h]; exact List.mem_append_left _ hu)

/-- Three quotes do not begin a string on one line. -/
theorem scan_tripleQuote (cs : Text) : (scan '"' ('"' :: '"' :: cs)).1 ≠ .string := by
  have hscan : scan '"' ('"' :: '"' :: cs) = string ('"' :: '"' :: cs) := rfl
  rw [hscan, string]
  split <;> simp

theorem kind_of_quotes {kind : TokenKind} (h : (kind, ['"', '"']) ∈ lex source)
    (hopen : kind ≠ .unterminatedString) : kind = .string := by
  obtain ⟨us, vs, hlex⟩ := List.mem_iff_append.mp h
  have hself := (lex_cut hlex).2
  rw [List.flatMap_cons, List.cons_append, lex_cons] at hself
  have hscan : string (['"'] ++ vs.flatMap (·.2)) = (kind, ['"']) := by
    obtain ⟨hkind, htext⟩ := Prod.mk.inj (List.cons.inj hself).1
    exact Prod.ext hkind (List.cons.inj htext).2
  unfold string at hscan
  split at hscan
  · split at hscan <;> exact absurd (congrArg Prod.snd hscan) (by simp)
  · split at hscan
    · exact (congrArg Prod.fst hscan).symm
    · exact absurd (congrArg Prod.fst hscan).symm hopen

/-- Behind an empty string a quoted word is not a string: three quotes in a row begin something
else. -/
theorem lex_quotedText_of_empty (h : lex source = front ++ (.string, ['"', '"']) :: t :: back)
    (hopen : ∀ u ∈ lex source, u.1 ≠ .unterminatedString) :
    ∃ u us, u.1.isTrivia = false ∧ u.1 ≠ .string ∧
      lex (quotedText (front ++ [(.string, ['"', '"'])]) t back) = front ++ u :: us := by
  obtain ⟨hfront, -⟩ := lex_cut h
  let behind : Text := '"' :: (Quoted.escape t.2 ++ ['"']) ++ back.flatMap (·.2)
  have htext : quotedText (front ++ [(.string, ['"', '"'])]) t back =
      front.flatMap (·.2) ++ '"' :: '"' :: behind := by
    rw [quotedText, List.flatMap_append, List.append_assoc]
    rfl
  have hends : ∀ u ∈ (lex (front.flatMap (·.2))).getLast?, EndsAt u ('"' :: '"' :: behind) := by
    rw [hfront]
    exact fun u hu => (endsAt_of_lex_append h u hu).of_head? rfl
  have hparted : Parted ('"' :: '"' :: behind) := parted_cons (by decide)
  have hlex : lex (quotedText (front ++ [(.string, ['"', '"'])]) t back) =
      front ++ lex ('"' :: '"' :: behind) := by
    rw [htext, lex_append_of_endsAt hparted ?_ hends, hfront]
    rw [hfront]
    exact fun u hu => hopen u (by rw [h]; exact List.mem_append_left _ hu)
  rw [lex_cons] at hlex
  refine ⟨_, _, ?_, ?_, hlex⟩
  · exact not_isTrivia_string _
  · exact scan_tripleQuote _

/-- Whether an empty string ends where a token begins is a matter of the token in front of it. -/
theorem endsEmptyString_iff (h : lex source = front ++ t :: back) :
    EndsEmptyString source (Text.size (front.flatMap (·.2))) ↔
      ∃ u ∈ front.getLast?, u.2 = ['"', '"'] := by
  have hpos : ∀ u ∈ lex source, 0 < u.2.size := fun u hu =>
    Nat.pos_of_ne_zero fun h0 => text_ne_nil_of_mem_lex hu (Text.size_eq_zero.mp h0)
  have htokens : tokenize source =
      place 0 front ++ place (0 + Text.size (front.flatMap (·.2))) (t :: back) := by
    rw [tokenize, h, place_append_size]
  constructor
  · rintro ⟨u, hu, htext, hstop⟩
    rw [htokens, List.mem_append] at hu
    rcases hu with hu | hu
    · obtain ⟨us, vs, hsplit, hspan⟩ := exists_append_of_mem_place hu
      refine ⟨(u.kind, u.text), ?_, htext⟩
      have hnil : vs = [] := by
        rcases List.eq_nil_or_concat vs with rfl | ⟨vs, v, rfl⟩
        · rfl
        · have hv := hpos v (by rw [h, hsplit]; simp)
          rw [hspan, hsplit] at hstop
          simp [Text.size_append] at hstop
          omega
      rw [hsplit, hnil, List.getLast?_append]
      rfl
    · obtain ⟨hstart, hbound, -⟩ := bounds_of_mem_place hu
      rw [hstop, htext, show Text.size ['"', '"'] = 2 from rfl] at hbound
      omega
  · rintro ⟨u, hu, htext⟩
    obtain ⟨us, rfl⟩ := List.getLast?_eq_some_iff.mp hu
    refine ⟨⟨u.1, ⟨0 + Text.size (us.flatMap (·.2)),
      0 + Text.size (us.flatMap (·.2)) + u.2.size⟩, u.2⟩, ?_, htext, ?_⟩
    · rw [htokens, place_append_size]
      simp [place]
    · simp [Text.size_append]

theorem map_requoted {quoted : Token} (h : lex source = front ++ t :: back)
    (hlex : lex (quotedText front t back) = front ++ (.string, Quoted.quote t.2) :: back)
    (hquoted : quoted = ⟨t.1, ⟨Text.size (front.flatMap (·.2)),
      Text.size (front.flatMap (·.2)) + t.2.size⟩, t.2⟩) (hkind : t.1.canBeString = true) :
    (tokenize source).map (·.requoted quoted) = tokenize (quotedText front t back) := by
  obtain rfl := hquoted
  have hsize := Quoted.size_le_quote t.2
  have hpos {u : TokenKind × Text} (hu : u ∈ lex source) : 0 < u.2.size :=
    Nat.pos_of_ne_zero fun h0 => text_ne_nil_of_mem_lex hu (Text.size_eq_zero.mp h0)
  have hpresent {o : Nat} {ts : List (TokenKind × Text)} (hts : ∀ u ∈ ts, u ∈ lex source)
      {v : Token} (hv : v ∈ place o ts) : 0 < v.text.size := by
    obtain ⟨us, vs, rfl, -⟩ := exists_append_of_mem_place hv
    exact hpos (hts _ (List.mem_append_right _ List.mem_cons_self))
  have ht := hpos (u := t) (by rw [h]; simp)
  rw [tokenize, tokenize, h, hlex]
  refine map_place_of_change (k := (Quoted.quote t.2).size - t.2.size) (fun v hv => ?_) ?_
    (Nat.add_sub_cancel' hsize).symm fun v hv => ?_
  · obtain ⟨-, hstop, hbound⟩ := bounds_of_mem_place hv
    have hlt := hpresent (fun u hu => by rw [h]; simp [hu]) hv
    rw [Token.requoted_of_not, grown, grown, if_pos, if_pos]
    · simp only
      omega
    · simp only
      omega
    · rw [Token.isQuoted, Bool.and_eq_false_iff, beq_eq_false_iff_ne]
      simp only
      exact .inl (by omega)
  · rw [Token.requoted_of, grown, grown, if_pos, if_neg]
    · simp only [Nat.zero_add, Nat.add_assoc, Nat.add_sub_cancel' hsize]
    · simp only [Nat.zero_add]
      omega
    · simp only [Nat.zero_add]
      omega
    · rw [Token.isQuoted, Bool.and_eq_true, beq_iff_eq]
      exact ⟨Nat.zero_add _, hkind⟩
  · obtain ⟨hstart, hstop, -⟩ := bounds_of_mem_place hv
    rw [Token.requoted_of_not, grown, grown, if_neg, if_neg]
    · rfl
    · simp only
      omega
    · simp only
      omega
    · rw [Token.isQuoted, Bool.and_eq_false_iff, beq_eq_false_iff_ne]
      simp only
      exact .inl (by omega)

end Lexer

/-! ## Fixes that quote -/

theorem exists_error_of_asksForQuotes {o : ValidationOptions} {source : Text} {d : Diagnostic}
    (hd : d ∈ check o source) (hq : d.AsksForQuotes source) :
    ∃ e ∈ (parse source).errors, Diagnostic.ofParseError e = d := by
  refine exists_error_of_mem_check hd ?_
  rcases hq with hq | ⟨hq, -⟩ <;> rw [hq] <;> rfl

theorem exists_quoting_fix {e : ParseError} {source : Text}
    (hq : (Diagnostic.ofParseError e).AsksForQuotes source)
    (hkey : e.expected = .key → isQuotable e.foundKind = true) :
    ∃ fix ∈ (Diagnostic.ofParseError e).fixes,
      fix.title = (Diagnostic.ofParseError e).quotingTitle ∧
        fix.edits = [⟨e.range, Quoted.quote e.foundText⟩] := by
  have hfixes : (Diagnostic.ofParseError e).fixes =
      e.fixes (Diagnostic.ofParseError e).category := rfl
  rw [hfixes, Diagnostic.quotingTitle]
  rcases hq with hq | ⟨hq, -⟩
  · rw [hq, if_neg nofun, ParseError.fixes]
    exact ⟨_, List.mem_append_right _ (List.mem_singleton.mpr rfl), rfl, rfl⟩
  · have hexpected := Classification.of_expectedKey hq
    have hquotable : e.isQuotableKey = true := by
      rw [ParseError.isQuotableKey, hexpected]
      exact hkey hexpected
    rw [hq, if_pos rfl, ParseError.fixes, if_pos hquotable]
    exact ⟨_, List.mem_singleton.mpr rfl, rfl, rfl⟩

namespace Parse

variable {source text : Text}

theorem lexemes_of_requoted {quoted : Token}
    (h : (tokenize source).map (·.requoted quoted) = tokenize text) :
    lexemes text = (lexemes source).map (quoting quoted).map := by
  rw [lexemes_eq_group, lexemes_eq_group, ← h, Lexemes.group_map Token.isTrivia_requoted]
  rfl

end Parse

/-! ## Significant tokens -/

section
variable {source text : Text} {quoted : Token}

theorem significant_of_requoted (h : (tokenize source).map (·.requoted quoted) = tokenize text) :
    significant text = (significant source).map (·.requoted quoted) := by
  rw [significant, significant, ← h, List.filter_map]
  congr 2
  funext t
  exact congrArg (!·) (Token.isTrivia_requoted t)

theorem Token.word_requoted_of_ne {t : Token} (h : t.span.start ≠ quoted.span.start) :
    (t.requoted quoted).word = t.word := by
  rw [requoted_of_not]
  · rfl
  · rw [isQuoted, beq_false_of_ne h]
    rfl

/-- Where the tokens of a text are those of another with one token quoted, only that token is a
string now, and means the same. -/
theorem exists_significant_of_requoted (hquoted : quoted ∈ significant source)
    (hkind : quoted.kind.canBeString = true)
    (h : (tokenize source).map (·.requoted quoted) = tokenize text) :
    ∃ front t back string, significant source = front ++ t :: back ∧ t.span = quoted.span ∧
      Quoted.unescape string = t.text ∧
      (significant text).map Token.word =
        front.map Token.word ++ (.string, string) :: back.map Token.word := by
  obtain ⟨front, back, hsplit⟩ := List.mem_iff_append.mp hquoted
  have hnodup := nodup_start_significant source
  rw [hsplit, List.map_append, List.map_cons] at hnodup
  obtain ⟨-, hback, happart⟩ := List.nodup_append.mp hnodup
  have hself : quoted.isQuoted quoted = true := by
    rw [Token.isQuoted, beq_self_eq_true, hkind]
    rfl
  have hword : (quoted.requoted quoted).word = (.string, Quoted.quote quoted.text) := by
    rw [Token.requoted_of hself]
    rfl
  have hkeep (ts : List Token) (hts : ∀ t ∈ ts, t.span.start ≠ quoted.span.start) :
      (ts.map (·.requoted quoted)).map Token.word = ts.map Token.word := by
    rw [List.map_map]
    exact List.map_congr_left fun t ht => Token.word_requoted_of_ne (hts t ht)
  refine ⟨front, quoted, back, Quoted.quote quoted.text, hsplit, rfl, Quoted.unescape_quote _, ?_⟩
  have hfront : ∀ t ∈ front, t.span.start ≠ quoted.span.start := fun t ht =>
    happart _ (List.mem_map_of_mem ht) _ List.mem_cons_self
  have hbehind : ∀ t ∈ back, t.span.start ≠ quoted.span.start := fun t ht heq =>
    (List.nodup_cons.mp hback).1 (heq ▸ List.mem_map_of_mem ht)
  rw [significant_of_requoted h, hsplit, List.map_append, List.map_append, List.map_cons,
    List.map_cons, hword, hkeep front hfront, hkeep back hbehind]

/-- If something else than a string comes where an empty string was, more than a token is
changed. -/
theorem not_quotesOnly {front back us : List (TokenKind × Text)} {t u : TokenKind × Text} {i : Nat}
    (h : Lexer.lex source = front ++ (.string, ['"', '"']) :: t :: back)
    (ht : t.1.isTrivia = false) (hu : u.1.isTrivia = false) (hstring : u.1 ≠ .string)
    (htext : Lexer.lex text = front ++ u :: us) {range : Span}
    (hrange : range.start =
      Text.size ((front ++ [(TokenKind.string, ['"', '"'])]).flatMap (·.2))) :
    ¬ QuotesOnly source text range i := by
  rintro ⟨⟨front', t', back', string, hsplit, hspan, -, hwords⟩, -⟩
  -- the tokens in front of the quoted one are those in front of the empty string, and it
  have hsource : Lexer.lex source = (front ++ [(.string, ['"', '"'])]) ++ t :: back := by
    rw [h, List.append_assoc]
    rfl
  obtain ⟨ts, token, us', hts, -, hstart, hfront, -⟩ := exists_significant_around hsource ht
  have hspan : t'.span.start = range.start := congrArg Span.start hspan
  obtain rfl := eq_of_significant_eq hsplit hts (hspan.trans (hrange.trans hstart.symm))
  have hquotes : (front ++ [(TokenKind.string, ['"', '"'])]).filter (!·.1.isTrivia) =
      front.filter (!·.1.isTrivia) ++ [(.string, ['"', '"'])] := List.filter_append ..
  rw [hfront, hquotes, map_word_significant, htext, List.filter_append,
    List.filter_cons_of_pos (by rw [hu]; rfl), List.append_assoc] at hwords
  have hhead := (List.cons.inj (List.append_cancel_left hwords)).1
  exact hstring (congrArg Prod.fst hhead)

end

/-! ## What quoting resolves -/

/-- A fix that quotes a token resolves its diagnostic and touches nothing else exactly if no empty
string ends where the token begins: with its two quotes the one that is put in front of the token
begins a multiline string. -/
theorem quoting_resolves_iff {o : ValidationOptions} {source : Text} {d : Diagnostic}
    (hclosed : ∀ t ∈ tokenize source, t.kind ≠ .unterminatedString)
    (hd : d ∈ check o source) (hq : d.AsksForQuotes source) :
    ∃ i e fix text, (parse source).errors[i]? = some e ∧ Diagnostic.ofParseError e = d ∧
      fix ∈ d.fixes ∧ fix.title = d.quotingTitle ∧ fix.apply source = .ok text ∧
      (QuotesOnly source text d.range i ↔ ¬ EndsEmptyString source d.range.start) := by
  obtain ⟨e, he, rfl⟩ := exists_error_of_asksForQuotes hd hq
  obtain ⟨x, hx, -, hopens, herror⟩ := Parse.exists_opens he hq
  obtain ⟨i, hi⟩ := List.mem_iff_getElem?.mp he
  have hl := Parse.firstLexeme_mem_of_mem_standings hx
  generalize hfirst : x.draft.firstLexeme = l at herror hl
  obtain ⟨expected, hexpected, rfl, hkind⟩ : ∃ expected,
      (expected = .value ∨ expected = .key) ∧ e = quotingError expected l ∧
        l.kind.canBeString = true := by
    rcases herror with ⟨rfl, hkind⟩ | ⟨rfl, hkind⟩
    · exact ⟨.value, .inl rfl, rfl, by rw [hkind]; rfl⟩
    · exact ⟨.key, .inr rfl, rfl, by rw [TokenKind.canBeString, hkind, Bool.or_true]⟩
  obtain ⟨fix, hfix, htitle, hedits⟩ := exists_quoting_fix hq fun hkey => by
    rcases herror with ⟨heq, -⟩ | ⟨-, hkind⟩
    · exact absurd ((congrArg ParseError.expected heq).symm.trans hkey) nofun
    · exact hkind
  -- the token among the tokens of the text
  have htoken := Parse.mem_tokenize_of_mem_lexemes hl
  have hsignificant : l.token ∈ significant source := by
    have hmap := List.mem_map_of_mem (f := Lexeme.token) hl
    rwa [Parse.lexemes, map_token_lexemes] at hmap
  have htrivia : l.token.kind.isTrivia = false := by
    simpa [significant, Token.isTrivia] using (List.mem_filter.mp hsignificant).2
  obtain ⟨front, back, hlex, hspan⟩ := Lexer.exists_append_of_mem_place htoken
  rw [Nat.zero_add] at hspan
  have hopen : ∀ u ∈ Lexer.lex source, u.1 ≠ .unterminatedString := by
    intro u hu
    rw [← map_place 0 (Lexer.lex source)] at hu
    obtain ⟨t, ht, rfl⟩ := List.mem_map.mp hu
    exact hclosed t ht
  have hrange : (quotingError expected l).range.start = Text.size (front.flatMap (·.2)) :=
    congrArg Span.start hspan
  refine ⟨i, _, fix, Lexer.quotedText front (l.token.kind, l.token.text) back, hi, rfl, hfix,
    htitle, ?_, ?_⟩
  · have hspliced := Lexer.spliced_quotedText hlex
    rw [← hspan] at hspliced
    rw [Fix.apply, hedits]
    exact applyEdits_of_spliced hspliced
  have hempty := Lexer.endsEmptyString_iff hlex
  rw [← hrange] at hempty
  show QuotesOnly source _ (quotingError expected l).range i ↔
    ¬ EndsEmptyString source (quotingError expected l).range.start
  rw [hempty]
  constructor
  · rintro honly ⟨u, hu, htext⟩
    obtain ⟨us, rfl⟩ := List.getLast?_eq_some_iff.mp hu
    obtain ⟨kind, quotes⟩ := u
    obtain rfl : quotes = ['"', '"'] := htext
    have hstring : kind = .string := by
      have hmem : (kind, ['"', '"']) ∈ Lexer.lex source := by rw [hlex]; simp
      exact Lexer.kind_of_quotes hmem (hopen _ hmem)
    subst hstring
    rw [List.append_assoc, List.cons_append, List.nil_append] at hlex
    obtain ⟨v, vs, hv, hne, hbroken⟩ := Lexer.lex_quotedText_of_empty hlex hopen
    exact not_quotesOnly hlex htrivia hv hne hbroken hrange honly
  · intro hnone
    have hlexed := Lexer.lex_quotedText hlex htrivia hopen fun u hu htext => hnone ⟨u, hu, htext⟩
    have hplace : l.token = ⟨l.token.kind, ⟨Text.size (front.flatMap (·.2)),
        Text.size (front.flatMap (·.2)) + l.token.text.size⟩, l.token.text⟩ := by rw [← hspan]
    have hmap := Lexer.map_requoted hlex hlexed hplace hkind
    have hrecast : Recast (quoting l.token) .file (Parse.drafts source)
        (Parse.drafts (Lexer.quotedText front (l.token.kind, l.token.text) back)) := by
      have hfits := Parse.fits_quoting hx hopens
      rw [show x.draft.firstToken = l.token from congrArg Lexeme.token hfirst] at hfits
      refine Parse.recast_drafts (keepsApart_quoting _) hfits fun ds' h => ?_
      rw [h.lexemesList_eq fun _ => rfl, Parse.lexemesList_drafts, Parse.lexemes_of_requoted hmap]
    exact ⟨exists_significant_of_requoted hsignificant hkind hmap,
      Parse.expectations_of_quoting hl hkind hexpected hi hrecast⟩

/-- Quotes around the word of an array. -/
theorem quoting_resolves_iff_in_array :
    let source : Text := ['[', 'a', ']']
    let d := Diagnostic.ofParseError ⟨.value, .identifier, ['a'], ⟨1, 2⟩⟩
    (∀ t ∈ tokenize source, t.kind ≠ .unterminatedString) ∧ d ∈ check .default source ∧
      d.AsksForQuotes source ∧
      ∃ i e fix text, (parse source).errors[i]? = some e ∧ Diagnostic.ofParseError e = d ∧
        fix ∈ d.fixes ∧ fix.title = d.quotingTitle ∧ fix.apply source = .ok text ∧
        (QuotesOnly source text d.range i ↔ ¬ EndsEmptyString source d.range.start) := by
  have hclosed : ∀ t ∈ tokenize ['[', 'a', ']'], t.kind ≠ .unterminatedString := by
    decide +kernel
  have hd : Diagnostic.ofParseError ⟨.value, .identifier, ['a'], ⟨1, 2⟩⟩ ∈
      check .default ['[', 'a', ']'] := by decide +kernel
  exact ⟨hclosed, hd, .inl rfl, quoting_resolves_iff hclosed hd (.inl rfl)⟩

/-- A word behind an empty string is not quoted by its fix: the text that the fix makes has two
significant tokens, where there were four. -/
theorem not_quotesOnly_behind_empty_string :
    let source : Text := ['[', '"', '"', 'a', 'b', 'c', ']']
    let text : Text := ['[', '"', '"', '"', 'a', 'b', 'c', '"', ']']
    let d := Diagnostic.ofParseError ⟨.value, .identifier, ['a', 'b', 'c'], ⟨3, 6⟩⟩
    (∀ t ∈ tokenize source, t.kind ≠ .unterminatedString) ∧ d ∈ check .default source ∧
      d.AsksForQuotes source ∧
      (∀ fix ∈ d.fixes, fix.title = d.quotingTitle → fix.apply source = .ok text) ∧
      ∀ i, ¬ QuotesOnly source text d.range i := by
  refine ⟨by decide +kernel, by decide +kernel, .inl rfl, ?_, fun i h => ?_⟩
  · intro fix hfix _
    obtain rfl := List.mem_singleton.mp hfix
    rfl
  · obtain ⟨front, t, back, string, hsplit, -, -, hwords⟩ := h.tokens
    have hfour : (significant ['[', '"', '"', 'a', 'b', 'c', ']']).length = 4 := by decide +kernel
    have htwo : (significant ['[', '"', '"', '"', 'a', 'b', 'c', '"', ']']).length = 2 := by
      decide +kernel
    have hlength := congrArg List.length hwords
    have hsource := congrArg List.length hsplit
    simp only [List.length_map, List.length_append, List.length_cons] at hlength hsource
    omega

end Maml
