import Maml.Proofs.ColonPlaces
import Maml.Proofs.EscapeFixes
import Maml.Proofs.Lookahead
import Maml.Proofs.Usable
import Maml.Proofs.Written

/-! Fixes that put colons in.

1. A colon behind a key is a token by itself, and all other tokens stay (`Lexer.lex_colon`).
2. So the key is that of a member, no mistake in front of the missing colon comes or goes, and the
   colon is missing no more (`colon_fix_completes`). -/
namespace Maml

open Draft

/-! ## Colons behind keys -/

namespace Lexer

/-- Keys begin with no part of a number and do not end with a backslash. -/
theorem ends_of_isKeyStart {source x : Text} {kind : TokenKind} {ts us : List (TokenKind × Text)}
    (h : lex source = ts ++ (kind, x) :: us) (hkind : kind.isKeyStart = true) :
    (∃ c cs, x = c :: cs ∧ c.isDigit = false ∧ c ≠ '+' ∧ c ≠ '-' ∧ c ≠ '.') ∧
      x.getLast? ≠ some '\\' := by
  have hkinds : ∀ kind : TokenKind, kind.isKeyStart = true →
      kind = .string ∨ kind = .identifier := by decide
  rcases hkinds kind hkind with rfl | rfl
  · have hself := (lex_cut h).2
    rw [List.flatMap_cons] at hself
    obtain ⟨body, rfl, hclosed⟩ := exists_string_of_lex hself
    obtain ⟨units, rfl, -⟩ := exists_units_of_closedBody hclosed
    refine ⟨⟨'"', units ++ ['"'], rfl, by decide⟩, ?_⟩
    rw [← List.cons_append, List.getLast?_concat]
    decide
  · exact ⟨first_of_name h, getLast?_of_name h⟩

/-- A colon behind a key is a token, and all others stay. -/
theorem lex_colon {source x : Text} {kind : TokenKind} {ts us : List (TokenKind × Text)}
    (h : lex source = ts ++ (kind, x) :: us) (hkind : kind.isKeyStart = true) :
    lex (ts.flatMap (·.2) ++ (x ++ ([':'] ++ us.flatMap (·.2)))) =
      ts ++ ([(kind, x), (.colon, [':'])] ++ us) := by
  obtain ⟨hfirst, hlast⟩ := ends_of_isKeyStart h hkind
  have hplain : Plain [':'] := ⟨List.forall_mem_singleton.mpr (by decide), fun c hc => by
    obtain rfl := Option.some.inj hc
    decide⟩
  have hself : lex x = [(kind, x)] := @lex_of_mem_lex source (kind, x) (by rw [h]; simp)
  have hkinds : ∀ kind : TokenKind, kind.isKeyStart = true →
      kind ≠ .unterminatedString ∧ kind.isTrivia = false := by decide
  obtain ⟨hopen, htrivia⟩ := hkinds kind hkind
  have hkey : lex (x ++ ([':'] ++ us.flatMap (·.2))) =
      lex x ++ lex ([':'] ++ us.flatMap (·.2)) := by
    refine lex_append_of_endsAt (parted_cons (by decide)) ?_ ?_
    · rw [hself]
      exact List.forall_mem_singleton.mpr hopen
    · intro t ht
      rw [hself] at ht
      obtain rfl := Option.some.inj ht
      exact endsAt_of_ne_quote htrivia fun c hc => by
        obtain rfl := Option.some.inj hc
        decide
  have hcolon : lex ([':'] ++ us.flatMap (·.2)) = (.colon, [':']) :: us := by
    have hlex := lex_of_scan (show scan ':' ([] ++ us.flatMap (·.2)) = (.colon, []) from rfl)
    rw [(@lex_cut source (ts ++ [(kind, x)]) us (by rw [h]; simp)).2] at hlex
    exact hlex
  rw [lex_insert h hplain hfirst hlast, hkey, hself, hcolon]
  rfl

end Lexer

/-! ## What the colon resolves -/

namespace Parse

theorem not_mem_rangesOf_colon {text : Text} {front back : List Lexeme} {key colon : Lexeme}
    (h : lexemes text = front ++ key :: colon :: back) (hc : colon.kind = .colon) :
    key.token.span ∉ (parse text).rangesOf .colon := by
  intro hmem
  obtain ⟨front', l, back', hsplit, hspan, hnext⟩ :=
    exists_of_mem_bareRanges ((rangesOf_colon_sublist text).subset hmem)
  have hl : key = l :=
    eq_of_start_eq (by rw [h]; simp) (by rw [hsplit]; simp) (congrArg Span.start hspan)
  have hnodup := nodup_lexemes text
  rw [h] at hnodup
  obtain ⟨-, hback, hfront⟩ := List.nodup_append.mp hnodup
  rw [h, ← hl] at hsplit
  obtain ⟨-, -, rfl⟩ := (List.append_cons_inj_of_notMem
    (fun hk => hfront key hk key List.mem_cons_self rfl) (List.nodup_cons.mp hback).1).mp hsplit
  exact hnext colon rfl hc

theorem index_eq_of_colon {source : Text} {front back : List ParseError} {e : ParseError} {i : Nat}
    (h : (parse source).errors = front ++ e :: back) (hi : (parse source).errors[i]? = some e)
    (hcolon : e.expected = .colon) : i = front.length := by
  have hnodup : (colonRanges (parse source).errors).Nodup := nodup_rangesOf_colon source
  have hself : colonRanges (e :: back) = e.range :: colonRanges back := by
    simp [colonRanges, hcolon]
  rw [h, colonRanges_append, hself] at hnodup
  have hmem {es : List ParseError} (he : e ∈ es) : e.range ∈ colonRanges es :=
    List.mem_map_of_mem (List.mem_filter.mpr ⟨he, by simp [hcolon]⟩)
  obtain ⟨-, hback, hfront⟩ := List.nodup_append.mp hnodup
  rw [h] at hi
  rcases Nat.lt_trichotomy i front.length with hlt | heq | hgt
  · rw [List.getElem?_append_left hlt] at hi
    exact absurd rfl (hfront _ (hmem (List.mem_of_getElem? hi)) _ List.mem_cons_self)
  · exact heq
  · obtain ⟨j, rfl⟩ := Nat.exists_eq_add_of_lt hgt
    rw [List.getElem?_append_right (by omega), Nat.add_assoc, Nat.add_sub_cancel_left,
      List.getElem?_cons_succ] at hi
    exact absurd (hmem (List.mem_of_getElem? hi)) (List.nodup_cons.mp hback).1

theorem exists_keyValue_site {text : Text} {key colon : Lexeme} {v : MemberValue}
    (h : ¬ EveryNode (· ≠ keyValue key (leaf colon) v) (drafts text)) :
    ∃ s ∈ (parse text).sites, ∃ member k, s.view? .keyValue = some member ∧
      View.KeyValue.key? member = some k ∧ k.range = key.token.span ∧ k.text = key.token.text := by
  rw [everyNode_iff 0 []] at h
  push Not at h
  obtain ⟨x, hx, hdraft⟩ := h
  have hplaced : Placed x.offset x.draft.lexemes := isPlaced_of_mem_standings hx
  rw [hdraft] at hplaced
  refine ⟨x.site, ?_, viewOf x.offset x.before .keyValue (plain .key (leaf key) [])
    (leaf colon :: v.value), viewOf x.offset x.before .key (leaf key) [], ?_, ?_,
    (Validation.name_range_viewOf x.before (placed_append.mp hplaced).1).2, ?_⟩
  · rw [sites_parse]
    exact List.mem_cons_of_mem _ (List.mem_map_of_mem hx)
  · rw [Standing.site, hdraft]
    rfl
  · rw [View.KeyValue.key?, first?_viewOf, viewsIn_cons, view?_plain]
    rfl
  · exact List.append_nil _

end Parse

/-! ## What the fix does -/

namespace Divided
variable {source text : Text} {key colon : Lexeme} {next : Token} {front back : List Lexeme}
  {ts us : List (TokenKind × Text)} {trailing : List Token}

/-- If a colon is written behind a key that has none, and can be read there, the text is the other
one with the member of the key completed. -/
theorem completesMember (h : Divided source front key back ts us trailing)
    (hkey : key.kind.isKeyStart = true)
    (hlex : Lexer.lex text = ts ++ ([key.token.word, (.colon, [':'])] ++ us))
    (hcolon : colon = ⟨[], ⟨.colon, ⟨key.token.span.stop, key.token.span.stop + 1⟩, [':']⟩⟩)
    (hexchanged : Exchanged 1 (HasColonPut 1 key colon next) (Parse.drafts source)
      (documentDrafts (.eof (source.size + 1))
        (front ++ ([key, colon] ++ back.map (Lexeme.shift 1)))))
    {i : Nat} (hi : (parse source).errors[i]? = some (colonError key next)) :
    CompletesMember source text key.token.span i := by
  have hkinds : ∀ kind : TokenKind, kind.isKeyStart = true →
      kind ≠ .unterminatedString ∧ isKey kind = true := by decide
  obtain ⟨hopen, hisKey⟩ := hkinds key.kind hkey
  have hkind : colon.kind = .colon := by
    rw [hcolon]
    rfl
  have hsize : Text.size ([key.token.word, (.colon, [':'])].flatMap (·.2)) =
      key.token.text.size + 1 := by
    rw [List.flatMap_cons, Text.size_append]
    rfl
  have hnew : [key, colon].flatMap Lexeme.tokens =
      key.trivia ++ Lexer.place key.token.span.start [key.token.word, (.colon, [':'])] := by
    rw [← h.tokens_append_place, hcolon]
    rfl
  have hvalid : ∀ m ∈ [key, colon], m.Valid := by
    intro m hm
    rcases List.mem_cons.mp hm with rfl | hm
    · exact h.valid m (by simp)
    · rw [List.mem_singleton.mp hm, hcolon]
      exact ⟨List.forall_mem_nil _, rfl⟩
  rw [← h.drafts_written hlex hsize hnew hvalid] at hexchanged
  have hlexemes : Parse.lexemes text = front ++ key :: colon :: back.map (Lexeme.shift 1) := by
    rw [Parse.lexemes, h.ofTokens_written hlex hsize hnew hvalid]
    rfl
  obtain ⟨value, note, hmember⟩ := hexchanged.exists_keyValue hisKey
  obtain ⟨s, hs, v, k, hv, hk, hrange, htext⟩ := Parse.exists_keyValue_site hmember
  obtain ⟨before, behind, behind', herrors, herrors'⟩ := hexchanged.exists_errors_colon hopen
  refine ⟨⟨s, hs, v, k, hv, hk, hrange, htext ▸ h.slice_eq⟩, ?_,
    Parse.not_mem_rangesOf_colon hlexemes hkind⟩
  obtain rfl := Parse.index_eq_of_colon herrors hi rfl
  rw [Parse.errors_parse, Parse.errors_parse, herrors, herrors', List.take_left]
  exact List.prefix_append _ _

end Divided

/-- The fix of a missing colon completes the member of its key, and what was told in front of it
stays. -/
theorem colon_fix_completes {source : Text} {e : ParseError} {i : Nat}
    (hi : (parse source).errors[i]? = some e) (he : e.expected = .colon) :
    ∃ fix text, (Diagnostic.ofParseError e).fixes = [fix] ∧ fix.title = "Insert ':'" ∧
      fix.apply source = .ok text ∧ CompletesMember source text e.range i := by
  obtain ⟨key, next, place, rfl, hkey, hmarked⟩ :=
    Parse.exists_bareKey (List.mem_of_getElem? hi) he
  have hisKey : ∀ kind : TokenKind, kind.isKeyStart = true → isKey kind = true := by decide
  let colon : Lexeme := ⟨[], ⟨.colon, ⟨key.token.span.stop, key.token.span.stop + 1⟩, [':']⟩⟩
  obtain ⟨front, back, hlexemes, hexchanged⟩ : ∃ front back,
      Parse.lexemes source = front ++ key :: back ∧
        Exchanged 1 (HasColonPut 1 key colon next) (Parse.drafts source)
          (documentDrafts ((Lexemes.ofTokens (tokenize source) source.size).eof.shift 1)
            (front ++ ([key, colon] ++ back.map (Lexeme.shift 1)))) :=
    exists_documentDrafts_colon rfl (hisKey _ hkey) rfl hmarked
  obtain ⟨ts, us, trailing, hdivided⟩ := Parse.exists_divided hlexemes
  rw [hdivided.input] at hexchanged
  refine ⟨⟨"Insert ':'", [.insert key.token.span.stop [':']]⟩, _, rfl, rfl, ?_,
    hdivided.completesMember hkey (Lexer.lex_colon hdivided.lex_eq hkey) rfl hexchanged hi⟩
  have happly := applyEdits_insert (ts.flatMap (·.2) ++ key.token.text) [':'] (us.flatMap (·.2))
  rw [List.append_assoc, ← hdivided.source_eq, Text.size_append, List.append_assoc] at happly
  rw [hdivided.span_eq]
  exact happly

/-- A key in front of a number. -/
theorem colon_fix_completes_in_object :
    let source : Text := ['{', 'a', ' ', '1', '}']
    let e : ParseError := ⟨.colon, .number, ['1'], ⟨1, 2⟩⟩
    ((parse source).errors[0]? = some e ∧ e.expected = .colon) ∧
      ∃ fix text, (Diagnostic.ofParseError e).fixes = [fix] ∧ fix.title = "Insert ':'" ∧
        fix.apply source = .ok text ∧ CompletesMember source text e.range 0 := by
  intro source e
  have hi : (parse source).errors[0]? = some e := by decide +kernel
  exact ⟨⟨hi, rfl⟩, colon_fix_completes hi rfl⟩

end Maml
