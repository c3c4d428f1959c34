import Maml.Proofs.Descent
import Maml.Proofs.Ranges
import Mathlib.Data.List.TakeWhile

/-! A reader reads everything.

1. A reader makes the drafts of a document and ends with one tree
   (`takes_document`, `runs_document`).
2. So what comes of reading a stream is exactly what `TokenStream.parse` answers: a
   reader never takes a token that it may not have, never closes a node that is
   not open and never counts below zero (`reads_iff`).
3. The mistakes in tokens in order have ranges in order, so such tokens are read
   (`parseTokens_eq_ok_of_inOrder`); nothing is lost on the way (`reading_total_lossless`). -/
namespace Maml.Reader

open Draft

variable {z : Ending} {p : Point} {rest : List Lexeme}

/-! ## Documents -/

theorem takes_rest (ls : List Lexeme) (hp : p.lexemes = ls) :
    Takes z p [.rest] (ls.map leaf) [] [] := by
  induction ls generalizing p with
  | nil =>
    have hnil : Takes z p [] [] [] [] := by simpa [hp] using takes_nil z p
    apply takes_job [] ?_ hnil
    intro hv _ _ _
    rw [perform, next_reader hv, hp, nextOf, z.kind_eof]
    rfl
  | cons l ls ih =>
    have hrest := (takes_bump (z := z) hp).append (ih (p := p.behind [leaf l] ls) rfl)
    apply takes_job (Job.bump ++ [.rest]) ?_ hrest
    intro hv _ _ _
    have hne : ¬ l.token.kind = .eof := (hv l (by rw [hp]; exact List.mem_cons_self)).2
    rw [perform, next_of_cons hv hp, if_neg (by simpa using hne)]

theorem takes_trailing (ls : List Lexeme) (hp : p.lexemes = ls) :
    Takes z p [.trailing] (trailing ls) (errorsList (trailing ls)) [] := by
  cases ls with
  | nil =>
    have hnil : Takes z p [] [] [] [] := by simpa [hp] using takes_nil z p
    apply takes_job [] ?_ hnil
    intro hv _ _ _
    rw [perform, next_reader hv, hp, nextOf, z.kind_eof]
    rfl
  | cons l ls =>
    have hrest := takes_rest (z := z) (p := { p with bare := true }) (l :: ls) hp
    have hnode := takes_stretch .eof l.token (takes_node (p := p) .error none
      (unexpected .eof l.token ⟨l.token.span.start, (lastTokenFrom l.token (ls.map leaf)).span.stop⟩)
      hrest)
    have herrors : errorsList (trailing (l :: ls)) = [.ofToken .eof l.token
        ⟨l.token.span.start, (lastTokenFrom l.token (ls.map leaf)).span.stop⟩] := by
      simp [trailing, trailingError, unexpected]
    rw [herrors]
    apply takes_job (Job.node .error [.rest] ++ [.stretch .eof l.token]) ?_ hnode
    intro hv _ _ _
    have hne : ¬ l.token.kind = .eof := (hv l (by rw [hp]; exact List.mem_cons_self)).2
    rw [perform, next_of_cons hv hp, if_neg (by simpa using hne)]

theorem takes_document (ls : List Lexeme) (hp : p.lexemes = ls) (he : p.enclosing = []) :
    Takes z p [.documentValue, .trailing] (documentDrafts z.eof ls)
      (errorsList (documentDrafts z.eof ls)) [] := by
  cases ls with
  | nil =>
    have hnil : Takes z p [] [] [] [] := by simpa [hp] using takes_nil z p
    have hvalue : Takes z p [.documentValue] [] [] [] := by
      apply takes_job [] ?_ hnil
      intro hv _ _ _
      rw [perform, next_reader hv, hp, nextOf, z.kind_eof]
      rfl
    exact hvalue.append_drafts (takes_trailing [] rfl)
  | cons l ls =>
    by_cases hbegins : beginsDocument l.token.kind = true
    · have hdrafts : documentDrafts z.eof (l :: ls) = (pieceAt z.eof [] l ls).1.asValue ::
          trailing (pieceAt z.eof [] l ls).2 := if_pos hbegins
      have hvalue : Takes z p [.value] [(pieceAt z.eof [] l ls).1.asValue]
          (errorsList [(pieceAt z.eof [] l ls).1.asValue]) (pieceAt z.eof [] l ls).2 := by
        cases ho : l.kind.opens? with
        | none =>
          -- a plus sign begins no document, so no number is taken along
          rw [pieceAt_of_opens?_eq_none ho]
          exact takes_single hp ho (isSignedNumber_of_kind hbegins rfl _)
        | some c =>
          have htakes := takesContainers z (ls.length + 1) p c l ls hp (Nat.lt_succ_self _) ho
          rw [he] at htakes
          obtain ⟨first, hfirst⟩ := exists_plain_pieceAt z.eof [] ls ho
          rw [hfirst] at htakes ⊢
          exact htakes
      rw [hdrafts]
      have hdocument : Takes z p [.documentValue] _ _ _ := takes_job [.value] (fun hv _ _ _ => by
        rw [perform, next_of_cons hv hp, if_pos hbegins]) hvalue
      exact hdocument.append_drafts (takes_trailing _ rfl)
    · have hdrafts : documentDrafts z.eof (l :: ls) = trailing (l :: ls) := if_neg hbegins
      rw [hdrafts]
      have hdocument : Takes z p [.documentValue] [] [] p.lexemes :=
        takes_job [] (fun hv _ _ _ => by
          rw [perform, next_of_cons hv hp, if_neg hbegins]) (takes_nil z p)
      exact hdocument.append_drafts (takes_trailing (p := p.behind [] p.lexemes) (l :: ls) hp)

/-! ## Runs -/

theorem refused_bind {α β : Type} (es : List ParseError) (out : Except Fault α)
    (f : α → Except Fault β) : (refused es out).bind f = refused es (out.bind f) := by
  unfold refused
  split <;> rfl

/-- A reader that has done nothing yet makes the tree of the document and notes its mistakes, unless
one of them is refused. -/
theorem runs_document (z : Ending) (ls : List Lexeme) (lastEnd : Nat)
    (hv : ∀ l ∈ ls, l.Valid ∧ l.kind ≠ .eof) :
    ∃ r, Runs [.document] (ofStream ⟨ls.flatMap Lexeme.tokens ++ (z.trailing ++ z.beyond), z.stop,
        lastEnd⟩) (refused (errorsList (documentDrafts z.eof ls)) (.ok r)) ∧
      r.result = .ok (Parse.ofLexemes ⟨ls, z.trailing, z.eof⟩) := by
  let p : Point := ⟨[], lastEnd, false, ls⟩
  have htokens : p.tokens = ls.flatMap Lexeme.tokens := by
    cases ls <;> rfl
  -- the node of the file is opened first, and closed once the trivia at the end is in it
  obtain ⟨_, hrun⟩ := takes_document (z := z) (p := p) ls rfl rfl
  have hbeyond : ∀ t ∈ z.beyond.head?, t.isTrivia = false := by
    intro t ht
    rw [Token.isTrivia, z.kind_of_mem t ht]
    rfl
  let parts := trees (documentDrafts z.eof ls) ++ z.trailing.map tokenLeaf
  refine ⟨⟨⟨z.beyond, z.stop, endFrom lastEnd (documentDrafts z.eof ls)⟩, [],
    [.node (.node .file) parts], errorsList (documentDrafts z.eof ls), []⟩, ?_, rfl⟩
  have htrees : p.trees (documentDrafts z.eof ls) = trees (documentDrafts z.eof ls) := by
    cases documentDrafts z.eof ls <;> rfl
  have hfinish : Runs [.trivia, .finish] ((p.behind (documentDrafts z.eof ls) []).reader z
      [(.file, p.trees (documentDrafts z.eof ls))] [] (errorsList (documentDrafts z.eof ls)))
      (.ok ⟨⟨z.beyond, z.stop, endFrom lastEnd (documentDrafts z.eof ls)⟩, [],
        [.node (.node .file) parts], errorsList (documentDrafts z.eof ls), []⟩) := by
    rw [htrees]
    exact runs_trivia z.trailing z.isTrivia_of_mem hbeyond (.step _ [] rfl .done)
  have hbody := hrun hv .file [] [] [] [] [.trivia, .finish] _ hfinish
  rw [Point.reader, htokens] at hbody
  exact .step _ [.start .file, .documentValue, .trailing, .trivia, .finish] rfl
    (.step _ [] rfl hbody)

/-! ## Streams -/

def endingOf (tokens : List Token) (stop : Nat) : Ending where
  trailing := (Lexemes.ofTokens tokens stop).trailing
  beyond := tokens.dropWhile (·.kind != .eof)
  stop := stop
  isTrivia_of_mem := isTrivia_of_mem_trailing _
  kind_of_mem := by
    intro t ht
    have h := List.head?_dropWhile_not (·.kind != TokenKind.eof) tokens
    rw [ht] at h
    simpa using h

theorem eof_endingOf (tokens : List Token) (stop : Nat) :
    (endingOf tokens stop).eof = (Lexemes.ofTokens tokens stop).eof := by
  have h := tokens.find?_eq_head?_dropWhile_not (·.kind == .eof)
  rw [Lexemes.ofTokens, h]
  rfl

theorem valid_ofTokens (tokens : List Token) (stop : Nat) :
    ∀ l ∈ (Lexemes.ofTokens tokens stop).lexemes, l.Valid ∧ l.kind ≠ .eof := by
  intro l hl
  refine ⟨valid_group _ l hl, ?_⟩
  have hmem : l.token ∈ tokens.takeWhile (·.kind != .eof) := by
    rw [← Lexemes.tokens_group (tokens.takeWhile (·.kind != .eof))]
    refine List.mem_append_left _ (List.mem_flatMap.mpr ⟨l, hl, ?_⟩)
    exact List.mem_append_right _ List.mem_cons_self
  have hkind : l.token.kind ≠ .eof := by simpa using List.mem_takeWhile_imp hmem
  exact hkind

theorem tokens_endingOf (tokens : List Token) (stop : Nat) :
    (Lexemes.ofTokens tokens stop).lexemes.flatMap Lexeme.tokens ++
      ((endingOf tokens stop).trailing ++ (endingOf tokens stop).beyond) = tokens := by
  have htaken := Lexemes.tokens_group (tokens.takeWhile (·.kind != .eof))
  have hsplit := tokens.takeWhile_append_dropWhile (p := (·.kind != .eof))
  calc
    _ = ((Lexemes.ofTokens tokens stop).lexemes.flatMap Lexeme.tokens ++
        (Lexemes.ofTokens tokens stop).trailing) ++ tokens.dropWhile (·.kind != .eof) :=
      (List.append_assoc _ _ _).symm
    _ = tokens.takeWhile (·.kind != .eof) ++ tokens.dropWhile (·.kind != .eof) :=
      congrArg (· ++ _) htaken
    _ = tokens := hsplit

theorem parseTokens_eq_refused (tokens : List Token) (stop : Nat) :
    parseTokens tokens stop = refused (Parse.ofLexemes (.ofTokens tokens stop)).errors
      (.ok (Parse.ofLexemes (.ofTokens tokens stop))) := rfl

/-- What comes of reading a stream is what parsing it answers. -/
theorem reads_iff (s : TokenStream) (out : Except Fault Parse) : Reads s out ↔ s.parse = out := by
  obtain ⟨r, hrun, hresult⟩ := runs_document (endingOf s.rest s.stop)
    (Lexemes.ofTokens s.rest s.stop).lexemes s.lastEnd (valid_ofTokens s.rest s.stop)
  rw [tokens_endingOf, eof_endingOf] at hrun
  rw [eof_endingOf] at hresult
  have hout : (refused (errorsList (documentDrafts (Lexemes.ofTokens s.rest s.stop).eof
      (Lexemes.ofTokens s.rest s.stop).lexemes)) (.ok r)).bind result = s.parse := by
    rw [refused_bind, TokenStream.parse, parseTokens_eq_refused]
    exact congrArg (refused _) hresult
  constructor
  · -- whatever came of it is what comes of the run above
    rintro ⟨end', hrun', rfl⟩
    rw [hrun'.unique hrun]
    exact hout.symm
  · rintro rfl
    exact ⟨_, hrun, hout.symm⟩

/-! ## Reading is total -/

/-- Tokens in order up to the end of the input are read. -/
theorem parseTokens_eq_ok_of_inOrder {tokens : List Token} (stop : Nat)
    (h : InOrder ((tokens.takeWhile (·.kind != .eof)).filter (!·.isTrivia))) :
    parseTokens tokens stop = .ok (Parse.ofLexemes (.ofTokens tokens stop)) := by
  rw [← Lexemes.map_token_group] at h
  have hnone : ((Parse.ofLexemes (.ofTokens tokens stop)).errors.find?
      fun err => !decide err.range.Ordered) = none := by
    rw [List.find?_eq_none]
    intro err herr
    have hordered : err.range.Ordered := (within_of_mem_errors h herr).ordered h
    simpa using hordered
  rw [parseTokens, hnone]

theorem inOrder_lexemes_tokenize (source : Text) :
    InOrder (((tokenize source).takeWhile (·.kind != .eof)).filter (!·.isTrivia)) := by
  rw [takeWhile_tokenize]
  exact (inOrder_of_tiled (tiled_tokenize source)).1

theorem ordered_of_mem_errors_parse {source : Text} {err : ParseError}
    (h : err ∈ (parse source).errors) : err.range.Ordered ∧ err.range.stop ≤ source.size := by
  have horder := inOrder_lexemes_tokenize source
  rw [← Lexemes.map_token_group] at horder
  have hwithin := within_of_mem_errors horder h
  obtain ⟨l, hl, hstop⟩ := hwithin.exists_stop
  have hmem : l.token ∈ tokenize source := by
    have hl' : l.token ∈ ((tokenize source).takeWhile (·.kind != .eof)).filter (!·.isTrivia) := by
      rw [← Lexemes.map_token_group]
      exact List.mem_map_of_mem hl
    exact List.takeWhile_sublist _ |>.mem (List.mem_filter.mp hl').1
  rw [hstop]
  exact ⟨hwithin.ordered horder, (ordered_of_mem_tokenize hmem).2⟩

theorem parse_ofText (source : Text) : (TokenStream.ofText source).parse = .ok (parse source) :=
  parseTokens_eq_ok_of_inOrder source.size (inOrder_lexemes_tokenize source)

theorem leaves_of_parseTokens_eq_ok {tokens : List Token} {stop : Nat} {p : Parse}
    (h : parseTokens tokens stop = .ok p) :
    p.tree.leaves = (tokens.takeWhile (·.kind != .eof)).map leafOf := by
  unfold parseTokens at h
  simp only at h
  split at h
  · simp at h
  · obtain rfl : Parse.ofLexemes (.ofTokens tokens stop) = p := by simpa using h
    rw [leaves_ofLexemes]
    exact congrArg (List.map leafOf) (Lexemes.tokens_group _)

/-- Reading any text ends, without a fault, and with a tree that has the tokens of the text as its
leaves; no offset in it is past the end of the text. What comes of reading given tokens has the
tokens in front of the end of the input as its leaves, and something comes of it if the significant
ones among these are in order. -/
theorem reading_total_lossless :
    (∀ source : Text,
      (∀ out, Reads (.ofText source) out ↔ out = .ok (parse source)) ∧
      (parse source).tree.leaves = (tokenize source).map leafOf ∧
      (parse source).tree.text = source ∧
      (∀ t ∈ tokenize source, t.span.Ordered ∧ t.span.stop ≤ source.size) ∧
      ∀ err ∈ (parse source).errors, err.range.Ordered ∧ err.range.stop ≤ source.size) ∧
    ∀ (tokens : List Token) (stop : Nat),
      (∀ out, Reads (.ofTokens tokens stop) out ↔ out = parseTokens tokens stop) ∧
      (∀ p, Reads (.ofTokens tokens stop) (.ok p) →
        p.tree.leaves = (tokens.takeWhile (·.kind != .eof)).map leafOf) ∧
      (InOrder ((tokens.takeWhile (·.kind != .eof)).filter (!·.isTrivia)) →
        ∃ p, Reads (.ofTokens tokens stop) (.ok p)) := by
  have hreads (s : TokenStream) (out : Except Fault Parse) : Reads s out ↔ out = s.parse := by
    rw [reads_iff, eq_comm]
  refine ⟨fun source => ⟨fun out => ?_, leaves_tree_parse source, text_tree_parse source,
    fun t ht => ordered_of_mem_tokenize ht, fun err herr => ordered_of_mem_errors_parse herr⟩,
    fun tokens stop => ⟨hreads _, fun p hp => ?_, fun h => ?_⟩⟩
  · rw [hreads, parse_ofText]
  · exact leaves_of_parseTokens_eq_ok ((hreads _ _).mp hp).symm
  · exact ⟨_, (hreads _ _).mpr (parseTokens_eq_ok_of_inOrder stop h).symm⟩

/-- A list of tokens that goes on behind the end of its input, where nothing is in order. -/
def cutTokens : List Token :=
  [⟨.lBrace, ⟨0, 1⟩, ['{']⟩, ⟨.whitespace, ⟨8, 9⟩, [' ']⟩, ⟨.comma, ⟨4, 5⟩, [',']⟩,
    ⟨.eof, ⟨3, 3⟩, []⟩, ⟨.rBrace, ⟨2, 3⟩, ['}']⟩]

theorem reading_cutTokens :
    InOrder ((cutTokens.takeWhile (·.kind != .eof)).filter (!·.isTrivia)) ∧
      ∃ p, Reads (.ofTokens cutTokens 7) (.ok p) ∧
        p.tree.leaves = (cutTokens.take 3).map leafOf := by
  have horder : InOrder ((cutTokens.takeWhile (·.kind != .eof)).filter (!·.isTrivia)) := by decide
  obtain ⟨_, hleaves, hok⟩ := reading_total_lossless.2 cutTokens 7
  obtain ⟨p, hp⟩ := hok horder
  exact ⟨horder, p, hp, hleaves p hp⟩

end Maml.Reader
