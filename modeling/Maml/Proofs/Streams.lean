import Maml.Token.Trail

/-! A stream hands out its tokens in order.

1. A question for trivia and a bump each do one of two things
   (`Trail.perform_nextTrivia_cases`, `Trail.perform_bump_cases`).
2. What is handed out and what is left are the tokens that went in. This is kept by every
   question (`Trail.Follows.perform`), bumps that fail included, and so by any number of
   them (`Trail.Follows.performAll`).
3. Asking for trivia until there is none ends, and nothing is in front of the next
   significant token then (`Trail.exists_drains`, `Trail.Drains.head?_rest`).
4. So lookahead, which passes over trivia, and handing out, which does not, agree at every
   point that questions lead to (`stream_hands_out_in_order`). -/
namespace Maml

/-- The end of the last significant token among tokens, or 0 if there is none. -/
def lastStop (tokens : List Token) : Nat :=
  ((tokens.filter (!·.isTrivia)).getLast?.map (·.span.stop)).getD 0

theorem lastStop_concat_of_isTrivia {token : Token} (h : token.isTrivia = true)
    (tokens : List Token) : lastStop (tokens ++ [token]) = lastStop tokens := by
  simp [lastStop, h]

theorem lastStop_concat {token : Token} (h : token.isTrivia = false) (tokens : List Token) :
    lastStop (tokens ++ [token]) = token.span.stop := by
  simp [lastStop, h]

namespace Trail

/-! ## One question -/

/-- A question for trivia hands out the next token, or changes nothing if there is no trivia in
front. -/
theorem perform_nextTrivia_cases (t : Trail) :
    (∃ token rest, t.stream.rest = token :: rest ∧ token.isTrivia = true ∧
      t.perform .nextTrivia = (.ok (some token), ⟨{ t.stream with rest }, t.handed ++ [token]⟩)) ∨
    (∀ u ∈ t.stream.rest.head?, u.isTrivia = false) ∧ t.perform .nextTrivia = (.ok none, t) := by
  cases hrest : t.stream.rest with
  | nil =>
    refine .inr ⟨by simp, ?_⟩
    simp [perform, TokenStream.nextTrivia?, hrest]
  | cons token rest =>
    cases htoken : token.isTrivia with
    | true =>
      refine .inl ⟨token, rest, rfl, htoken, ?_⟩
      simp [perform, TokenStream.nextTrivia?, hrest, htoken]
    | false =>
      refine .inr ⟨by simpa using htoken, ?_⟩
      simp [perform, TokenStream.nextTrivia?, hrest, htoken]

/-- A bump hands out the next token; at the end and in front of trivia it fails and changes
nothing. -/
theorem perform_bump_cases (t : Trail) :
    (∃ token rest, t.stream.rest = token :: rest ∧ token.isTrivia = false ∧
      t.perform .bump = (.ok (some token),
        ⟨{ t.stream with rest, lastEnd := token.span.stop }, t.handed ++ [token]⟩)) ∨
    (t.stream.rest = [] ∨ ∃ u ∈ t.stream.rest.head?, u.isTrivia = true) ∧
      ∃ fault, t.perform .bump = (.error fault, t) := by
  cases hrest : t.stream.rest with
  | nil =>
    refine .inr ⟨.inl rfl, .exhausted, ?_⟩
    simp [perform, TokenStream.bump, hrest]
  | cons token rest =>
    cases htoken : token.isTrivia with
    | true =>
      refine .inr ⟨.inr ⟨token, rfl, htoken⟩, .pendingTrivia token.kind, ?_⟩
      simp [perform, TokenStream.bump, hrest, htoken]
    | false =>
      refine .inl ⟨token, rest, rfl, htoken, ?_⟩
      simp [perform, TokenStream.bump, hrest, htoken]

/-! ## Any number of questions -/

section
variable {tokens : List Token} {stop : Nat} {t : Trail}

/-- Whether what a stream has handed out and what is left of it are the tokens that went in, and it
knows where they end and where the last significant one that it handed out did. -/
structure Follows (tokens : List Token) (stop : Nat) (t : Trail) : Prop where
  handed_append_rest : t.handed ++ t.stream.rest = tokens
  stop_eq : t.stream.stop = stop
  lastEnd_eq : t.stream.lastEnd = lastStop t.handed

theorem follows_start (tokens : List Token) (stop : Nat) :
    (start tokens stop).Follows tokens stop := ⟨rfl, rfl, rfl⟩

theorem Follows.handed_concat_append (h : t.Follows tokens stop) {token : Token} {rest : List Token}
    (hrest : t.stream.rest = token :: rest) : (t.handed ++ [token]) ++ rest = tokens := by
  rw [List.append_assoc, List.singleton_append, ← hrest, h.handed_append_rest]

/-- A question hands out the next token or nothing. -/
theorem Follows.perform (h : t.Follows tokens stop) (step : StreamStep) :
    (t.perform step).2.Follows tokens stop := by
  cases step with
  | peek => exact h
  | nth n => exact h
  | nextTrivia =>
    rcases t.perform_nextTrivia_cases with ⟨token, rest, hrest, htoken, hanswer⟩ | ⟨-, hanswer⟩
    · rw [hanswer]
      exact ⟨h.handed_concat_append hrest, h.stop_eq,
        h.lastEnd_eq.trans (lastStop_concat_of_isTrivia htoken _).symm⟩
    · rw [hanswer]
      exact h
  | bump =>
    rcases t.perform_bump_cases with ⟨token, rest, hrest, htoken, hanswer⟩ | ⟨-, fault, hanswer⟩
    · rw [hanswer]
      exact ⟨h.handed_concat_append hrest, h.stop_eq, (lastStop_concat htoken _).symm⟩
    · rw [hanswer]
      exact h

theorem Follows.performAll (h : t.Follows tokens stop) (steps : List StreamStep) :
    (t.performAll steps).Follows tokens stop := by
  induction steps generalizing t with
  | nil => exact h
  | cons step steps ih => exact ih (h.perform step)

theorem Follows.rest_eq (h : t.Follows tokens stop) :
    t.stream.rest = tokens.drop t.handed.length := by
  rw [← h.handed_append_rest, List.drop_left]

end

/-! ## Trivia -/

/-- Asking for trivia comes to an end. -/
theorem exists_drains (t : Trail) : ∃ t', t.Drains t' := by
  obtain ⟨⟨rest, stop, lastEnd⟩, handed⟩ := t
  induction rest generalizing handed with
  | nil => exact ⟨_, .done rfl⟩
  | cons u us ih =>
    rcases perform_nextTrivia_cases ⟨⟨u :: us, stop, lastEnd⟩, handed⟩ with
      ⟨token, rest, hrest, -, hanswer⟩ | ⟨-, hanswer⟩
    · obtain ⟨rfl, rfl⟩ := List.cons.inj hrest
      obtain ⟨t', ht'⟩ := ih (handed ++ [u])
      exact ⟨t', .more hanswer ht'⟩
    · exact ⟨_, .done hanswer⟩

theorem Drains.follows {tokens : List Token} {stop : Nat} {t t' : Trail} (hdrains : t.Drains t')
    (h : t.Follows tokens stop) : t'.Follows tokens stop := by
  induction hdrains with
  | done hanswer =>
    have hnext := h.perform .nextTrivia
    rwa [hanswer] at hnext
  | more hanswer _ ih =>
    have hnext := h.perform .nextTrivia
    rw [hanswer] at hnext
    exact ih hnext

/-- Where there is no more trivia, the next token is the one that was the next significant token
before. -/
theorem Drains.head?_rest {t t' : Trail} (h : t.Drains t') :
    t'.stream.rest.head? = (t.stream.rest.filter (!·.isTrivia)).head? ∧
      ∀ u ∈ t'.stream.rest.head?, u.isTrivia = false := by
  induction h with
  | @done t t' h =>
    rcases t.perform_nextTrivia_cases with ⟨token, rest, -, -, hanswer⟩ | ⟨hhead, hanswer⟩
    · rw [hanswer] at h
      simp at h
    · obtain rfl : t = t' := congrArg Prod.snd (hanswer.symm.trans h)
      refine ⟨?_, hhead⟩
      cases hrest : t.stream.rest with
      | nil => rfl
      | cons u us =>
        have hu : u.isTrivia = false := hhead u (by rw [hrest]; rfl)
        rw [List.filter_cons, if_pos (by simp [hu]), List.head?_cons, List.head?_cons]
  | @more t token t' t'' h hmore ih =>
    rcases t.perform_nextTrivia_cases with ⟨token', rest, hrest, htoken, hanswer⟩ | ⟨-, hanswer⟩
    · obtain rfl : _ = t' := congrArg Prod.snd (hanswer.symm.trans h)
      rw [hrest, List.filter_cons, if_neg (by simp [htoken])]
      exact ih
    · rw [hanswer] at h
      simp at h

/-- A bump behind all trivia answers what a look ahead did in front of it, if there is anything
left. -/
theorem Drains.perform_bump {t t' : Trail} (h : t.Drains t') (hrest : t'.stream.rest ≠ []) :
    (t'.perform .bump).1 = (t.perform .peek).1 := by
  obtain ⟨hhead, hsignificant⟩ := h.head?_rest
  rcases t'.perform_bump_cases with
    ⟨token, rest, htoken, -, hanswer⟩ | ⟨hnone | ⟨u, hu, htrivia⟩, -⟩
  · rw [hanswer]
    rw [htoken, List.head?_cons, List.head?_eq_getElem?] at hhead
    simp only [perform, TokenStream.peek, TokenStream.nth, ← hhead, Option.getD_some]
  · exact absurd hnone hrest
  · exact absurd htrivia (by simp [hsignificant u hu])

end Trail

open Trail

/-- Whatever is asked of a stream of tokens that end at an offset, bumps that fail included, it has
handed out a beginning of them. Looking ahead finds the significant tokens of what is left, and then
the end of the input. The stream knows the end of the last significant token that it handed out. A
bump fails exactly at the end and in front of trivia, and then it changes nothing. Behind all trivia
in front, which can always be handed out, a bump hands out the token that was seen ahead of it,
unless nothing is left. -/
theorem stream_hands_out_in_order (tokens : List Token) (stop : Nat) (steps : List StreamStep) :
    let t := (start tokens stop).performAll steps
    let rest := tokens.drop t.handed.length
    t.handed <+: tokens ∧
      (∀ n, t.perform (.nth n) =
        (.ok (some ((rest.filter (!·.isTrivia))[n]?.getD (.eof stop))), t)) ∧
      t.perform .peek = t.perform (.nth 0) ∧
      t.stream.lastEnd = lastStop t.handed ∧
      ((∃ fault, (t.perform .bump).1 = .error fault) ↔
        rest = [] ∨ ∃ u ∈ rest.head?, u.isTrivia = true) ∧
      (∀ fault, (t.perform .bump).1 = .error fault → (t.perform .bump).2 = t) ∧
      (∃ t', t.Drains t') ∧
      ∀ t', t.Drains t' → t'.handed ≠ tokens → (t'.perform .bump).1 = (t.perform .peek).1 := by
  intro t rest
  have hfollows : t.Follows tokens stop := (follows_start tokens stop).performAll steps
  have hrest : rest = t.stream.rest := hfollows.rest_eq.symm
  refine ⟨⟨_, hfollows.handed_append_rest⟩, fun n => ?_, rfl, hfollows.lastEnd_eq, ?_, ?_,
    exists_drains t, fun t' ht' hleft => ?_⟩
  · rw [hrest, ← hfollows.stop_eq]
    rfl
  · rw [hrest]
    rcases t.perform_bump_cases with ⟨token, more, hmore, htoken, hanswer⟩ | ⟨hnone, fault, hanswer⟩
    · simp [hanswer, hmore, htoken]
    · exact iff_of_true ⟨fault, by rw [hanswer]⟩ hnone
  · intro fault hfault
    rcases t.perform_bump_cases with ⟨token, more, -, -, hanswer⟩ | ⟨-, fault', hanswer⟩
    · rw [hanswer] at hfault
      simp at hfault
    · rw [hanswer]
  · apply ht'.perform_bump
    intro hnil
    have htokens := (ht'.follows hfollows).handed_append_rest
    rw [hnil, List.append_nil] at htokens
    exact hleft htokens

/-- In a number between two blanks, a bump in front of the first blank fails and changes nothing.
Behind the blank a bump hands out the number, as was seen ahead, although it had failed before. -/
theorem stream_hands_out_in_order_behind_blank :
    let blank (o : Nat) : Token := ⟨.whitespace, ⟨o, o + 1⟩, [' ']⟩
    let one : Token := ⟨.number, ⟨1, 2⟩, ['1']⟩
    let t := (start [blank 0, one, blank 2] 3).performAll [.bump]
    let t' := (start [blank 0, one, blank 2] 3).performAll [.bump, .nextTrivia]
    (t.perform .bump).1 = .error (.pendingTrivia .whitespace) ∧ (t.perform .bump).2 = t ∧
      t.Drains t' ∧ t'.handed ≠ [blank 0, one, blank 2] ∧
      (t'.perform .bump).1 = (t.perform .peek).1 := by
  intro blank one t t'
  obtain ⟨-, -, -, -, -, hunchanged, -, hbump⟩ :=
    stream_hands_out_in_order [blank 0, one, blank 2] 3 [.bump]
  have hdrains : t.Drains t' := .more rfl (.done rfl)
  exact ⟨rfl, hunchanged _ rfl, hdrains, by decide, hbump t' hdrains (by decide)⟩

end Maml
