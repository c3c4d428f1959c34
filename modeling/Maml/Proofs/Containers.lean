import Maml.Proofs.Ahead

/-! A reader takes scalars, and containers whose lists it takes.

1. A token that opens nothing is a value or an invalid one, a plus sign takes the number
   behind it along (`takes_single`, `takes_signed`).
2. Where the nesting is too deep, the brackets are counted and everything up to the
   balancing one is taken as it is (`takes_balanceOn`, `takes_tooDeep`).
3. A container takes its opener, its contents and its closer, and notes a closer that is
   not there (`takes_container`, `takes_close`). What is in it is a hypothesis here, as
   its elements may be containers again. -/
namespace Maml.Reader

open Draft

variable {z : Ending} {p : Point} {nodes : List (NodeKind × List Tree)} {roots : List Tree}
  {errors : List ParseError} {ds : List Draft} {rest : List Lexeme}

/-! ## Values -/

theorem opens?_of_isScalar : ∀ {kind : TokenKind}, kind.isScalar = true → kind.opens? = none := by
  decide

theorem takes_valueBody {d : Draft} {es : List ParseError}
    (h : Takes z { p with bare := true } [.valueBody] [d] es rest) :
    Takes z p [.value] [plain .value d []] es rest :=
  takes_job _ (fun _ _ _ _ => rfl) (takes_node .value none none h)

theorem takes_scalar {l : Lexeme} {ls : List Lexeme} (hp : p.lexemes = l :: ls)
    (hl : l.kind.isScalar = true) : Takes z p [.value] [plain .value (leaf l) []] [] ls := by
  apply takes_valueBody (takes_job _ ?_ (takes_bump hp))
  intro hv nodes roots errors
  have hl : l.token.kind.isScalar = true := hl
  simp only [perform, next_of_cons hv hp, opens?_of_isScalar hl, hl, if_true]

theorem takes_invalidBody {l : Lexeme} {ls : List Lexeme} {d : Draft} {es : List ParseError}
    (hp : p.lexemes = l :: ls) (ho : l.kind.opens? = none) (hl : ¬ l.kind.isScalar = true)
    (h : Takes z { p with bare := true } [.invalidValue] [d] es rest) :
    Takes z p [.value] [plain .value d []] es rest := by
  apply takes_valueBody (takes_job _ ?_ h)
  intro hv nodes roots errors
  have ho : l.token.kind.opens? = none := ho
  have hl : ¬ l.token.kind.isScalar = true := hl
  simp only [perform, next_of_cons hv hp, ho, hl]
  rfl

theorem takes_single {l : Lexeme} {ls : List Lexeme} (hp : p.lexemes = l :: ls)
    (ho : l.kind.opens? = none)
    (hsigned : isSignedNumber l.token (nextOf z.eof ls) = false) :
    Takes z p [.value] [single l] (errorsList [single l]) ls := by
  by_cases hl : l.kind.isScalar = true
  · rw [single, if_pos hl]
    exact takes_scalar hp hl
  · rw [single, if_neg hl]
    apply takes_invalidBody hp ho hl (takes_report (Job.node .invalidValue Job.bump)
      ?_ (takes_node .invalidValue _ none (takes_bump hp)))
    intro hv nodes roots errors
    simp only [perform, next_of_cons hv hp, second_reader hv hp, hsigned]
    rfl

theorem takes_signed {plus number : Lexeme} {ls : List Lexeme}
    (hp : p.lexemes = plus :: number :: ls)
    (hsigned : isSignedNumber plus.token number.token = true) :
    Takes z p [.value] [signed plus number] (errorsList [signed plus number]) ls := by
  have hplus : plus.kind = .badCharacter := (isSignedNumber_eq_true.mp hsigned).1
  have hnumber : Takes z (({ p with bare := true } : Point).behind [leaf plus] (number :: ls))
      Job.bump [leaf number] [] ls := takes_bump rfl
  have hbody := (takes_bump (p := { p with bare := true }) hp).append hnumber
  apply takes_invalidBody hp (by rw [hplus]; rfl) (by rw [hplus]; decide)
    (takes_report (Job.node .invalidValue (Job.bump ++ Job.bump))
      ?_ (takes_node .invalidValue _ none hbody))
  intro hv nodes roots errors
  have hsigned : isSignedNumber plus.token (nextOf z.eof (number :: ls)) = true := hsigned
  simp only [perform, next_of_cons hv hp, second_reader hv hp, hsigned]
  rfl

/-! ## Containers nested too deep -/

/-- Tokens are taken up to the bracket that balances those that are open, and no bracket is closed
that was not opened. -/
theorem takes_balanceOn (depth : Nat) (ls : List Lexeme) (hp : p.lexemes = ls) :
    Takes z p [.balanceOn depth] ((balancedRun depth ls).1.map leaf) []
      (balancedRun depth ls).2 := by
  induction ls generalizing depth p with
  | nil =>
    have hnil : Takes z p [] [] [] [] := by simpa [hp] using takes_nil z p
    by_cases hdepth : depth = 0
    · apply takes_job [] ?_ hnil
      intro _ _ _ _
      simp only [perform, hdepth, if_true]
    · refine takes_job [.balance depth] (fun _ _ _ _ => ?_)
        (takes_job [] (fun hv _ _ _ => ?_) hnil)
      · simp only [perform, hdepth, if_false]
      · have hend : (nextOf z.eof p.lexemes).kind = .eof := by rw [hp]; exact z.kind_eof
        simp [perform, next_reader hv, hend]
  | cons l ls ih =>
    by_cases hdepth : depth = 0
    · have hrun : balancedRun depth (l :: ls) = ([], l :: ls) := by simp [balancedRun, hdepth]
      rw [hrun, ← hp]
      apply takes_job [] ?_ (takes_nil z p)
      intro _ _ _ _
      simp only [perform, hdepth, if_true]
    · have hrun : balancedRun depth (l :: ls) = (l :: (balancedRun (depthAfter depth l.kind) ls).1,
          (balancedRun (depthAfter depth l.kind) ls).2) := by
        simp [balancedRun, hdepth]
      rw [hrun]
      have hrest := ih (p := p.behind [leaf l] ls) (depthAfter depth l.kind) rfl
      refine takes_job [.balance depth] (fun _ _ _ _ => ?_)
        (takes_job (Job.bump ++ [.balanceOn (depthAfter depth l.kind)]) (fun hv _ _ _ => ?_)
          ((takes_bump hp).append hrest))
      · simp only [perform, hdepth, if_false]
      · have hne : ¬ l.token.kind = .eof := (hv l (by rw [hp]; exact List.mem_cons_self)).2
        simp [perform, next_of_cons hv hp, hne, hdepth, Lexeme.kind]

/-- Jobs that end with noting that what they took is in the way. -/
theorem takes_stretch {jobs : List Job} {d : Draft} (expected : Expected) (first : Token)
    (h : Takes z p jobs [d] [] rest) :
    Takes z p (jobs ++ [.stretch expected first]) [d]
      [.ofToken expected first ⟨first.span.start, d.lastToken.span.stop⟩] rest := by
  have hstretch : Takes z (p.behind [d] rest) [.stretch expected first] []
      [.ofToken expected first ⟨first.span.start, d.lastToken.span.stop⟩] rest :=
    takes_report _ (fun _ _ _ _ => rfl) (takes_nil z _)
  exact h.append hstretch

theorem takes_tooDeep {l : Lexeme} {ls : List Lexeme} (hp : p.lexemes = l :: ls)
    (ho : l.kind.isOpener = true) (he : Container.maxDepth ≤ p.enclosing.length) :
    Takes z p [.value] [tooDeep l (balancedRun 1 ls).1]
      (errorsList [tooDeep l (balancedRun 1 ls).1]) (balancedRun 1 ls).2 := by
  obtain ⟨c, hc⟩ : ∃ c, l.token.kind.opens? = some c := by
    cases hopens : l.token.kind.opens? with
    | some c => exact ⟨c, rfl⟩
    | none =>
      have hno : l.kind.isOpener = false := not_isOpener_of_opens? hopens
      simp [hno] at ho
  -- the opener itself is counted too, so the first token of the run is taken at depth 0
  have hbalance : Takes z { p with bare := true } [.balance 0]
      (leaf l :: (balancedRun 1 ls).1.map leaf) [] (balancedRun 1 ls).2 := by
    have hbody := (takes_bump (z := z) (p := { p with bare := true }) hp).append
      (takes_balanceOn 1 ls rfl)
    apply takes_job (Job.bump ++ [.balanceOn 1]) ?_ hbody
    intro hv _ _ _
    have hne : (l.token.kind == .eof) = false :=
      TokenKind.beq_eq_false (p := TokenKind.isOpener) ho rfl
    have hcloser : l.token.kind.isCloser = false :=
      eq_false_of_opens? TokenKind.isCloser (by decide) hc
    have hdepth : depthAfter 0 l.token.kind = 1 := if_pos ho
    simp only [perform, next_of_cons hv hp, hne, hcloser, hdepth]
    rfl
  have hnode := takes_stretch .nestingLimit l.token
    (takes_node (p := { p with bare := true }) .invalidValue none
      (unexpected .nestingLimit l.token ⟨l.token.span.start,
        (lastTokenFrom l.token ((balancedRun 1 ls).1.map leaf)).span.stop⟩) hbalance)
  have herrors : errorsList [tooDeep l (balancedRun 1 ls).1] =
      [.ofToken .nestingLimit l.token ⟨l.token.span.start,
        (lastTokenFrom l.token ((balancedRun 1 ls).1.map leaf)).span.stop⟩] := by
    simp [tooDeep, unexpected]
  rw [herrors]
  refine takes_valueBody (takes_job [.tooDeep] (fun hv _ _ _ => ?_)
    (takes_job (Job.node .invalidValue [.balance 0] ++ [.stretch .nestingLimit l.token])
      (fun hv _ _ _ => ?_) hnode))
  · have hdeep : ¬ p.enclosing.length < Container.maxDepth := by omega
    simp only [perform, next_of_cons hv hp, hc]
    exact congrArg (fun jobs => Except.ok (_, jobs)) (if_neg hdeep)
  · simp only [perform, next_of_cons hv hp]

/-! ## Containers -/

theorem eq_nil_of_contents {c : Container} {stop : Token} {ds : List Draft}
    (h : contents c stop ds = []) : ds = [] := by
  have hlexemes := lexemesList_contents c stop ds
  rw [h] at hlexemes
  cases ds with
  | nil => rfl
  | cons d ds =>
    obtain ⟨ls, hls⟩ := exists_lexemes_eq_cons d
    simp [hls] at hlexemes

theorem takes_contents {c : Container} (h : Ahead z.eof p.enclosing p.lexemes ds rest)
    (hlist : Takes z { p with bare := true } [.list c true] (contents c (nextOf z.eof rest) ds)
      (errorsList (contents c (nextOf z.eof rest) ds)) rest) :
    Takes z p [.contents c] (wrap c.listKind (contents c (nextOf z.eof rest) ds))
      (errorsList (contents c (nextOf z.eof rest) ds)) rest := by
  have hend : p.Valid → ∀ nodes roots errors,
      (p.reader z nodes roots errors).atContainerEnd = ds.isEmpty :=
    fun hv _ _ _ => atContainerEnd_reader hv h
  cases hcontents : contents c (nextOf z.eof rest) ds with
  | nil =>
    obtain rfl := eq_nil_of_contents hcontents
    obtain rfl := h.eq_of_nil
    apply takes_job [] ?_ (takes_nil z p)
    intro hv _ _ _
    rw [perform, hend hv]
    rfl
  | cons first more =>
    rw [hcontents] at hlist
    have hne : ds.isEmpty = false := by
      cases ds with
      | nil => cases c <;> simp [contents] at hcontents
      | cons => rfl
    apply takes_job (Job.node c.listKind [.list c true]) ?_
      (takes_node c.listKind none none hlist)
    intro hv _ _ _
    rw [perform, hend hv, hne, if_neg (by simp)]

theorem takes_closer {c : Container} {l : Lexeme} {ls : List Lexeme} (hp : p.lexemes = l :: ls)
    (hl : l.kind = c.closer) : Takes z p [.closer c] [leaf l] [] ls := by
  apply takes_job Job.bump ?_ (takes_bump hp)
  intro hv _ _ _
  have hl : (l.token.kind == c.closer) = true := beq_iff_eq.mpr hl
  rw [perform, next_of_cons hv hp, if_pos hl]

theorem takes_missingCloser {c : Container} (h : ∀ l ∈ p.lexemes.head?, l.kind ≠ c.closer) :
    Takes z p [.closer c] [] [.ofToken c.expectedCloser (nextOf z.eof p.lexemes) (.empty p.lastEnd)]
      p.lexemes := by
  have hnext : ¬ ((nextOf z.eof p.lexemes).kind == c.closer) = true := by
    rw [beq_iff_eq]
    cases hp : p.lexemes with
    | nil =>
      rw [nextOf, z.kind_eof]
      cases c <;> decide
    | cons l ls => exact h l (by rw [hp]; rfl)
  apply takes_report [] ?_ (takes_nil z p)
  intro hv nodes roots errors
  rw [perform, next_reader hv, if_neg hnext]
  rfl

theorem takes_container {c : Container} {l : Lexeme} {ls mid : List Lexeme} {contents : List Draft}
    {closer : Option Lexeme} (next : Token) (note : Option ParseError) (hp : p.lexemes = l :: ls)
    (hl : l.kind = c.opener) (he : p.enclosing.length < Container.maxDepth)
    (hcontents : ∀ q : Point, q.enclosing = c :: p.enclosing → q.lexemes = ls →
      Takes z q [.contents c] (wrap c.listKind contents) (errorsList contents) mid)
    (hcloser : ∀ q : Point, q.lexemes = mid →
      q.lastEnd = (lastTokenFrom l.token (wrap c.listKind contents)).span.stop →
      Takes z q [.closer c] (closer.map leaf).toList note.toList rest)
    (hdraft : container c l contents closer next =
      plain .value (containerNode c l contents closer note) []) :
    Takes z p [.value] [container c l contents closer next]
      (errorsList [container c l contents closer next]) rest := by
  have herrors : errorsList [container c l contents closer next] =
      errorsList contents ++ note.toList := by
    rw [hdraft]
    simp [errors_containerNode]
  have hbump := takes_bump (z := z) (p := { p with bare := true }) hp
  have hinside := takes_within c (p := ({ p with bare := true } : Point).behind [leaf l] ls)
    ((hcontents { ({ p with bare := true } : Point).behind [leaf l] ls with
      enclosing := c :: p.enclosing } rfl rfl).append (hcloser _ rfl (endFrom_eq _ _)))
  have hnode := takes_node (p := { p with bare := true }) c.nodeKind none note
    (hbump.append hinside)
  have ho : l.token.kind.opens? = some c := Container.opens?_eq_some.mpr hl
  rw [herrors, hdraft]
  apply takes_valueBody (takes_job [.container c] ?_
    (takes_job _ (fun _ _ _ _ => rfl) hnode))
  intro hv _ _ _
  simp only [perform, next_of_cons hv hp, ho]
  exact congrArg (fun jobs => Except.ok (_, jobs)) (if_pos he)

theorem takes_close {c : Container} {l : Lexeme} {ls : List Lexeme} (hp : p.lexemes = l :: ls)
    (hl : l.kind = c.opener) (he : p.enclosing.length < Container.maxDepth)
    (hinside : Ahead z.eof (c :: p.enclosing) ls ds rest)
    (hlist : ∀ q : Point, q.enclosing = c :: p.enclosing → q.lexemes = ls →
      Takes z q [.list c true] (contents c (nextOf z.eof rest) ds)
        (errorsList (contents c (nextOf z.eof rest) ds)) rest) :
    Takes z p [.value] [(close z.eof c l ds rest).1] (errorsList [(close z.eof c l ds rest).1])
      (close z.eof c l ds rest).2 := by
  have hcontents : ∀ q : Point, q.enclosing = c :: p.enclosing → q.lexemes = ls →
      Takes z q [.contents c] (wrap c.listKind (contents c (nextOf z.eof rest) ds))
        (errorsList (contents c (nextOf z.eof rest) ds)) rest := by
    intro q he hq
    refine takes_contents ?_ (hlist { q with bare := true } he hq)
    rw [he, hq]
    exact hinside
  have hmissing : (∀ l' ∈ rest.head?, l'.kind ≠ c.closer) →
      Takes z p [.value] [container c l (contents c (nextOf z.eof rest) ds) none (nextOf z.eof rest)]
        (errorsList [container c l (contents c (nextOf z.eof rest) ds) none (nextOf z.eof rest)])
        rest := by
    intro hno
    apply takes_container _ _ hp hl he hcontents ?_ rfl
    intro q hq hend
    have h := takes_missingCloser (z := z) (p := q) (by rw [hq]; exact hno)
    rw [hq, hend] at h
    simpa [missing] using h
  cases hrest : rest with
  | nil =>
    rw [hrest] at hmissing
    exact hmissing (by simp)
  | cons m ms =>
    rw [hrest] at hmissing hcontents
    by_cases hm : m.kind = c.closer
    · have hclose : close z.eof c l ds (m :: ms) =
          (container c l (contents c m.token ds) (some m) m.token, ms) := by
        rw [close, if_pos (by simpa using hm)]
      rw [hclose]
      exact takes_container m.token none hp hl he hcontents (fun q hq _ => takes_closer hq hm) rfl
    · -- another closer, of a container further out, ends this one too
      have hclose : close z.eof c l ds (m :: ms) =
          (container c l (contents c m.token ds) none m.token, m :: ms) := by
        rw [close, if_neg (by simpa using hm)]
      rw [hclose]
      apply hmissing
      intro l' hl'
      obtain rfl : m = l' := by simpa using hl'
      exact hm

end Maml.Reader
