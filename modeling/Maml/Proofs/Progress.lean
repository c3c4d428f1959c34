import Maml.Proofs.Passing
import Maml.Proofs.Totality

/-! Every step of a reader goes on and leaves the context as it was.

1. What a reader does where a value may be missing or something is skipped comes to an end if
   values do (`passes_memberValue`, `passes_skipToken`, `passes_skip`).
2. So do members and lists (`passes_keyValue`, `passes_recover`, `passes_list`), and so does
   what is nested too deep, by itself (`passes_tooDeep`).
3. The values in a container have fewer tokens left in front of them than the container, so all
   values come to an end, and take a token (`valuesPass`).
4. Hence every step takes a significant token, has the same containers and nodes open behind it
   and only adds mistakes, unless the range of one is reversed, and every loop ends
   (`steps_advance`). Ranges are reversed only where tokens are out of order, and can be so there
   (`value_faults_of_disorder`). -/
namespace Maml.Reader

open Draft

section
variable {o : Prop} {n : Nat} {r : Reader}

/-- Whether values come to an end from readers with at most `n` tokens left, and take a token. -/
def ValuesPass (o : Prop) (n : Nat) : Prop :=
  ∀ r : Reader, HasLeft o n r → r.next.kind ≠ .eof → Passes o (· ≠ []) [.value] r

/-! ## What a reader looks for -/

theorem ne_eof_of_not_atContainerEnd (h : ¬ r.atContainerEnd = true) : r.next.kind ≠ .eof := by
  intro hnext
  apply h
  simp [atContainerEnd, hnext]

theorem ne_eof_of_test (test : TokenKind → Bool) (hend : test .eof = false) {kind : TokenKind}
    (h : test kind = true) : kind ≠ .eof := by
  rintro rfl
  simp [hend] at h

/-! ## Values that may be missing -/

theorem passes_memberValue (H : ValuesPass o n) (hr : HasLeft o n r) :
    Passes o (fun _ => True) [.memberValue] r := by
  by_cases hmissing : r.atMissingValue = true
  · have hjob : perform r .memberValue =
        (r.report .value r.next r.gap).bind fun r => .ok (r, []) := by
      rw [perform, if_pos hmissing]
      rfl
    exact passes_report [] hjob (fun _ => Span.ordered_empty _) fun _ => passes_nil trivial
  · have hnext : r.next.kind ≠ .eof := by
      apply ne_eof_of_not_atContainerEnd
      intro hend
      exact hmissing (by simp [atMissingValue, hend])
    have hjob : perform r .memberValue = .ok (r, [.value]) := by
      rw [perform, if_neg hmissing]
    exact passes_job [.value] hjob (H r hr hnext).ends

/-! ## Skipping -/

theorem passes_skipValue (H : ValuesPass o n) (hr : HasLeft o n r) :
    Passes o (fun _ => True) [.skipValue] r := by
  by_cases hvalue : r.next.kind.startsValue = true
  · have hjob : perform r .skipValue = .ok (r, [.value]) := by
      rw [perform, if_pos hvalue]
    have hnext : r.next.kind ≠ .eof := ne_eof_of_test TokenKind.startsValue rfl hvalue
    exact passes_job [.value] hjob (H r hr hnext).ends
  · have hjob : perform r .skipValue = .ok (r, []) := by
      rw [perform, if_neg hvalue]
    exact passes_done hjob

theorem passes_skipToken (H : ValuesPass o n) (hr : HasLeft o n r) (hnext : r.next.kind ≠ .eof) :
    Passes o (· ≠ []) [.skipToken] r := by
  by_cases hopener : r.next.kind.isOpener = true
  · have hjob : perform r .skipToken = .ok (r, [.value]) := by
      rw [perform, if_pos hopener]
    exact passes_job [.value] hjob (H r hr hnext)
  · have hjob : perform r .skipToken =
        .ok (r, Job.bump ++ if r.next.kind == .colon then [.skipValue] else []) := by
      rw [perform, if_neg hopener]
    refine passes_job _ hjob ((passes_bump_next rfl hnext).takes_token.followed fun _ q hq _ => ?_)
    split
    · exact passes_skipValue H (hr.behind hq.toLeads)
    · exact passes_nil trivial

theorem passes_skip (H : ValuesPass o n) (hr : HasLeft o n r) :
    Passes o (fun _ => True) [.skip] r := by
  refine passes_of_turns (· = .skip) ?_ rfl hr
  rintro turn r rfl hr
  by_cases hresume : r.atMemberResume = true
  · have hjob : perform r .skip = .ok (r, []) := by
      rw [perform, if_pos hresume]
    exact .inl (passes_done hjob)
  · have hjob : perform r .skip = .ok (r, [.skipToken] ++ [.skip]) := by
      rw [perform, if_neg hresume]
      rfl
    have hnext : r.next.kind ≠ .eof := by
      apply ne_eof_of_not_atContainerEnd
      intro hend
      exact hresume (by simp [atMemberResume, hend])
    exact .inr ⟨[.skipToken], .skip, rfl, passes_skipToken H hr hnext, passes_job _ hjob⟩

/-! ## Members -/

theorem passes_strayComma (hr : HasLeft o n r) (hnext : r.next.kind ≠ .eof) (expected : Expected) :
    Passes o (· ≠ []) [.strayComma expected] r :=
  passes_report (Job.node .error Job.bump) rfl (fun ho => (hr.orderly ho).ordered_next hnext)
    fun _ => passes_node .error fun _ hq _ => (passes_bump_next hq hnext).takes_token

theorem passes_key {q : Reader} (hq : q.remaining = r.remaining) (hnext : r.next.kind ≠ .eof) :
    Passes o (· = [r.next]) [.key] q :=
  passes_job (Job.node .key Job.bump) rfl
    (passes_node .key fun _ hq' _ => passes_bump_next (hq'.trans hq) hnext)

theorem passes_colonValue (H : ValuesPass o n) (hr : HasLeft o n r) {jobs : List Job}
    {key colon : Token} {ts : List Token} (hts : r.remaining = key :: colon :: ts)
    (hcolon : colon.kind ≠ .eof) (hjobs : Passes o (· = [key]) jobs r) :
    Passes o (· ≠ []) (jobs ++ (Job.bump ++ [.memberValue])) r := by
  refine hjobs.append fun taken q hq htaken => ?_
  obtain rfl : taken = [key] := htaken
  have hremaining : q.remaining = colon :: ts :=
    (List.cons.inj ((remaining_of_hands hq.hands).symm.trans hts)).2
  refine (passes_bump hremaining hcolon).append fun _ q' hq' _ => ?_
  exact (passes_memberValue H ((hr.behind hq.toLeads).behind hq'.toLeads)).mono fun _ _ => by simp

theorem passes_junk (H : ValuesPass o n) (hr : HasLeft o n r) :
    Passes o (fun _ => True) [.junk] r := by
  by_cases hresume : r.atMemberResume = true
  · have hjob : perform r .junk = .ok (r, []) := by
      rw [perform, if_pos hresume]
    exact passes_done hjob
  · have hjob : perform r .junk = .ok (r, Job.node .error [.skip]) := by
      rw [perform, if_neg hresume]
    exact passes_job _ hjob
      (passes_node .error fun _ hq _ => passes_skip H (hr.of_remaining hq))

theorem passes_colon {key : Token} (hkey : o → key.span.Ordered) :
    Passes o (fun _ => True) [.colon key] r := by
  by_cases hopen : key.kind == .unterminatedString
  · have hjob : perform r (.colon key) = .ok (r, []) := by
      rw [perform, if_pos hopen]
    exact passes_done hjob
  · have hjob : perform r (.colon key) =
        (r.report .colon r.next key.span).bind fun r => .ok (r, []) := by
      rw [perform, if_neg hopen]
      rfl
    exact passes_report [] hjob hkey fun _ => passes_nil trivial

theorem passes_incomplete (H : ValuesPass o n) (hr : HasLeft o n r) (hnext : r.next.kind ≠ .eof) :
    Passes o (· ≠ []) [.incomplete] r := by
  have hkey : Passes o (· = [r.next]) (Job.node .incompleteKeyValue [.key]) r :=
    passes_node .incompleteKeyValue fun _ hq _ => passes_key hq hnext
  refine passes_job (Job.node .incompleteKeyValue [.key] ++ ([.colon r.next] ++ [.junk])) rfl
    (hkey.takes_token.followed fun _ q hq _ => ?_)
  refine (passes_colon fun ho => (hr.orderly ho).ordered_next hnext).append fun _ q' hq' _ => ?_
  exact passes_junk H ((hr.behind hq.toLeads).behind hq'.toLeads)

theorem passes_keyValue (H : ValuesPass o n) (hr : HasLeft o n r) (hnext : r.next.kind ≠ .eof) :
    Passes o (· ≠ []) [.keyValue] r := by
  let jobs : List Job := if r.second.kind == .colon then
    Job.node .keyValue ([.key] ++ Job.bump ++ [.memberValue]) else [.incomplete]
  -- what the key is noted for beforehand makes no difference to what is taken
  have hjobs : ∀ errors, Passes o (· ≠ []) jobs { r with errors } := by
    intro errors
    have hr : HasLeft o n { r with errors } := hr.of_remaining rfl
    by_cases hcolon : r.second.kind == .colon
    · have hsecond : r.second.kind ≠ .eof := ne_eof_of_test (· == .colon) rfl hcolon
      obtain ⟨ts, hts⟩ := exists_remaining_second hsecond
      have hjobs : jobs = Job.node .keyValue ([.key] ++ (Job.bump ++ [.memberValue])) :=
        if_pos hcolon
      rw [hjobs]
      refine passes_node .keyValue fun q hq _ => ?_
      exact passes_colonValue H (hr.of_remaining hq) (hq.trans hts) hsecond (passes_key hq hnext)
    · rw [show jobs = [.incomplete] from if_neg hcolon]
      exact passes_incomplete H hr hnext
  by_cases hopen : r.next.kind == .unterminatedString
  · have hjob : perform r .keyValue =
        (r.report .key r.next r.next.span).bind fun r => .ok (r, jobs) := by
      simp only [perform, if_pos hopen]
      rfl
    exact passes_report jobs hjob (fun ho => (hr.orderly ho).ordered_next hnext) hjobs
  · have hjob : perform r .keyValue = .ok (r, jobs) := by
      simp only [perform, if_neg hopen]
      rfl
    exact passes_job jobs hjob (hjobs r.errors)

/-- What begins no member is skipped, or taken with the value behind its colon. -/
theorem passes_recover (H : ValuesPass o n) (hr : HasLeft o n r) (hnext : r.next.kind ≠ .eof) :
    Passes o (· ≠ []) [.recover] r := by
  let jobs : List Job := if isQuotable r.next.kind && r.second.kind == .colon then
    Job.bump ++ Job.bump ++ [.memberValue] else [.skipToken, .skip]
  have hjobs : ∀ q : Reader, q.remaining = r.remaining → Passes o (· ≠ []) jobs q := by
    intro q hq
    have hleft : HasLeft o n q := hr.of_remaining hq
    by_cases hliteral : (isQuotable r.next.kind && r.second.kind == .colon) = true
    · have hcolon : (r.second.kind == .colon) = true := (Bool.and_eq_true_iff.mp hliteral).2
      have hsecond : r.second.kind ≠ .eof := ne_eof_of_test (· == .colon) rfl hcolon
      obtain ⟨ts, hts⟩ := exists_remaining_second hsecond
      rw [show jobs = Job.bump ++ (Job.bump ++ [.memberValue]) from if_pos hliteral]
      exact passes_colonValue H hleft (hq.trans hts) hsecond (passes_bump_next hq hnext)
    · rw [show jobs = [.skipToken] ++ [.skip] from if_neg hliteral]
      rw [← next_eq_of_remaining hq hnext] at hnext
      exact (passes_skipToken H hleft hnext).followed fun _ q' hq' _ =>
        passes_skip H (hleft.behind hq'.toLeads)
  exact passes_report (Job.node .error jobs) rfl (fun ho => (hr.orderly ho).ordered_next hnext)
    fun _ => passes_node .error fun q hq _ => hjobs q hq

/-! ## Lists -/

theorem passes_element (H : ValuesPass o n) (hr : HasLeft o n r) (hnext : r.next.kind ≠ .eof)
    (c : Container) : Passes o (· ≠ []) [r.element c] r := by
  cases c with
  | array => exact H r hr hnext
  | object =>
    rw [element]
    split
    · exact passes_keyValue H hr hnext
    · exact passes_recover H hr hnext

/-- A list goes on up to the end of its container. -/
theorem passes_list (H : ValuesPass o n) (hr : HasLeft o n r) (c : Container) (separated : Bool) :
    Passes o (fun _ => True) [.list c separated] r := by
  refine passes_of_turns (∃ separated, · = .list c separated) ?_ ⟨separated, rfl⟩ hr
  rintro turn r ⟨separated, rfl⟩ hr
  by_cases hend : r.atContainerEnd = true
  · have hjob : perform r (.list c separated) = .ok (r, []) := by
      rw [perform, if_pos hend]
    exact .inl (passes_done hjob)
  · have hnext : r.next.kind ≠ .eof := ne_eof_of_not_atContainerEnd hend
    by_cases hcomma : r.next.kind == .comma
    · cases separated with
      | true =>
        -- a stray comma separates nothing
        have hjob : perform r (.list c true) =
            .ok (r, [.strayComma c.expectedElement] ++ [.list c false]) := by
          rw [perform, if_neg hend, if_pos hcomma, if_pos rfl]
          rfl
        exact .inr ⟨_, .list c false, ⟨false, rfl⟩, passes_strayComma hr hnext _, passes_job _ hjob⟩
      | false =>
        have hjob : perform r (.list c false) = .ok (r, Job.bump ++ [.list c true]) := by
          rw [perform, if_neg hend, if_pos hcomma, if_neg (by simp)]
        exact .inr ⟨_, .list c true, ⟨true, rfl⟩, (passes_bump_next rfl hnext).takes_token,
          passes_job _ hjob⟩
    · have hjob : perform r (.list c separated) = .ok (r, [r.element c] ++ [.list c false]) := by
        rw [perform, if_neg hend, if_neg hcomma]
        rfl
      exact .inr ⟨_, .list c false, ⟨false, rfl⟩, passes_element H hr hnext c, passes_job _ hjob⟩

/-! ## Containers nested too deep -/

/-- Counting brackets goes on until they are balanced or the input ends, and never goes below
zero. -/
theorem passes_balanceOn (hr : HasLeft o n r) (depth : Nat) :
    Passes o (fun _ => True) [.balanceOn depth] r := by
  refine passes_of_turns (∃ depth, · = .balanceOn depth) ?_ ⟨depth, rfl⟩ hr
  rintro turn r ⟨depth, rfl⟩ hr
  by_cases hdepth : depth = 0
  · have hjob : perform r (.balanceOn depth) = .ok (r, []) := by
      rw [perform, if_pos hdepth]
    exact .inl (passes_done hjob)
  · have hjob : perform r (.balanceOn depth) = .ok (r, [.balance depth]) := by
      rw [perform, if_neg hdepth]
    by_cases hend : r.next.kind == .eof
    · have hbalance : perform r (.balance depth) = .ok (r, []) := by
        rw [perform, if_pos hend]
      exact .inl (passes_job _ hjob (passes_done hbalance))
    · have hbalance : perform r (.balance depth) =
          .ok (r, Job.bump ++ [.balanceOn (depthAfter depth r.next.kind)]) := by
        rw [perform, if_neg hend, if_neg (by simp [hdepth])]
      have hnext : r.next.kind ≠ .eof := by simpa using hend
      exact .inr ⟨Job.bump, .balanceOn (depthAfter depth r.next.kind), ⟨_, rfl⟩,
        (passes_bump_next rfl hnext).takes_token,
        fun h => passes_job _ hjob (passes_job _ hbalance h)⟩

theorem passes_tooDeep (hr : HasLeft o n r) (hopener : r.next.kind.isOpener = true) :
    Passes o (· ≠ []) [.tooDeep] r := by
  have hnext : r.next.kind ≠ .eof := ne_eof_of_test TokenKind.isOpener rfl hopener
  have hbalance : ∀ q : Reader, q.remaining = r.remaining → Passes o (· ≠ []) [.balance 0] q := by
    intro q hq
    have hq' : q.next = r.next := next_eq_of_remaining hq hnext
    -- the first bracket is an opener, so it is not one too many to be closed
    have hcloser : q.next.kind.isCloser = false := by
      rw [hq']
      exact not_isCloser_of_isOpener hopener
    have hjob : perform q (.balance 0) =
        .ok (q, Job.bump ++ [.balanceOn (depthAfter 0 q.next.kind)]) := by
      rw [perform, if_neg (by rw [hq']; simpa using hnext), if_neg (by simp [hcloser])]
    exact passes_job _ hjob ((passes_bump_next hq hnext).takes_token.followed fun _ q' h' _ =>
      passes_balanceOn ((hr.of_remaining hq).behind h'.toLeads) _)
  refine passes_job (Job.node .invalidValue [.balance 0] ++ [.stretch .nestingLimit r.next]) rfl
    ((passes_node .invalidValue fun q hq _ => hbalance q hq).followed fun taken q hq htaken => ?_)
  exact passes_report [] rfl (fun ho => (hr.orderly ho).start_le_lastEnd hq.hands htaken)
    fun _ => passes_nil trivial

/-! ## Values -/

theorem passes_invalidValue (hr : HasLeft o n r) (hnext : r.next.kind ≠ .eof) :
    Passes o (· ≠ []) [.invalidValue] r := by
  let signed := isSignedNumber r.next r.second
  let range := if signed then r.next.span.cover r.second.span else r.next.span
  have hordered : o → range.Ordered := by
    intro ho
    have hspan := (hr.orderly ho).ordered_next hnext
    simp only [range]
    split
    · exact Span.ordered_cover hspan _
    · exact hspan
  refine passes_report (Job.node .invalidValue (Job.bump ++ if signed then Job.bump else [])) rfl
    hordered fun errors => passes_node .invalidValue fun q hq _ => ?_
  refine (passes_bump_next hq hnext).append fun taken q' hq' htaken => ?_
  obtain rfl : taken = [r.next] := htaken
  by_cases hsigned : signed = true
  · -- the number is the token behind the plus sign
    have hsecond : r.second.kind ≠ .eof := by
      intro hend
      simp [signed, isSignedNumber, hend] at hsigned
    obtain ⟨us, hus⟩ := exists_remaining_second hsecond
    have hremaining : q'.remaining = r.second :: us :=
      (List.cons.inj ((remaining_of_hands hq'.hands).symm.trans (hq.trans hus))).2
    rw [if_pos hsigned]
    exact (passes_bump hremaining hsecond).mono fun _ _ => by simp
  · rw [if_neg hsigned]
    exact passes_nil (by simp)

theorem passes_contents (H : ValuesPass o n) (hr : HasLeft o n r) (c : Container) :
    Passes o (fun _ => True) [.contents c] r := by
  by_cases hend : r.atContainerEnd = true
  · have hjob : perform r (.contents c) = .ok (r, []) := by
      rw [perform, if_pos hend]
    exact passes_done hjob
  · have hjob : perform r (.contents c) = .ok (r, Job.node c.listKind [.list c true]) := by
      rw [perform, if_neg hend]
    exact passes_job _ hjob
      (passes_node c.listKind fun _ hq _ => passes_list H (hr.of_remaining hq) c true)

theorem passes_closer (c : Container) : Passes o (fun _ => True) [.closer c] r := by
  by_cases hcloser : r.next.kind == c.closer
  · have hjob : perform r (.closer c) = .ok (r, Job.bump) := by
      rw [perform, if_pos hcloser]
    have hnext : r.next.kind ≠ .eof := ne_eof_of_test (· == c.closer) (by cases c <;> rfl) hcloser
    exact passes_job Job.bump hjob (passes_bump_next rfl hnext).ends
  · have hjob : perform r (.closer c) =
        (r.report c.expectedCloser r.next r.gap).bind fun r => .ok (r, []) := by
      rw [perform, if_neg hcloser]
      rfl
    exact passes_report [] hjob (fun _ => Span.ordered_empty _) fun _ => passes_nil trivial

/-- A container has fewer tokens left behind its opener. -/
theorem passes_container (H : ValuesPass o n) (hr : HasLeft o (n + 1) r)
    (hnext : r.next.kind ≠ .eof) (c : Container) : Passes o (· ≠ []) [.container c] r := by
  refine passes_job (Job.node c.nodeKind
    (Job.bump ++ (.enter c :: ([.contents c] ++ [.closer c] ++ [.leave])))) rfl
    (passes_node c.nodeKind fun q hq _ => ?_)
  refine (passes_bump_next hq hnext).takes_token.followed fun taken q' hq' htaken => ?_
  have hleft : HasLeft o n q' := (hr.of_remaining hq).behind_token hq'.toLeads htaken
  exact passes_within c fun q'' hq'' =>
    (passes_contents H (hleft.of_remaining hq'') c).append fun _ _ _ _ => passes_closer c

theorem passes_valueBody (H : ValuesPass o n) (hr : HasLeft o (n + 1) r)
    (hnext : r.next.kind ≠ .eof) : Passes o (· ≠ []) [.valueBody] r := by
  cases hopens : r.next.kind.opens? with
  | some c =>
    by_cases hdepth : r.enclosing.length < Container.maxDepth
    · have hjob : perform r .valueBody = .ok (r, [.container c]) := by
        simp only [perform, hopens, if_pos hdepth]
      exact passes_job _ hjob (passes_container H hr hnext c)
    · have hjob : perform r .valueBody = .ok (r, [.tooDeep]) := by
        simp only [perform, hopens, if_neg hdepth]
      exact passes_job _ hjob (passes_tooDeep hr (isOpener_of_opens? hopens))
  | none =>
    by_cases hscalar : r.next.kind.isScalar = true
    · have hjob : perform r .valueBody = .ok (r, Job.bump) := by
        simp only [perform, hopens, if_pos hscalar]
      exact passes_job _ hjob (passes_bump_next rfl hnext).takes_token
    · have hjob : perform r .valueBody = .ok (r, [.invalidValue]) := by
        simp only [perform, hopens, if_neg hscalar]
      exact passes_job _ hjob (passes_invalidValue hr hnext)

/-- However many tokens are left, values come to an end and take one. -/
theorem valuesPass (o : Prop) (n : Nat) : ValuesPass o n := by
  -- the values in a container have fewer tokens left in front of them
  induction n with
  | zero =>
    intro r hr hnext
    obtain ⟨ts, hts⟩ := exists_remaining hnext
    have hlen := hr.length_le
    simp [hts] at hlen
  | succ n ih =>
    intro r hr hnext
    refine passes_job (Job.node .value [.valueBody]) rfl (passes_node .value fun q hq _ => ?_)
    rw [← next_eq_of_remaining hq hnext] at hnext
    exact passes_valueBody ih (hr.of_remaining hq) hnext

/-! ## Steps -/

/-- Whether a reader has the same containers and nodes open as another one and stands in the same
tokens, further on or not, with every mistake that was noted before. -/
structure Keeps (r r' : Reader) : Prop where
  enclosing_eq : r'.enclosing = r.enclosing
  openKinds_eq : r'.openKinds = r.openKinds
  errors_kept : r.errors <+: r'.errors
  rest_suffix : r'.stream.rest <:+ r.stream.rest
  orderly : r.Orderly → r'.Orderly

/-- Whether a reader has taken a significant token besides. -/
structure Advances (r r' : Reader) : Prop extends Keeps r r' where
  remaining_lt : r'.remaining.length < r.remaining.length

/-- Whether a job comes to an end as it should. Only tokens out of order let it end with the fault
of a reversed range. -/
def Finishes (Good : Reader → Reader → Prop) (job : Job) (r : Reader) : Prop :=
  (∃ r', Runs [job] r (.ok r') ∧ Good r r') ∨
    (¬ r.Orderly ∧ ∃ range : Span, ¬ range.Ordered ∧
      Runs [job] r (.error (.reversedRange range.start range.stop)))

theorem Restores.keeps {jobs : List Job} {taken : List Token} {r' : Reader}
    (h : Restores o jobs r taken r') : Keeps r r' := by
  obtain ⟨es, herrors, -, -⟩ := h.runs
  exact ⟨h.enclosing_eq, h.openKinds_eq, ⟨es, herrors.symm⟩, h.hands.rest_suffix,
    fun horder => (horder.of_hands h.hands).2⟩

theorem Restores.advances {jobs : List Job} {taken : List Token} {r' : Reader}
    (h : Restores o jobs r taken r') (htaken : taken ≠ []) : Advances r r' := by
  refine ⟨h.keeps, ?_⟩
  have hsplit := length_remaining_of_hands h.hands
  have hpos := List.length_pos_iff.mpr htaken
  omega

theorem Passes.finishes {P : List Token → Prop} {Good : Reader → Reader → Prop} {job : Job}
    (h : Passes r.Orderly P [job] r)
    (hgood : ∀ taken r', Restores r.Orderly [job] r taken r' → P taken → Good r r') :
    Finishes Good job r := by
  obtain ⟨taken, r', hr', htaken⟩ := h
  obtain ⟨es, -, hordered, hrun⟩ := hr'.runs
  have hout := hrun [] (.ok r') .done
  unfold refused at hout
  split at hout
  · rename_i e he
    have hreversed : ¬ e.range.Ordered := by simpa using List.find?_some he
    refine .inr ⟨fun horder => hreversed (hordered horder e (List.mem_of_find?_eq_some he)), ?_⟩
    exact ⟨e.range, hreversed, hout⟩
  · exact .inl ⟨r', hout, hgood taken r' hr' htaken⟩

theorem Passes.finishes_advances {job : Job} (h : Passes r.Orderly (· ≠ []) [job] r) :
    Finishes Advances job r :=
  h.finishes fun _ _ hr' htaken => hr'.advances htaken

theorem Passes.finishes_keeps {job : Job} (h : Passes r.Orderly (fun _ => True) [job] r) :
    Finishes Keeps job r :=
  h.finishes fun _ _ hr' _ => hr'.keeps

end

theorem orderly_ofText (source : Text) : (ofStream (.ofText source)).Orderly := by
  have horder := inOrder_lexemes_tokenize source
  rw [takeWhile_tokenize] at horder
  have hremaining : ∀ t ∈ (tokenize source).filter (!·.isTrivia), (t.kind != .eof) = true :=
    fun t ht => by simpa using kind_ne_eof_of_mem_tokenize (List.mem_filter.mp ht).1
  show InOrder (((tokenize source).filter (!·.isTrivia)).takeWhile (·.kind != .eof))
  rwa [List.takeWhile_eq_self_iff.mpr hremaining]

/-- Wherever a reader stands in front of a token, reading a value or a member there, recovering
there, taking a stray comma and skipping a token each come to an end. A significant token has been
taken then, the same containers and nodes are open as before and no mistake noted before is gone or
different. From any reader, the loops over a list and over what is skipped come to an end, and from
one in front of an opener the loop over what is nested too deep does. So reading ends on any tokens.
All this is so unless the range of a mistake is reversed, and none is as long as the tokens are in
order, as those of a text are. -/
theorem steps_advance :
    (∀ (r : Reader) (expected : Expected), r.next.kind ≠ .eof →
      ∀ job ∈ [Job.value, .keyValue, .recover, .strayComma expected, .skipToken],
        Finishes Advances job r) ∧
    (∀ (r : Reader) (c : Container) (separated : Bool),
      Finishes Keeps (.list c separated) r ∧ Finishes Keeps .skip r ∧
        (r.next.kind.isOpener = true → Finishes Advances .tooDeep r)) ∧
    (∀ s : TokenStream, ∃ out, Reads s out) ∧
    ∀ source : Text, (ofStream (.ofText source)).Orderly := by
  have hleft (r : Reader) : HasLeft r.Orderly r.remaining.length r := ⟨Nat.le_refl _, id⟩
  refine ⟨fun r expected hnext job hjob => ?_, fun r c separated => ⟨?_, ?_, fun hopener => ?_⟩,
    fun s => ⟨_, (reads_iff s _).mpr rfl⟩, orderly_ofText⟩
  · have H := valuesPass r.Orderly r.remaining.length
    apply Passes.finishes_advances
    simp only [List.mem_cons, List.not_mem_nil, or_false] at hjob
    rcases hjob with rfl | rfl | rfl | rfl | rfl
    · exact H r (hleft r) hnext
    · exact passes_keyValue H (hleft r) hnext
    · exact passes_recover H (hleft r) hnext
    · exact passes_strayComma (hleft r) hnext expected
    · exact passes_skipToken H (hleft r) hnext
  · exact (passes_list (valuesPass _ _) (hleft r) c separated).finishes_keeps
  · exact (passes_skip (valuesPass _ _) (hleft r)).finishes_keeps
  · exact (passes_tooDeep (hleft r) hopener).finishes_advances

/-- Behind a colon in an object, in front of a blank, an array without a closer and a plus sign: its
value is read, and would be read past if arrays could not be nested there. -/
theorem steps_advance_in_open_array :
    let tokens : List Token := [⟨.whitespace, ⟨3, 4⟩, [' ']⟩, ⟨.lBracket, ⟨4, 5⟩, ['[']⟩,
      ⟨.badCharacter, ⟨5, 6⟩, ['+']⟩, ⟨.number, ⟨6, 7⟩, ['1']⟩]
    let r : Reader := ⟨⟨tokens, 7, 3⟩, [(.keyValue, [])], [], [], [.object]⟩
    r.next.kind ≠ .eof ∧
      Job.value ∈ [Job.value, .keyValue, .recover, .strayComma .key, .skipToken] ∧
      r.next.kind.isOpener = true ∧ r.Orderly ∧ (∃ r', Runs [.value] r (.ok r') ∧ Advances r r') ∧
      Finishes Advances .tooDeep r := by
  intro tokens r
  have hnext : r.next.kind ≠ .eof := by decide
  have horder : r.Orderly := by
    show InOrder _
    decide
  refine ⟨hnext, List.mem_cons_self, rfl, horder, ?_, ?_⟩
  · rcases steps_advance.1 r .key hnext .value List.mem_cons_self with h | ⟨hdisorder, -⟩
    · exact h
    · exact absurd horder hdisorder
  · exact (steps_advance.2.1 r .array true).2.2 rfl

/-- A reader in the innermost of as many arrays as can be nested, at the beginning of its list and
in front of one more opener. The closer behind that claims to end where the opener does not begin
yet. -/
def deepReader : Reader where
  stream := ⟨[⟨.lBracket, ⟨300, 301⟩, ['[']⟩, ⟨.rBracket, ⟨256, 257⟩, [']']⟩], 301, 256⟩
  nodes := (List.replicate Container.maxDepth
    [(.items, []), (.array, [.leaf (.token .lBracket) ['[']]), (.value, [])]).flatten ++
      [(.file, [])]
  roots := []
  errors := []
  enclosing := List.replicate Container.maxDepth .array

/-- Where tokens are out of order, a value in a list need not be read: the fault is the range of
what is nested too deep, which would end in front of its start. -/
theorem value_faults_of_disorder :
    deepReader.next.kind ≠ .eof ∧ deepReader.atContainerEnd = false ∧
      deepReader.element .array = .value ∧ ¬ ∃ r', Runs [.value] deepReader (.ok r') := by
  let opener : Lexeme := ⟨[], ⟨.lBracket, ⟨300, 301⟩, ['[']⟩⟩
  let closer : Lexeme := ⟨[], ⟨.rBracket, ⟨256, 257⟩, [']']⟩⟩
  let z : Ending := ⟨[], [], 301, by simp, by simp⟩
  let p : Point := ⟨List.replicate Container.maxDepth .array, 256, false, [opener, closer]⟩
  have hvalid : p.Valid := by
    intro l hl
    have hl : l = opener ∨ l = closer := by simpa [p] using hl
    rcases hl with rfl | rfl <;> simp [Lexeme.Valid, Lexeme.kind, opener, closer] <;> decide
  have htakes := (takes_tooDeep (z := z) (p := p) (l := opener) rfl rfl (by simp [p])).2 hvalid
  have hrun : Runs [.value] deepReader (.error (.reversedRange 300 257)) :=
    htakes .items [] deepReader.nodes.tail [] [] [] (.ok _) .done
  have hnext : deepReader.next.kind = .lBracket := rfl
  have hend : deepReader.atContainerEnd = false := by
    rw [atContainerEnd, hnext, deepReader, closesAny, List.any_replicate]
    rfl
  refine ⟨by decide, hend, rfl, ?_⟩
  rintro ⟨r', hr'⟩
  have hsame := hr'.unique hrun
  simp at hsame

end Maml.Reader
