import Maml.Proofs.Ranges
import Maml.Proofs.Taking

/-! Jobs that come to an end with the context they began in, from any state of a reader.

1. `Hands` says that a stream has handed out tokens. What a reader sees is a matter of the
   significant ones that are left (`exists_remaining`, `exists_remaining_second`).
2. `Leads` says that jobs lead from one reader to another, whatever is still to be done behind them:
   they take the next significant tokens and add mistakes to those noted before.
3. `Restores` says besides that the containers and the nodes that were open are open again, and
   `Passes` that jobs do so from a reader. That is closed under doing one thing after another
   (`Passes.append`), under nodes (`passes_node`) and under containers (`passes_within`).
4. A loop comes to an end if each of its turns ends it or takes a token (`passes_of_turns`). -/
namespace Maml.Reader

open Draft

/-! ## Tokens handed out -/

/-- Whether a stream has handed out significant tokens in front of the end of the input, with trivia
in any place. -/
structure Hands (s : TokenStream) (taken : List Token) (s' : TokenStream) : Prop where
  significant_eq : s.rest.filter (!·.isTrivia) = taken ++ s'.rest.filter (!·.isTrivia)
  ne_eof : ∀ t ∈ taken, t.kind ≠ .eof
  rest_suffix : s'.rest <:+ s.rest
  lastEnd_cases : (taken = [] ∧ s'.lastEnd = s.lastEnd) ∨ ∃ t ∈ taken, s'.lastEnd = t.span.stop

theorem Hands.refl (s : TokenStream) : Hands s [] s :=
  ⟨rfl, by simp, List.suffix_rfl, .inl ⟨rfl, rfl⟩⟩

theorem Hands.trans {s s' s'' : TokenStream} {taken taken' : List Token} (h : Hands s taken s')
    (h' : Hands s' taken' s'') : Hands s (taken ++ taken') s'' := by
  refine ⟨?_, ?_, h'.rest_suffix.trans h.rest_suffix, ?_⟩
  · rw [h.significant_eq, h'.significant_eq, List.append_assoc]
  · intro t ht
    rcases List.mem_append.mp ht with ht | ht
    · exact h.ne_eof t ht
    · exact h'.ne_eof t ht
  · rcases h'.lastEnd_cases with ⟨rfl, hlast'⟩ | ⟨t, ht, hlast'⟩
    · rw [List.append_nil, hlast']
      exact h.lastEnd_cases
    · exact .inr ⟨t, List.mem_append_right _ ht, hlast'⟩

theorem hands_trivia {t : Token} (ht : t.isTrivia = true) (rest : List Token) (stop lastEnd : Nat) :
    Hands ⟨t :: rest, stop, lastEnd⟩ [] ⟨rest, stop, lastEnd⟩ :=
  ⟨by simp [ht], by simp, List.suffix_cons t rest, .inl ⟨rfl, rfl⟩⟩

theorem hands_token {t : Token} (ht : t.isTrivia = false) (hne : t.kind ≠ .eof) (rest : List Token)
    (stop lastEnd : Nat) :
    Hands ⟨t :: rest, stop, lastEnd⟩ [t] ⟨rest, stop, t.span.stop⟩ :=
  ⟨by simp [ht], by simpa using hne, List.suffix_cons t rest, .inr ⟨t, List.mem_cons_self, rfl⟩⟩

/-! ## What is left -/

/-- The significant tokens that a reader has not taken. -/
def remaining (r : Reader) : List Token := r.stream.rest.filter (!·.isTrivia)

/-- Whether the significant tokens that a reader has not taken are in order, up to the end of the
input. -/
def Orderly (r : Reader) : Prop := InOrder (r.remaining.takeWhile (·.kind != .eof))

section
variable {r r' : Reader}

theorem next_of_remaining {t : Token} {ts : List Token} (h : r.remaining = t :: ts) :
    r.next = t := by
  show r.remaining[0]?.getD _ = t
  rw [h]
  rfl

theorem second_of_remaining {t u : Token} {ts : List Token} (h : r.remaining = t :: u :: ts) :
    r.second = u := by
  show r.remaining[1]?.getD _ = u
  rw [h]
  rfl

theorem exists_remaining (h : r.next.kind ≠ .eof) : ∃ ts, r.remaining = r.next :: ts := by
  cases hr : r.remaining with
  | nil =>
    have hnext : r.next = .eof r.stream.stop := by
      show r.remaining[0]?.getD _ = _
      rw [hr]
      rfl
    exact absurd (by rw [hnext]; rfl) h
  | cons t ts => exact ⟨ts, by rw [next_of_remaining hr]⟩

/-- What is left decides which token is next. -/
theorem next_eq_of_remaining (hr' : r'.remaining = r.remaining) (hnext : r.next.kind ≠ .eof) :
    r'.next = r.next := by
  obtain ⟨ts, hts⟩ := exists_remaining hnext
  exact next_of_remaining (hr'.trans hts)

theorem exists_remaining_second (h : r.second.kind ≠ .eof) :
    ∃ ts, r.remaining = r.next :: r.second :: ts := by
  have hend : r.remaining[1]? = none → False := by
    intro hnone
    have hsecond : r.second = .eof r.stream.stop := by
      show r.remaining[1]?.getD _ = _
      rw [hnone]
      rfl
    exact h (by rw [hsecond]; rfl)
  cases hr : r.remaining with
  | nil => exact absurd (by rw [hr]; rfl) hend
  | cons t ts =>
    cases ts with
    | nil => exact absurd (by rw [hr]; rfl) hend
    | cons u ts => exact ⟨ts, by rw [next_of_remaining hr, second_of_remaining hr]⟩

theorem Orderly.ordered_next (h : r.Orderly) (hnext : r.next.kind ≠ .eof) :
    r.next.span.Ordered := by
  obtain ⟨ts, hr⟩ := exists_remaining hnext
  rw [Orderly, hr, List.takeWhile_cons, if_pos (by simpa using hnext)] at h
  exact h.1

theorem remaining_of_hands {taken : List Token} (h : Hands r.stream taken r'.stream) :
    r.remaining = taken ++ r'.remaining := h.significant_eq

theorem length_remaining_of_hands {taken : List Token} (h : Hands r.stream taken r'.stream) :
    r.remaining.length = taken.length + r'.remaining.length := by
  rw [remaining_of_hands h, List.length_append]

theorem Orderly.of_hands (h : r.Orderly) {taken : List Token}
    (hhands : Hands r.stream taken r'.stream) : InOrder taken ∧ r'.Orderly := by
  have hno : ∀ t ∈ taken, (t.kind != .eof) = true := fun t ht => by simpa using hhands.ne_eof t ht
  rw [Orderly, remaining_of_hands hhands, List.takeWhile_append_of_pos hno] at h
  exact h.of_append

theorem Orderly.start_le_lastEnd (h : r.Orderly) {taken : List Token}
    (hhands : Hands r.stream taken r'.stream) (htaken : taken ≠ []) :
    r.next.span.start ≤ r'.stream.lastEnd := by
  have horder := (h.of_hands hhands).1
  obtain ⟨t, ts, rfl⟩ := List.exists_cons_of_ne_nil htaken
  rcases hhands.lastEnd_cases with ⟨hnil, -⟩ | ⟨u, hu, hlast⟩
  · exact absurd hnil htaken
  · rw [next_of_remaining (remaining_of_hands hhands), hlast]
    exact horder.start_le_stop hu

end

/-! ## Jobs -/

/-- Whether jobs lead from one reader to another, whatever is still to be done behind them. The
mistakes that they note come behind those noted before; the first of them with a reversed range is a
fault. There is none if `o` holds. -/
structure Leads (o : Prop) (jobs : List Job) (r : Reader) (taken : List Token) (r' : Reader) :
    Prop where
  hands : Hands r.stream taken r'.stream
  runs : ∃ es, r'.errors = r.errors ++ es ∧ (o → ∀ e ∈ es, e.range.Ordered) ∧
    ∀ more out, Runs more r' out → Runs (jobs ++ more) r (refused es out)

section
variable {o : Prop} {jobs jobs' : List Job} {r q r' r'' : Reader} {taken taken' : List Token}

theorem leads_nil (o : Prop) (r : Reader) : Leads o [] r [] r :=
  ⟨.refl _, [], by simp, by simp, fun _ _ hout => hout⟩

theorem Leads.append (h : Leads o jobs r taken r') (h' : Leads o jobs' r' taken' r'') :
    Leads o (jobs ++ jobs') r (taken ++ taken') r'' := by
  obtain ⟨es, herrors, hordered, hrun⟩ := h.runs
  obtain ⟨es', herrors', hordered', hrun'⟩ := h'.runs
  refine ⟨h.hands.trans h'.hands, es ++ es', ?_, ?_, ?_⟩
  · rw [herrors', herrors, List.append_assoc]
  · intro ho e he
    rcases List.mem_append.mp he with he | he
    · exact hordered ho e he
    · exact hordered' ho e he
  · intro more out hout
    rw [List.append_assoc, refused_append]
    exact hrun _ _ (hrun' _ _ hout)

theorem leads_step {job : Job} (hjob : perform r job = .ok (q, jobs))
    (hhands : Hands r.stream taken q.stream) (herrors : q.errors = r.errors)
    (h : Leads o jobs q taken' r') : Leads o [job] r (taken ++ taken') r' := by
  obtain ⟨es, herrors', hordered, hrun⟩ := h.runs
  refine ⟨hhands.trans h.hands, es, ?_, hordered, ?_⟩
  · rw [herrors', herrors]
  · intro more out hout
    exact .step q jobs hjob (hrun more out hout)

theorem leads_still {job : Job} (hjob : perform r job = .ok (q, jobs))
    (hstream : q.stream = r.stream) (herrors : q.errors = r.errors)
    (h : Leads o jobs q taken r') : Leads o [job] r taken r' := by
  have hhands : Hands r.stream [] q.stream := by
    rw [hstream]
    exact .refl _
  exact leads_step hjob hhands herrors h

theorem leads_report {job : Job} {expected : Expected} {found : Token} {range : Span}
    (hjob : perform r job = (r.report expected found range).bind fun r => .ok (r, jobs))
    (hrange : o → range.Ordered)
    (h : Leads o jobs { r with errors := r.errors ++ [.ofToken expected found range] } taken r') :
    Leads o [job] r taken r' := by
  obtain ⟨es, herrors, hordered, hrun⟩ := h.runs
  refine ⟨h.hands, .ofToken expected found range :: es, ?_, ?_, ?_⟩
  · rw [herrors, List.append_assoc, List.singleton_append]
  · intro ho e he
    rcases List.mem_cons.mp he with rfl | he
    · exact hrange ho
    · exact hordered ho e he
  · intro more out hout
    exact runs_report hjob (hrun more out hout)

/-! ## Context -/

def openKinds (r : Reader) : List NodeKind := r.nodes.map Prod.fst

@[simp] theorem stream_add (r : Reader) (t : Tree) : (r.add t).stream = r.stream := by
  unfold add
  split <;> rfl

@[simp] theorem errors_add (r : Reader) (t : Tree) : (r.add t).errors = r.errors := by
  unfold add
  split <;> rfl

@[simp] theorem enclosing_add (r : Reader) (t : Tree) : (r.add t).enclosing = r.enclosing := by
  unfold add
  split <;> rfl

@[simp] theorem openKinds_add (r : Reader) (t : Tree) : (r.add t).openKinds = r.openKinds := by
  unfold add openKinds
  split
  · rename_i h
    rw [h]
    rfl
  · rfl

/-- Whether jobs lead from one reader to another in which the same containers and nodes are open. -/
structure Restores (o : Prop) (jobs : List Job) (r : Reader) (taken : List Token) (r' : Reader) :
    Prop extends Leads o jobs r taken r' where
  enclosing_eq : r'.enclosing = r.enclosing
  openKinds_eq : r'.openKinds = r.openKinds

theorem restores_nil (o : Prop) (r : Reader) : Restores o [] r [] r := ⟨leads_nil o r, rfl, rfl⟩

theorem Restores.append (h : Restores o jobs r taken r') (h' : Restores o jobs' r' taken' r'') :
    Restores o (jobs ++ jobs') r (taken ++ taken') r'' :=
  ⟨h.toLeads.append h'.toLeads, h'.enclosing_eq.trans h.enclosing_eq,
    h'.openKinds_eq.trans h.openKinds_eq⟩

/-- Whether jobs lead from a reader to one with the same context, by taking tokens of which `P`
holds. -/
def Passes (o : Prop) (P : List Token → Prop) (jobs : List Job) (r : Reader) : Prop :=
  ∃ taken r', Restores o jobs r taken r' ∧ P taken

variable {P Q : List Token → Prop}

theorem passes_nil (h : P []) : Passes o P [] r := ⟨[], r, restores_nil o r, h⟩

theorem Passes.mono (h : Passes o P jobs r) (hPQ : ∀ taken, P taken → Q taken) :
    Passes o Q jobs r := by
  obtain ⟨taken, r', hr', htaken⟩ := h
  exact ⟨taken, r', hr', hPQ _ htaken⟩

theorem Passes.append (h : Passes o P jobs r)
    (h' : ∀ taken q, Restores o jobs r taken q → P taken →
      Passes o (fun taken' => Q (taken ++ taken')) jobs' q) : Passes o Q (jobs ++ jobs') r := by
  obtain ⟨taken, q, hq, htaken⟩ := h
  obtain ⟨taken', r', hr', htaken'⟩ := h' taken q hq htaken
  exact ⟨taken ++ taken', r', hq.append hr', htaken'⟩

theorem Passes.ends (h : Passes o P jobs r) : Passes o (fun _ => True) jobs r :=
  h.mono fun _ _ => trivial

theorem Passes.takes_token {t : Token} (h : Passes o (· = [t]) jobs r) :
    Passes o (· ≠ []) jobs r :=
  h.mono fun _ htaken => by simp [htaken]

/-- Behind jobs that take a token, others only need to come to an end. -/
theorem Passes.followed (h : Passes o (· ≠ []) jobs r)
    (h' : ∀ taken q, Restores o jobs r taken q → taken ≠ [] →
      Passes o (fun _ => True) jobs' q) : Passes o (· ≠ []) (jobs ++ jobs') r :=
  h.append fun taken q hq htaken => (h' taken q hq htaken).mono fun _ _ => by simp [htaken]

theorem passes_job {job : Job} (jobs : List Job) (hjob : perform r job = .ok (r, jobs))
    (h : Passes o P jobs r) : Passes o P [job] r := by
  obtain ⟨taken, r', hr', htaken⟩ := h
  exact ⟨taken, r', ⟨leads_still hjob rfl rfl hr'.toLeads, hr'.enclosing_eq, hr'.openKinds_eq⟩,
    htaken⟩

theorem passes_done {job : Job} (hjob : perform r job = .ok (r, [])) :
    Passes o (fun _ => True) [job] r :=
  passes_job [] hjob (passes_nil trivial)

theorem passes_report {job : Job} (jobs : List Job) {expected : Expected} {found : Token}
    {range : Span}
    (hjob : perform r job = (r.report expected found range).bind fun r => .ok (r, jobs))
    (hrange : o → range.Ordered) (h : ∀ errors, Passes o P jobs { r with errors }) :
    Passes o P [job] r := by
  obtain ⟨taken, r', hr', htaken⟩ := h (r.errors ++ [.ofToken expected found range])
  exact ⟨taken, r', ⟨leads_report hjob hrange hr'.toLeads, hr'.enclosing_eq, hr'.openKinds_eq⟩,
    htaken⟩

/-! ## Tokens, nodes and containers -/

/-- Pending trivia is handed over, and nothing else is. -/
theorem exists_restores_trivia (o : Prop) (r : Reader) :
    ∃ r', Restores o [.trivia] r [] r' ∧ ∀ t ∈ r'.stream.rest.head?, t.isTrivia = false := by
  obtain ⟨⟨rest, stop, lastEnd⟩, nodes, roots, errors, enclosing⟩ := r
  -- the induction is on the tokens left; what is handed over grows the open node
  induction rest generalizing nodes roots with
  | nil =>
    exact ⟨_, ⟨leads_still rfl rfl rfl (leads_nil o _), rfl, rfl⟩, by simp⟩
  | cons t rest ih =>
    cases ht : t.isTrivia with
    | false =>
      have hjob : perform ⟨⟨t :: rest, stop, lastEnd⟩, nodes, roots, errors, enclosing⟩ .trivia =
          .ok (⟨⟨t :: rest, stop, lastEnd⟩, nodes, roots, errors, enclosing⟩, []) := by
        simp [perform, TokenStream.nextTrivia?, ht]
      exact ⟨_, ⟨leads_still hjob rfl rfl (leads_nil o _), rfl, rfl⟩, by simpa using ht⟩
    | true =>
      let q := add ⟨⟨rest, stop, lastEnd⟩, nodes, roots, errors, enclosing⟩ (tokenLeaf t)
      have hjob : perform ⟨⟨t :: rest, stop, lastEnd⟩, nodes, roots, errors, enclosing⟩ .trivia =
          .ok (q, [.trivia]) := by
        simp [perform, TokenStream.nextTrivia?, ht, q]
      have hq : ∃ nodes' roots',
          q = ⟨⟨rest, stop, lastEnd⟩, nodes', roots', errors, enclosing⟩ := by
        cases nodes <;> exact ⟨_, _, rfl⟩
      obtain ⟨nodes', roots', hnodes⟩ := hq
      obtain ⟨r', hr', hhead⟩ := ih nodes' roots'
      rw [← hnodes] at hr'
      have hhands : Hands ⟨t :: rest, stop, lastEnd⟩ [] q.stream := by
        rw [stream_add]
        exact hands_trivia ht rest stop lastEnd
      exact ⟨r', ⟨leads_step hjob hhands (errors_add _ _) hr'.toLeads,
        hr'.enclosing_eq.trans (enclosing_add _ _), hr'.openKinds_eq.trans (openKinds_add _ _)⟩,
        hhead⟩

theorem Leads.remaining_eq (h : Leads o jobs r [] r') : r'.remaining = r.remaining :=
  (remaining_of_hands h.hands).symm

theorem passes_bump {t : Token} {ts : List Token} (hr : r.remaining = t :: ts)
    (ht : t.kind ≠ .eof) : Passes o (· = [t]) Job.bump r := by
  obtain ⟨q, hq, hhead⟩ := exists_restores_trivia o r
  have hremaining : q.remaining = t :: ts := hq.remaining_eq.trans hr
  obtain ⟨⟨rest, stop, lastEnd⟩, nodes, roots, errors, enclosing⟩ := q
  -- no trivia is in front any more, so the next token is the next significant one
  have hrest : ∃ us, rest = t :: us ∧ t.isTrivia = false := by
    cases rest with
    | nil => simp [remaining] at hremaining
    | cons u us =>
      have hu : u.isTrivia = false := hhead u rfl
      have hcons : u :: us.filter (!·.isTrivia) = t :: ts := by
        simpa [remaining, hu] using hremaining
      obtain ⟨rfl, -⟩ := List.cons.inj hcons
      exact ⟨us, rfl, hu⟩
  obtain ⟨us, rfl, htrivia⟩ := hrest
  let r' := add ⟨⟨us, stop, t.span.stop⟩, nodes, roots, errors, enclosing⟩ (tokenLeaf t)
  have hjob : perform ⟨⟨t :: us, stop, lastEnd⟩, nodes, roots, errors, enclosing⟩ .token =
      .ok (r', []) := by
    have hbump : TokenStream.bump ⟨t :: us, stop, lastEnd⟩ = .ok (t, ⟨us, stop, t.span.stop⟩) := by
      simp [TokenStream.bump, htrivia]
    simp only [perform, token, hbump]
    rfl
  have hhands : Hands ⟨t :: us, stop, lastEnd⟩ [t] r'.stream := by
    rw [stream_add]
    exact hands_token htrivia ht us stop lastEnd
  have htoken := leads_step hjob hhands (errors_add _ _) (leads_nil o r')
  exact ⟨[t], r', hq.append ⟨htoken, enclosing_add _ _, openKinds_add _ _⟩, rfl⟩

theorem passes_bump_next (hq : q.remaining = r.remaining) (hnext : r.next.kind ≠ .eof) :
    Passes o (· = [r.next]) Job.bump q := by
  obtain ⟨ts, hts⟩ := exists_remaining hnext
  exact passes_bump (hq.trans hts) hnext

/-- A node is closed again once what is in it is done. -/
theorem passes_node (kind : NodeKind)
    (h : ∀ q : Reader, q.remaining = r.remaining → q.enclosing = r.enclosing → Passes o P jobs q) :
    Passes o P (Job.node kind jobs) r := by
  obtain ⟨q, hq, -⟩ := exists_restores_trivia o r
  obtain ⟨taken, r', hr', htaken⟩ := h (q.start kind) hq.remaining_eq hq.enclosing_eq
  have hstart : Leads o [.start kind] q [] (q.start kind) :=
    leads_still rfl rfl rfl (leads_nil o _)
  -- the node that was opened is the innermost one again
  obtain ⟨parts, outer, hnodes, houter⟩ : ∃ parts outer, r'.nodes = (kind, parts) :: outer ∧
      outer.map Prod.fst = q.openKinds := by
    have hkinds : r'.nodes.map Prod.fst = kind :: q.openKinds := hr'.openKinds_eq
    obtain ⟨⟨kind', parts⟩, outer, hnodes, hkind, houter⟩ := List.map_eq_cons_iff.mp hkinds
    obtain rfl : kind' = kind := hkind
    exact ⟨parts, outer, hnodes, houter⟩
  let r'' := add { r' with nodes := outer } (.node (.node kind) parts)
  have hjob : perform r' .finish = .ok (r'', []) := by
    simp only [perform, finish, hnodes]
    rfl
  have hfinish : Leads o [.finish] r' [] r'' :=
    leads_still hjob (stream_add _ _) (errors_add _ _) (leads_nil o r'')
  have hleads := ((hq.toLeads.append hstart).append hr'.toLeads).append hfinish
  refine ⟨taken, r'', ⟨?_, ?_, ?_⟩, htaken⟩
  · simpa [Job.node] using hleads
  · rw [enclosing_add]
    exact hr'.enclosing_eq.trans hq.enclosing_eq
  · rw [openKinds_add]
    exact houter.trans hq.openKinds_eq

/-- A container is not open any more once what is in it is done. -/
theorem passes_within (c : Container)
    (h : ∀ q : Reader, q.remaining = r.remaining → Passes o P jobs q) :
    Passes o P (.enter c :: (jobs ++ [.leave])) r := by
  obtain ⟨taken, r', hr', htaken⟩ := h { r with enclosing := c :: r.enclosing } rfl
  have henter : Leads o [.enter c] r [] { r with enclosing := c :: r.enclosing } :=
    leads_still rfl rfl rfl (leads_nil o _)
  have hleave : Leads o [.leave] r' [] { r' with enclosing := r'.enclosing.tail } :=
    leads_still rfl rfl rfl (leads_nil o _)
  have hleads := (henter.append hr'.toLeads).append hleave
  refine ⟨taken, { r' with enclosing := r'.enclosing.tail }, ⟨?_, ?_, hr'.openKinds_eq⟩, htaken⟩
  · simpa using hleads
  · exact congrArg List.tail hr'.enclosing_eq

/-! ## Loops -/

/-- Whether a reader has at most so many significant tokens left, in order if `o` holds. -/
structure HasLeft (o : Prop) (n : Nat) (r : Reader) : Prop where
  length_le : r.remaining.length ≤ n
  orderly : o → r.Orderly

variable {n : Nat}

theorem HasLeft.of_remaining (h : HasLeft o n r) (hq : q.remaining = r.remaining) :
    HasLeft o n q :=
  ⟨by rw [hq]; exact h.length_le, fun ho => by
    rw [Orderly, hq]
    exact h.orderly ho⟩

theorem HasLeft.behind (h : HasLeft o n r) (hr' : Leads o jobs r taken r') : HasLeft o n r' := by
  refine ⟨?_, fun ho => ((h.orderly ho).of_hands hr'.hands).2⟩
  have hsplit := length_remaining_of_hands hr'.hands
  have hlen := h.length_le
  omega

theorem HasLeft.behind_token (h : HasLeft o (n + 1) r) (hr' : Leads o jobs r taken r')
    (htaken : taken ≠ []) : HasLeft o n r' := by
  refine ⟨?_, fun ho => ((h.orderly ho).of_hands hr'.hands).2⟩
  have hsplit := length_remaining_of_hands hr'.hands
  have hpos := List.length_pos_iff.mpr htaken
  have hlen := h.length_le
  omega

/-- A loop comes to an end if each of its turns either ends it or takes a token and leaves another
turn. -/
theorem passes_of_turns (IsTurn : Job → Prop)
    (hturn : ∀ (turn : Job) (r : Reader), IsTurn turn → HasLeft o n r →
      Passes o (fun _ => True) [turn] r ∨
      ∃ jobs next, IsTurn next ∧ Passes o (· ≠ []) jobs r ∧
        (Passes o (fun _ => True) (jobs ++ [next]) r → Passes o (fun _ => True) [turn] r))
    {turn : Job} (hjob : IsTurn turn) (hr : HasLeft o n r) :
    Passes o (fun _ => True) [turn] r := by
  -- the tokens that are left become fewer with every turn
  induction hlen : r.remaining.length using Nat.strongRecOn generalizing turn r with
  | ind m ih =>
    rcases hturn turn r hjob hr with h | ⟨jobs, next, hnext, hjobs, hmore⟩
    · exact h
    · refine hmore (hjobs.append fun taken q hq htaken => ?_)
      have hsplit := length_remaining_of_hands hq.hands
      have hpos := List.length_pos_iff.mpr htaken
      exact ih _ (by omega) hnext (hr.behind hq.toLeads) rfl

end

end Maml.Reader
