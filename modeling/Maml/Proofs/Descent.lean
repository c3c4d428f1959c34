import Maml.Proofs.Containers

/-! A reader makes the drafts of its input.

1. Each job takes what the definition of its draft takes from the pieces, in the same
   order (`takes_value`, `takes_skip`, `takes_memberValue`, `takes_member`), and so do
   the lists (`takes_items`, `takes_members`).
2. All of this is said of readers that take the containers among the pieces
   (`TakesContainers`). By induction on the lexemes that are left, every reader does
   (`takesContainers`). -/
namespace Maml.Reader

open Draft

variable {z : Ending} {p : Point} {nodes : List (NodeKind × List Tree)} {roots : List Tree}
  {errors : List ParseError} {ds : List Draft} {rest : List Lexeme}

/-! ## Values among pieces -/

/-- Whether readers take containers with fewer than a number of lexemes behind their openers as the
pairing of brackets makes them. -/
def TakesContainers (z : Ending) (n : Nat) : Prop :=
  ∀ (p : Point) (c : Container) (l : Lexeme) (ls : List Lexeme), p.lexemes = l :: ls →
    ls.length < n → l.kind.opens? = some c →
    Takes z p [.value] [(pieceAt z.eof p.enclosing l ls).1]
      (errorsList [(pieceAt z.eof p.enclosing l ls).1]) (pieceAt z.eof p.enclosing l ls).2

section
variable {n : Nat} {d : Draft}

theorem takes_node_piece (H : TakesContainers z n) (hlen : p.lexemes.length ≤ n) {c : Container}
    {l : Lexeme} {ls : List Lexeme} (hp : p.lexemes = l :: ls) (ho : l.kind.opens? = some c)
    (hd : (pieceAt z.eof p.enclosing l ls).1 = d) :
    Takes z p [.value] [d] (errorsList [d]) (pieceAt z.eof p.enclosing l ls).2 := by
  have h := H p c l ls hp (by rw [hp, List.length_cons] at hlen; omega) ho
  rwa [hd] at h

theorem takes_asValue (H : TakesContainers z n) (hlen : p.lexemes.length ≤ n)
    (h : Ahead z.eof p.enclosing p.lexemes (d :: ds) rest) (hd : d.startsValue = true) :
    ∃ mid, Takes z p [.value] [d.asValue] (errorsList [d.asValue]) mid ∧
      Ahead z.eof p.enclosing mid ds rest := by
  rcases h.cons_cases with ⟨l, ls, hp, rfl, _, hmore⟩ | ⟨c, l, ls, first, hp, ho, hpiece, rfl, hmore⟩
  · have hl : l.kind.isScalar = true := hd
    have hsingle : (leaf l).asValue = plain .value (leaf l) [] := by
      rw [asValue, single, if_pos hl]
    rw [hsingle]
    exact ⟨ls, takes_scalar hp hl, hmore⟩
  · exact ⟨_, takes_node_piece H hlen hp ho hpiece, hmore⟩

theorem takes_value (H : TakesContainers z n) (hlen : p.lexemes.length ≤ n)
    (h : Ahead z.eof p.enclosing p.lexemes (d :: ds) rest) :
    ∃ mid, Takes z p [.value] [(valueAt d ds).1] (errorsList [(valueAt d ds).1]) mid ∧
      Ahead z.eof p.enclosing mid (valueAt d ds).2 rest := by
  rcases h.cons_cases with ⟨l, ls, hp, rfl, ho, hmore⟩ | ⟨c, l, ls, first, hp, ho, hpiece, rfl, hmore⟩
  · generalize hd : leaf l = d
    cases valueRule d ds with
    | @signed plus number ds' hsigned =>
      obtain rfl := Draft.leaf.inj hd
      rcases hmore.cons_cases with ⟨l', ls', rfl, hl', _, hmore'⟩ | ⟨_, _, _, _, _, _, _, hplain, _⟩
      · obtain rfl : number = l' := by simpa using hl'
        rw [valueAt_signed _ hsigned]
        exact ⟨ls', takes_signed hp hsigned, hmore'⟩
      · simp [plain] at hplain
    | alone hsigned =>
      rw [valueAt_alone hsigned, ← hd]
      refine ⟨ls, takes_single hp ho (isSignedNumber_nextOf hmore ?_), hmore⟩
      rintro number ds' rfl
      exact hsigned l number hd.symm rfl
  · exact ⟨_, takes_node_piece H hlen hp ho hpiece, hmore⟩

/-! ## Lists -/

theorem Takes.length_le {jobs : List Job} {es : List ParseError} {mid : List Lexeme}
    (h : Takes z p jobs ds es mid) : mid.length ≤ p.lexemes.length := by
  rw [h.1, List.length_append]
  exact Nat.le_add_left _ _

theorem takes_strayComma {l : Lexeme} {ls : List Lexeme} (hp : p.lexemes = l :: ls)
    (expected : Expected) :
    Takes z p [.strayComma expected] [strayComma expected (leaf l)]
      (errorsList [strayComma expected (leaf l)]) ls := by
  apply takes_report (Job.node .error Job.bump) ?_
    (takes_node .error _ none (takes_bump hp))
  intro hv _ _ _
  simp only [perform, next_of_cons hv hp]
  rfl

theorem takes_list_nil (c : Container) (sep : Bool)
    (h : Ahead z.eof p.enclosing p.lexemes [] rest) : Takes z p [.list c sep] [] [] rest := by
  obtain rfl := h.eq_of_nil
  apply takes_job [] ?_ (takes_nil z p)
  intro hv _ _ _
  rw [perform, atContainerEnd_reader hv h]
  rfl

/-- A comma is stray if another one or the opener is directly in front of it. -/
theorem takes_list_comma {c : Container} (sep : Bool) {l : Lexeme} {es : List Draft}
    (hl : l.kind = .comma) (h : Ahead z.eof p.enclosing p.lexemes (leaf l :: ds) rest)
    (hmore : ∀ q : Point, q.enclosing = p.enclosing → q.lexemes.length ≤ p.lexemes.length →
      Ahead z.eof q.enclosing q.lexemes ds rest →
      Takes z q [.list c (!sep)] es (errorsList es) rest) :
    Takes z p [.list c sep] ((if sep then strayComma c.expectedElement (leaf l) else leaf l) :: es)
      (errorsList ((if sep then strayComma c.expectedElement (leaf l) else leaf l) :: es)) rest := by
  rcases h.cons_cases with ⟨l', ls, hp, hl', _, hahead⟩ | ⟨_, _, _, _, _, _, _, hplain, _⟩
  · obtain rfl : l = l' := by simpa using hl'
    have hcomma : l.token.kind = .comma := hl
    have hlen : ls.length ≤ p.lexemes.length := by rw [hp]; exact Nat.le_succ _
    cases sep with
    | true =>
      -- the job behind it starts over as if an element had been read
      apply takes_job [.strayComma c.expectedElement, .list c false] ?_
        ((takes_strayComma hp c.expectedElement).append_drafts
          (hmore (p.behind _ ls) rfl hlen hahead))
      intro hv _ _ _
      rw [perform, atContainerEnd_reader hv h, next_of_cons hv hp, hcomma]
      rfl
    | false =>
      apply takes_job (Job.bump ++ [.list c true]) ?_
        ((takes_leaf hp).append_drafts (hmore (p.behind _ ls) rfl hlen hahead))
      intro hv _ _ _
      rw [perform, atContainerEnd_reader hv h, next_of_cons hv hp, hcomma]
      rfl
  · simp [plain] at hplain

theorem takes_list_element {c : Container} {sep : Bool} {job : Job} {es es' : List Draft}
    {mid : List Lexeme} (hc : d.isToken .comma = false)
    (h : Ahead z.eof p.enclosing p.lexemes (d :: ds) rest)
    (hjob : p.Valid → ∀ nodes roots errors, (p.reader z nodes roots errors).element c = job)
    (helement : Takes z p [job] es (errorsList es) mid)
    (hmore : Takes z (p.behind es mid) [.list c false] es' (errorsList es') rest) :
    Takes z p [.list c sep] (es ++ es') (errorsList (es ++ es')) rest := by
  apply takes_job [job, .list c false] ?_
    (helement.append_drafts hmore)
  intro hv _ _ _
  rw [perform, atContainerEnd_reader hv h, next_reader_beq hv h rfl, hc, hjob hv]
  rfl

theorem takes_items (H : TakesContainers z n) (sep : Bool) (hlen : p.lexemes.length ≤ n)
    (h : Ahead z.eof p.enclosing p.lexemes ds rest) :
    Takes z p [.list .array sep] (items sep ds) (errorsList (items sep ds)) rest := by
  induction sep, ds using items_induction generalizing p with
  | nil sep =>
    rw [items_nil]
    exact takes_list_nil .array sep h
  | stray comma ds hc ih =>
    rw [items_stray hc]
    exact takes_list_comma true hc h fun q _ hle hahead => ih (Nat.le_trans hle hlen) hahead
  | comma comma ds hc ih =>
    rw [items_comma hc]
    exact takes_list_comma false hc h fun q _ hle hahead => ih (Nat.le_trans hle hlen) hahead
  | item sep d ds hc ih =>
    rw [items_cons hc]
    obtain ⟨mid, hvalue, hahead⟩ := takes_value H hlen h
    exact takes_list_element hc h (fun _ _ _ _ => rfl) hvalue
      (@ih (p.behind [(valueAt d ds).1] mid) (Nat.le_trans hvalue.length_le hlen) hahead)

/-! ## Skipping -/

theorem takes_skipValue (H : TakesContainers z n) (hlen : p.lexemes.length ≤ n) {colon : Lexeme}
    (hcolon : colon.kind = .colon) (h : Ahead z.eof p.enclosing p.lexemes ds rest) :
    ∃ mid, Takes z p [.skipValue] (skipValue (leaf colon) ds).1
      (errorsList (skipValue (leaf colon) ds).1) mid ∧
      Ahead z.eof p.enclosing mid (skipValue (leaf colon) ds).2 rest := by
  have htoken : (leaf colon).isToken .colon = true := beq_iff_eq.mpr hcolon
  have hnone : p.Valid → ds.head?.any startsValue = false →
      ∀ nodes roots errors, perform (p.reader z nodes roots errors) .skipValue =
        .ok (p.reader z nodes roots errors, []) := by
    intro hv hno nodes roots errors
    rw [perform, startsValue_next_reader hv h, hno]
    rfl
  generalize hd : leaf colon = d at htoken
  cases skipRule d ds with
  | @taken v vs _ hvalue =>
    obtain ⟨mid, htakes, hahead⟩ := takes_asValue H hlen h hvalue
    rw [skipValue_taken _ htoken hvalue]
    refine ⟨mid, takes_job _ ?_ htakes, hahead⟩
    intro hv _ _ _
    rw [perform, startsValue_next_reader hv h, List.head?_cons, Option.any_some, if_pos hvalue]
  | alone halone =>
    rw [skipValue_alone halone]
    have hno : ds.head?.any startsValue = false := by
      cases hhead : ds.head? with
      | none => rfl
      | some v => exact halone htoken v hhead
    exact ⟨_, takes_job _ (fun hv => hnone hv hno) (takes_nil z p), h⟩

theorem takes_skipToken (H : TakesContainers z n) (hlen : p.lexemes.length ≤ n)
    (h : Ahead z.eof p.enclosing p.lexemes (d :: ds) rest) :
    ∃ mid, Takes z p [.skipToken] (d :: (skipValue d ds).1) (errorsList (d :: (skipValue d ds).1))
      mid ∧ Ahead z.eof p.enclosing mid (skipValue d ds).2 rest := by
  rcases h.cons_cases with ⟨l, ls, hp, rfl, ho, hahead⟩ | ⟨c, l, ls, first, hp, ho, hpiece, rfl, hahead⟩
  · have ho : l.token.kind.isOpener = false := not_isOpener_of_opens? ho
    have hls : ls.length ≤ p.lexemes.length := by rw [hp]; exact Nat.le_succ _
    by_cases hcolon : l.kind = .colon
    · -- only a colon takes a value with it
      obtain ⟨mid, hvalue, hmore⟩ := takes_skipValue (p := p.behind [leaf l] ls) H
        (Nat.le_trans hls hlen) hcolon hahead
      refine ⟨mid, takes_job _ ?_
        ((takes_leaf hp).append_drafts hvalue), hmore⟩
      intro hv _ _ _
      have hcolon : l.token.kind = .colon := hcolon
      rw [perform, next_of_cons hv hp, hcolon]
      rfl
    · rw [skipValue_of_not_colon (d := leaf l) (beq_false_of_ne hcolon)]
      refine ⟨ls, takes_job _ ?_ (takes_bump hp), hahead⟩
      intro hv _ _ _
      have hcolon : (l.token.kind == .colon) = false := beq_false_of_ne hcolon
      rw [perform, next_of_cons hv hp, ho, hcolon]
      rfl
  · rw [skipValue_of_not_colon rfl]
    refine ⟨_, takes_job _ ?_ (takes_node_piece H hlen hp ho hpiece), hahead⟩
    intro hv _ _ _
    have ho : l.token.kind.isOpener = true := isOpener_of_opens? ho
    rw [perform, next_of_cons hv hp, if_pos ho]

theorem takes_skip (H : TakesContainers z n) (hlen : p.lexemes.length ≤ n)
    (h : Ahead z.eof p.enclosing p.lexemes ds rest) :
    ∃ mid, Takes z p [.skip] (skip ds).1 (errorsList (skip ds).1) mid ∧
      Ahead z.eof p.enclosing mid (skip ds).2 rest := by
  induction ds using skip_induction generalizing p with
  | nil =>
    rw [skip_nil]
    refine ⟨_, takes_job _ ?_ (takes_nil z p), h⟩
    intro hv _ _ _
    rw [perform, atMemberResume_reader hv h]
    rfl
  | resumes d ds hr =>
    rw [skip_of_resumesMembers hr]
    refine ⟨_, takes_job _ ?_ (takes_nil z p), h⟩
    intro hv _ _ _
    rw [perform, atMemberResume_reader hv h, List.head?_cons, Option.all_some, if_pos hr]
  | skipped d ds hr ih =>
    obtain ⟨mid, htoken, hahead⟩ := takes_skipToken H hlen h
    obtain ⟨end', hskip, hend⟩ := @ih (p.behind _ mid) (Nat.le_trans htoken.length_le hlen) hahead
    rw [skip_cons hr]
    refine ⟨end', takes_job _ ?_ (htoken.append_drafts hskip), hend⟩
    intro hv _ _ _
    rw [perform, atMemberResume_reader hv h, List.head?_cons, Option.all_some, hr,
      if_neg Bool.false_ne_true]
    rfl

/-! ## The value of a member -/

theorem takes_memberValue (H : TakesContainers z n) (hlen : p.lexemes.length ≤ n) (colon : Lexeme)
    (hend : p.lastEnd = colon.token.span.stop) (h : Ahead z.eof p.enclosing p.lexemes ds rest) :
    ∃ mid, Takes z p [.memberValue] (memberValue (nextOf z.eof rest) (leaf colon) ds).value
      (errorsList (memberValue (nextOf z.eof rest) (leaf colon) ds).value ++
        (memberValue (nextOf z.eof rest) (leaf colon) ds).note.toList) mid ∧
      Ahead z.eof p.enclosing mid (memberValue (nextOf z.eof rest) (leaf colon) ds).rest rest := by
  have hmissing : valueMissing ds = true → Takes z p [.memberValue] []
      [.ofToken .value (nextToken (nextOf z.eof rest) ds) (.empty colon.token.span.stop)]
      p.lexemes := by
    intro hno
    apply takes_report [] ?_ (takes_nil z p)
    intro hv _ _ _
    rw [perform, atMissingValue_reader hv h, if_pos hno, next_reader_of_ahead hv h, ← hend]
    rfl
  cases memberValueRule ds with
  | missing hno =>
    rw [memberValue_missing hno]
    exact ⟨_, hmissing hno, h⟩
  | present hpresent =>
    obtain ⟨mid, hvalue, hahead⟩ := takes_value H hlen h
    rw [memberValue_present hpresent]
    refine ⟨mid, takes_job [.value] (fun hv _ _ _ => ?_) ?_, hahead⟩
    · rw [perform, atMissingValue_reader hv h, hpresent, if_neg Bool.false_ne_true]
    · simpa using hvalue

/-! ## Members -/

theorem takes_keyNote {key : Lexeme} {ls : List Lexeme} {jobs : List Job} {es : List ParseError}
    (hp : p.lexemes = key :: ls)
    (hjobs : (if (nextOf z.eof ls).kind == .colon then
      Job.node .keyValue ([.key] ++ Job.bump ++ [.memberValue]) else [.incomplete]) = jobs)
    (h : Takes z p jobs ds es rest) :
    Takes z p [.keyValue] ds ((keyNote key).toList ++ es) rest := by
  by_cases hkey : key.token.kind == .unterminatedString
  · have hnote : keyNote key = unexpected .key key.token key.token.span := if_pos hkey
    rw [hnote]
    apply takes_report jobs ?_ h
    intro hv _ _ _
    simp only [perform, next_of_cons hv hp, second_reader hv hp, hjobs, if_pos hkey]
    rfl
  · have hnote : keyNote key = none := if_neg hkey
    rw [hnote]
    apply takes_job jobs ?_ h
    intro hv _ _ _
    simp only [perform, next_of_cons hv hp, second_reader hv hp, hjobs, if_neg hkey]
    rfl

theorem takes_key {key : Lexeme} {ls : List Lexeme} (hp : p.lexemes = key :: ls) :
    Takes z p [.key] [plain .key (leaf key) []] [] ls :=
  takes_job _ (fun _ _ _ _ => rfl) (takes_node .key none none (takes_bump hp))

theorem takes_colonValue (H : TakesContainers z n) (hlen : p.lexemes.length ≤ n) {colon : Lexeme}
    (h : Ahead z.eof p.enclosing p.lexemes (leaf colon :: ds) rest) :
    ∃ mid, Takes z p (Job.bump ++ [.memberValue])
      ([leaf colon] ++ (memberValue (nextOf z.eof rest) (leaf colon) ds).value)
      (errorsList (memberValue (nextOf z.eof rest) (leaf colon) ds).value ++
        (memberValue (nextOf z.eof rest) (leaf colon) ds).note.toList) mid ∧
      Ahead z.eof p.enclosing mid (memberValue (nextOf z.eof rest) (leaf colon) ds).rest rest := by
  obtain ⟨ls, hp, _, hahead⟩ := h.leaf_cases
  have hls : ls.length ≤ n := by
    rw [hp, List.length_cons] at hlen
    omega
  obtain ⟨mid, hvalue, hmid⟩ :=
    takes_memberValue (p := p.behind [leaf colon] ls) H hls colon rfl hahead
  exact ⟨mid, (takes_bump hp).append hvalue, hmid⟩

theorem takes_keyValue (H : TakesContainers z n) (hlen : p.lexemes.length ≤ n)
    {key colon : Lexeme} (h : Ahead z.eof p.enclosing p.lexemes (leaf key :: leaf colon :: ds) rest)
    (hc : colon.kind = .colon) :
    ∃ mid, Takes z p [.keyValue]
      [keyValue key (leaf colon) (memberValue (nextOf z.eof rest) (leaf colon) ds)]
      (errorsList [keyValue key (leaf colon) (memberValue (nextOf z.eof rest) (leaf colon) ds)]) mid ∧
      Ahead z.eof p.enclosing mid (memberValue (nextOf z.eof rest) (leaf colon) ds).rest rest := by
  obtain ⟨ls, hp, _, hahead⟩ := h.leaf_cases
  have hls : ls.length ≤ n := by
    rw [hp, List.length_cons] at hlen
    omega
  have hjobs : (if (nextOf z.eof ls).kind == .colon then
      Job.node .keyValue ([.key] ++ Job.bump ++ [.memberValue]) else [.incomplete]) =
      Job.node .keyValue ([.key] ++ Job.bump ++ [.memberValue]) := by
    have hcolon : startsWithColon (leaf colon :: ds) = true := beq_iff_eq.mpr hc
    rw [nextOf_beq_colon hahead, if_pos hcolon]
  have hkey := takes_key (z := z) (p := { p with bare := true }) hp
  obtain ⟨mid, hvalue, hmid⟩ := takes_colonValue (p := ({ p with bare := true } : Point).behind
    [plain .key (leaf key) []] ls) H hls hahead
  have hnode := takes_node (p := p) .keyValue (keyNote key)
    (memberValue (nextOf z.eof rest) (leaf colon) ds).note (hkey.append hvalue)
  have htakes := takes_keyNote hp hjobs hnode
  refine ⟨mid, ?_, hmid⟩
  simpa [keyValue] using htakes

/-- What begins no member is noted where its key should be, whatever is then taken. -/
theorem takes_recover {jobs : List Job} {ds' : List Draft} {es : List ParseError} {mid : List Lexeme}
    (h : Ahead z.eof p.enclosing p.lexemes (d :: ds) rest)
    (hjobs : (if d.isQuotableToken && startsWithColon ds then
      Job.bump ++ Job.bump ++ [.memberValue] else [.skipToken, .skip]) = jobs)
    (htakes : Takes z p (Job.node .error jobs) ds' es mid) :
    Takes z p [.recover] ds' (.ofToken .key d.firstToken d.firstToken.span :: es) mid := by
  apply takes_report _ ?_ htakes
  intro hv nodes roots errors
  simp only [perform, isQuotable_next_reader hv h, hjobs]
  simp only [next_reader_of_ahead hv h, nextToken]
  rfl

theorem takes_literalKey (H : TakesContainers z n) (hlen : p.lexemes.length ≤ n)
    {key colon : Lexeme} (h : Ahead z.eof p.enclosing p.lexemes (leaf key :: leaf colon :: ds) rest)
    (hk : isQuotable key.kind = true) (hc : colon.kind = .colon) :
    ∃ mid, Takes z p [.recover]
      [literalKey key (leaf colon) (memberValue (nextOf z.eof rest) (leaf colon) ds)]
      (errorsList [literalKey key (leaf colon) (memberValue (nextOf z.eof rest) (leaf colon) ds)])
      mid ∧
      Ahead z.eof p.enclosing mid (memberValue (nextOf z.eof rest) (leaf colon) ds).rest rest := by
  obtain ⟨ls, hp, _, hahead⟩ := h.leaf_cases
  have hls : ls.length ≤ n := by
    rw [hp, List.length_cons] at hlen
    omega
  have hliteral : ((leaf key).isQuotableToken && startsWithColon (leaf colon :: ds)) = true :=
    Bool.and_eq_true_iff.mpr ⟨hk, beq_iff_eq.mpr hc⟩
  have hkey := takes_bump (z := z) (p := { p with bare := true }) hp
  obtain ⟨mid, hvalue, hmid⟩ := takes_colonValue (p := ({ p with bare := true } : Point).behind
    [leaf key] ls) H hls hahead
  have hnode := takes_node (p := p) .error (unexpected .key key.token key.token.span)
    (memberValue (nextOf z.eof rest) (leaf colon) ds).note (hkey.append hvalue)
  have htakes := takes_recover h (if_pos hliteral) hnode
  refine ⟨mid, ?_, hmid⟩
  simpa [literalKey, unexpected, firstToken, firstLexeme] using htakes

theorem takes_colonNote (key : Lexeme) (h : Ahead z.eof p.enclosing p.lexemes ds rest) :
    Takes z p [.colon key.token] []
      (colonNote key (nextToken (nextOf z.eof rest) ds)).toList p.lexemes := by
  by_cases hkey : key.token.kind == .unterminatedString
  · have hnote : colonNote key (nextToken (nextOf z.eof rest) ds) = none := if_pos hkey
    rw [hnote]
    apply takes_job [] ?_ (takes_nil z p)
    intro hv _ _ _
    rw [perform, if_pos hkey]
  · have hnote : colonNote key (nextToken (nextOf z.eof rest) ds) =
        unexpected .colon (nextToken (nextOf z.eof rest) ds) key.token.span := if_neg hkey
    rw [hnote]
    apply takes_report [] ?_ (takes_nil z p)
    intro hv _ _ _
    rw [perform, if_neg hkey, next_reader_of_ahead hv h]
    rfl

theorem takes_junk (H : TakesContainers z n) (hlen : p.lexemes.length ≤ n)
    (h : Ahead z.eof p.enclosing p.lexemes ds rest) :
    ∃ mid, Takes z p [.junk] (wrap .error (skip ds).1) (errorsList (wrap .error (skip ds).1)) mid ∧
      Ahead z.eof p.enclosing mid (skip ds).2 rest := by
  cases ds with
  | nil =>
    rw [skip_nil]
    refine ⟨_, takes_job [] ?_ (takes_nil z p), h⟩
    intro hv _ _ _
    rw [perform, atMemberResume_reader hv h]
    rfl
  | cons d ds =>
    cases hr : d.resumesMembers with
    | true =>
      rw [skip_of_resumesMembers hr]
      refine ⟨_, takes_job [] ?_ (takes_nil z p), h⟩
      intro hv _ _ _
      rw [perform, atMemberResume_reader hv h, List.head?_cons, Option.all_some, if_pos hr]
    | false =>
      obtain ⟨mid, hskip, hmid⟩ := takes_skip (p := { p with bare := true }) H hlen h
      rw [skip_cons hr] at hskip hmid ⊢
      refine ⟨mid, takes_job (Job.node .error [.skip]) (fun hv _ _ _ => ?_) ?_, hmid⟩
      · rw [perform, atMemberResume_reader hv h, List.head?_cons, Option.all_some, hr,
          if_neg Bool.false_ne_true]
      · rw [errorsList_wrap]
        exact takes_node .error none none hskip

theorem takes_incomplete (H : TakesContainers z n) (hlen : p.lexemes.length ≤ n) {key : Lexeme}
    (h : Ahead z.eof p.enclosing p.lexemes (leaf key :: ds) rest)
    (hc : startsWithColon ds = false) :
    ∃ mid, Takes z p [.keyValue]
      (incomplete key (nextToken (nextOf z.eof rest) ds) :: wrap .error (skip ds).1)
      (errorsList (incomplete key (nextToken (nextOf z.eof rest) ds) :: wrap .error (skip ds).1))
      mid ∧ Ahead z.eof p.enclosing mid (skip ds).2 rest := by
  obtain ⟨ls, hp, _, hahead⟩ := h.leaf_cases
  have hnode := takes_node (p := p) .incompleteKeyValue (keyNote key)
    (colonNote key (nextToken (nextOf z.eof rest) ds))
    (takes_key (z := z) (p := { p with bare := true }) hp)
  have hcolon := hnode.append (takes_colonNote (p := p.behind _ ls) key hahead)
  have hls : ls.length ≤ n := by
    rw [hp] at hlen
    simp only [List.length_cons] at hlen
    omega
  obtain ⟨mid, hjunk, hmid⟩ := takes_junk (p := p.behind ([incomplete key
    (nextToken (nextOf z.eof rest) ds)] ++ []) ls) H hls hahead
  have hjobs : (if (nextOf z.eof ls).kind == .colon then
      Job.node .keyValue ([.key] ++ Job.bump ++ [.memberValue]) else [.incomplete]) =
      [.incomplete] := by
    rw [nextOf_beq_colon hahead, hc]
    rfl
  have htakes := takes_keyNote hp hjobs (takes_job
    (Job.node .incompleteKeyValue [.key] ++ [.colon key.token] ++ [.junk])
    (fun hv _ _ _ => by
      rw [perform, next_of_cons hv hp]
      rfl) (hcolon.append hjunk))
  refine ⟨mid, ?_, hmid⟩
  simpa [incomplete] using htakes

theorem takes_skipMember (H : TakesContainers z n) (hlen : p.lexemes.length ≤ n)
    (h : Ahead z.eof p.enclosing p.lexemes (d :: ds) rest)
    (hq : d.isQuotableToken = true → startsWithColon ds = false) :
    ∃ mid, Takes z p [.recover] (skipMember d ds).1 (errorsList (skipMember d ds).1) mid ∧
      Ahead z.eof p.enclosing mid (skipMember d ds).2 rest := by
  obtain ⟨mid, htoken, hmid⟩ := takes_skipToken (p := { p with bare := true }) H hlen h
  obtain ⟨end', hskip, hend⟩ := takes_skip (p := ({ p with bare := true } : Point).behind _ mid) H
    (Nat.le_trans htoken.length_le hlen) hmid
  have hnode := takes_node (p := p) .error (unexpected .key d.firstToken d.firstToken.span) none
    (htoken.append_drafts hskip)
  have hliteral : (d.isQuotableToken && startsWithColon ds) = false := by
    cases hquote : d.isQuotableToken with
    | false => rfl
    | true => rw [hq hquote, Bool.true_and]
  have htakes := takes_recover h (if_neg (by simp [hliteral])) hnode
  refine ⟨end', ?_, hend⟩
  simpa [skipMember, junk, unexpected] using htakes

theorem takes_member (H : TakesContainers z n) (hlen : p.lexemes.length ≤ n)
    (h : Ahead z.eof p.enclosing p.lexemes (d :: ds) rest) :
    ∃ mid, Takes z p [if d.isKeyToken then .keyValue else .recover]
      (memberAt (nextOf z.eof rest) d ds).1
      (errorsList (memberAt (nextOf z.eof rest) d ds).1) mid ∧
      Ahead z.eof p.enclosing mid (memberAt (nextOf z.eof rest) d ds).2 rest := by
  cases memberRule d ds with
  | @keyValue key colon ds hk hc =>
    have hkey : (leaf key).isKeyToken = true := hk
    rw [memberAt_keyValue hk hc, if_pos hkey]
    exact takes_keyValue H hlen h hc
  | @literalKey key colon ds hq hc =>
    have hkey : (leaf key).isKeyToken = false := not_isKey_of_isQuotable hq
    rw [memberAt_literalKey hq hc, hkey, if_neg Bool.false_ne_true]
    exact takes_literalKey H hlen h hq hc
  | @incomplete key ds hk hc =>
    have hkey : (leaf key).isKeyToken = true := hk
    rw [memberAt_incomplete hk hc, if_pos hkey]
    exact takes_incomplete H hlen h hc
  | skipped hk hq =>
    rw [memberAt_skip hk hq, hk, if_neg Bool.false_ne_true]
    exact takes_skipMember H hlen h hq

theorem takes_members (H : TakesContainers z n) (sep : Bool) (hlen : p.lexemes.length ≤ n)
    (h : Ahead z.eof p.enclosing p.lexemes ds rest) :
    Takes z p [.list .object sep] (members (nextOf z.eof rest) sep ds)
      (errorsList (members (nextOf z.eof rest) sep ds)) rest := by
  induction sep, ds using @members_induction (nextOf z.eof rest) generalizing p with
  | nil sep =>
    rw [members_nil]
    exact takes_list_nil .object sep h
  | stray comma ds hc ih =>
    rw [members_stray hc]
    exact takes_list_comma true hc h fun q _ hle hahead => ih (Nat.le_trans hle hlen) hahead
  | comma comma ds hc ih =>
    rw [members_comma hc]
    exact takes_list_comma false hc h fun q _ hle hahead => ih (Nat.le_trans hle hlen) hahead
  | member sep d ds hc ih =>
    rw [members_cons hc]
    obtain ⟨mid, hmember, hahead⟩ := takes_member H hlen h
    apply takes_list_element hc h ?_ hmember
      (@ih (p.behind _ mid) (Nat.le_trans hmember.length_le hlen) hahead)
    intro hv nodes roots errors
    rw [element, isKey_next_reader hv h]

end

/-! ## Everything -/

/-- A reader takes containers as the pairing of brackets makes them. -/
theorem takesContainers (z : Ending) (n : Nat) : TakesContainers z n := by
  -- what is inside the brackets has fewer lexemes behind its openers than there are behind `l`
  induction n with
  | zero => exact fun p c l ls _ hlen => absurd hlen (Nat.not_lt_zero _)
  | succ n ih =>
    intro p c l ls hp hlen ho
    rw [pieceAt_of_opens?_eq_some ho]
    split
    · rename_i he
      have hahead := ahead_pieces z.eof (c :: p.enclosing) ls
      refine takes_close hp (Container.opens?_eq_some.mp ho) he hahead fun q hq hls => ?_
      have hqlen : q.lexemes.length ≤ n := by
        rw [hls]
        omega
      rw [← hq, ← hls] at hahead ⊢
      cases c with
      | object => exact takes_members ih true hqlen hahead
      | array => exact takes_items ih true hqlen hahead
    · exact takes_tooDeep hp (isOpener_of_opens? ho) (by omega)

end Maml.Reader
