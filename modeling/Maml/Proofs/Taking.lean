import Maml.Proofs.Placement
import Maml.Reader

/-! What jobs take.

1. What comes of doing jobs is unique (`Runs.unique`).
2. A reader stands at a `Point` of an input: in front of a lexeme, or between its
   trivia and its token. There it sees the next two significant tokens
   (`next_reader`, `second_reader`).
3. `Takes` says that jobs read drafts and note mistakes, whatever is still to be done
   behind them. Such jobs compose (`Takes.append`), make nodes (`takes_node`), and
   run inside a container (`takes_within`). -/
namespace Maml

/-! ## Inputs and their ends -/

/-- What is behind the lexemes of an input: trivia, and then nothing or an end-of-input token. -/
structure Ending where
  trailing : List Token
  /-- The first end-of-input token and everything behind it. -/
  beyond : List Token
  stop : Nat
  isTrivia_of_mem : ∀ t ∈ trailing, t.isTrivia = true
  kind_of_mem : ∀ t ∈ beyond.head?, t.kind = .eof

namespace Ending

def eof (z : Ending) : Token := z.beyond.head?.getD (.eof z.stop)

theorem kind_eof (z : Ending) : z.eof.kind = .eof := by
  rw [eof]
  cases h : z.beyond.head? with
  | none => rfl
  | some t => exact z.kind_of_mem t h

theorem head?_filter (z : Ending) :
    ((z.trailing ++ z.beyond).filter (!·.isTrivia)).head?.getD (.eof z.stop) = z.eof := by
  have htrailing : z.trailing.filter (!·.isTrivia) = [] := by
    rw [List.filter_eq_nil_iff]
    intro t ht
    simp [z.isTrivia_of_mem t ht]
  rw [List.filter_append, htrailing, List.nil_append, eof]
  cases hbeyond : z.beyond with
  | nil => rfl
  | cons t ts =>
    have hkind : t.kind = .eof := z.kind_of_mem t (by rw [hbeyond]; rfl)
    have ht : t.isTrivia = false := by
      rw [Token.isTrivia, hkind]
      rfl
    rw [List.filter_cons, if_pos (by simp [ht])]
    rfl

end Ending

def nextOf (eof : Token) : List Lexeme → Token
  | [] => eof
  | l :: _ => l.token

open Draft

namespace Reader

/-! ## Runs -/

theorem Runs.unique {jobs : List Job} {r : Reader} {out out' : Except Fault Reader}
    (h : Runs jobs r out) (h' : Runs jobs r out') : out = out' := by
  induction h with
  | done =>
    cases h'
    rfl
  | step r' more h hmore ih =>
    cases h' with
    | step r₁ more₁ h₁ hmore₁ =>
      rw [h] at h₁
      obtain ⟨rfl, rfl⟩ : _ ∧ _ := by simpa using h₁
      exact ih hmore₁
    | fault h₁ =>
      rw [h] at h₁
      simp at h₁
  | fault h =>
    cases h' with
    | step r₁ more₁ h₁ hmore₁ =>
      rw [h] at h₁
      simp at h₁
    | fault h₁ =>
      rw [h] at h₁
      simpa using h₁

/-- What comes of noting mistakes on the way to an outcome: the first reversed range is a fault. -/
def refused {α : Type} (errors : List ParseError) (out : Except Fault α) : Except Fault α :=
  match errors.find? fun e => !decide e.range.Ordered with
  | some e => .error (.reversedRange e.range.start e.range.stop)
  | none => out

@[simp] theorem refused_nil {α : Type} (out : Except Fault α) : refused [] out = out := rfl

theorem refused_append {α : Type} (es fs : List ParseError) (out : Except Fault α) :
    refused (es ++ fs) out = refused es (refused fs out) := by
  unfold refused
  rw [List.find?_append]
  cases es.find? fun e => !decide e.range.Ordered <;> rfl

/-! ## Points -/

/-- A point of an input where a reader can be. -/
structure Point where
  enclosing : List Container
  /-- The end of the last significant token taken. -/
  lastEnd : Nat
  /-- Whether the trivia in front of the next lexeme has been handed over. -/
  bare : Bool
  lexemes : List Lexeme

namespace Point

/-- Whether the lexemes ahead are trivia in front of significant tokens. -/
def Valid (p : Point) : Prop := ∀ l ∈ p.lexemes, l.Valid ∧ l.kind ≠ .eof

def tokens (p : Point) : List Token :=
  match p.lexemes with
  | [] => []
  | l :: ls => (if p.bare then [l.token] else l.tokens) ++ ls.flatMap Lexeme.tokens

def reader (p : Point) (z : Ending) (nodes : List (NodeKind × List Tree)) (roots : List Tree)
    (errors : List ParseError) : Reader :=
  ⟨⟨p.tokens ++ (z.trailing ++ z.beyond), z.stop, p.lastEnd⟩, nodes, roots, errors, p.enclosing⟩

theorem filter_tokens {p : Point} (h : p.Valid) :
    p.tokens.filter (!·.isTrivia) = p.lexemes.map Lexeme.token := by
  obtain ⟨enclosing, lastEnd, bare, lexemes⟩ := p
  cases lexemes with
  | nil => rfl
  | cons l ls =>
    have hl := (h l List.mem_cons_self).1
    have hls := Lexeme.filter_flatMap_tokens fun l' hl' => (h l' (List.mem_cons_of_mem _ hl')).1
    cases bare with
    | true =>
      simp only [tokens, if_true, List.filter_append, hls]
      simp [hl.2]
    | false =>
      simp only [tokens, Bool.false_eq_true, if_false, List.filter_append, hls,
        Lexeme.filter_tokens hl]
      rfl

end Point

variable {z : Ending} {p : Point} {nodes : List (NodeKind × List Tree)} {roots : List Tree}
  {errors : List ParseError}

theorem next_reader (h : p.Valid) :
    (p.reader z nodes roots errors).next = nextOf z.eof p.lexemes := by
  show ((p.tokens ++ (z.trailing ++ z.beyond)).filter (!·.isTrivia))[0]?.getD _ = _
  rw [List.filter_append, Point.filter_tokens h]
  cases p.lexemes with
  | nil =>
    have heof := z.head?_filter
    rw [List.head?_eq_getElem?] at heof
    exact heof
  | cons l ls => rfl

theorem next_of_cons {l : Lexeme} {ls : List Lexeme} (h : p.Valid) (hp : p.lexemes = l :: ls) :
    (p.reader z nodes roots errors).next = l.token := by
  rw [next_reader h, hp]
  rfl

theorem second_reader {l : Lexeme} {ls : List Lexeme} (h : p.Valid) (hp : p.lexemes = l :: ls) :
    (p.reader z nodes roots errors).second = nextOf z.eof ls := by
  show ((p.tokens ++ (z.trailing ++ z.beyond)).filter (!·.isTrivia))[1]?.getD _ = _
  rw [List.filter_append, Point.filter_tokens h, hp]
  cases ls with
  | nil =>
    have heof := z.head?_filter
    rw [List.head?_eq_getElem?] at heof
    exact heof
  | cons l ls => rfl

/-! ## Drafts taken -/

/-- The end of the last significant token of a row of drafts, or of what comes before them. -/
def endFrom (lastEnd : Nat) : List Draft → Nat
  | [] => lastEnd
  | d :: ds => endFrom d.lastToken.span.stop ds

theorem endFrom_append (n : Nat) (ds es : List Draft) :
    endFrom n (ds ++ es) = endFrom (endFrom n ds) es := by
  induction ds generalizing n with
  | nil => rfl
  | cons d ds ih => exact ih _

theorem endFrom_eq (t : Token) (ds : List Draft) :
    endFrom t.span.stop ds = (lastTokenFrom t ds).span.stop := by
  induction ds generalizing t with
  | nil => rfl
  | cons d ds ih => exact ih _

namespace Point

def behind (p : Point) (ds : List Draft) (rest : List Lexeme) : Point :=
  ⟨p.enclosing, endFrom p.lastEnd ds, p.bare && ds.isEmpty, rest⟩

/-- The trees of drafts at a point, without the trivia that has been handed over. -/
def trees (p : Point) : List Draft → List Tree
  | [] => []
  | d :: ds => if p.bare then d.tree :: Draft.trees ds else Draft.trees (d :: ds)

@[simp] theorem behind_nil (p : Point) : p.behind [] p.lexemes = p := by
  simp [behind, endFrom]

theorem behind_behind (p : Point) (ds es : List Draft) (mid rest : List Lexeme) :
    (p.behind ds mid).behind es rest = p.behind (ds ++ es) rest := by
  cases ds <;> simp [behind, endFrom, endFrom_append]

theorem trees_append (p : Point) (ds es : List Draft) (mid : List Lexeme) :
    p.trees ds ++ (p.behind ds mid).trees es = p.trees (ds ++ es) := by
  have hbare : ∀ d : Draft, (p.behind (d :: ds) mid).bare = false := fun _ => Bool.and_false _
  cases ds with
  | nil =>
    cases es with
    | nil => rfl
    | cons e es => simp [trees, behind]
  | cons d ds =>
    have hes : (p.behind (d :: ds) mid).trees es = Draft.trees es := by
      cases es <;> simp [trees, behind, Draft.trees]
    rw [hes, trees, List.cons_append, trees, Draft.trees, Draft.trees, Draft.trees_append]
    split <;> simp

end Point

/-- At a point, jobs read drafts and note mistakes, whatever is still to be done behind them. -/
def Takes (z : Ending) (p : Point) (jobs : List Job) (ds : List Draft) (es : List ParseError)
    (rest : List Lexeme) : Prop :=
  p.lexemes = Draft.lexemesList ds ++ rest ∧
    (p.Valid → ∀ kind parts outer roots errors more out,
      Runs more ((p.behind ds rest).reader z ((kind, parts ++ p.trees ds) :: outer) roots
        (errors ++ es)) out →
      Runs (jobs ++ more) (p.reader z ((kind, parts) :: outer) roots errors) (refused es out))

theorem takes_nil (z : Ending) (p : Point) : Takes z p [] [] [] p.lexemes := by
  refine ⟨rfl, ?_⟩
  intro _ kind parts outer roots errors more out h
  simpa [Point.trees] using h

theorem valid_behind {p : Point} {ds : List Draft} {rest : List Lexeme} (hv : p.Valid)
    (hp : p.lexemes = Draft.lexemesList ds ++ rest) : (p.behind ds rest).Valid := by
  intro l hl
  apply hv l
  rw [hp]
  exact List.mem_append_right _ hl

theorem Takes.append {jobs jobs' : List Job} {ds ds' : List Draft} {es es' : List ParseError}
    {mid rest : List Lexeme} (h : Takes z p jobs ds es mid)
    (h' : Takes z (p.behind ds mid) jobs' ds' es' rest) :
    Takes z p (jobs ++ jobs') (ds ++ ds') (es ++ es') rest := by
  obtain ⟨hp, hrun⟩ := h
  obtain ⟨hp', hrun'⟩ := h'
  have hmid : mid = Draft.lexemesList ds' ++ rest := hp'
  refine ⟨?_, fun hv kind parts outer roots errors more out hout => ?_⟩
  · rw [hp, hmid, Draft.lexemesList_append, List.append_assoc]
  · rw [← p.behind_behind ds ds' mid, ← p.trees_append ds ds' mid, ← List.append_assoc,
      ← List.append_assoc] at hout
    rw [List.append_assoc, refused_append]
    exact hrun hv _ _ _ _ _ _ _ (hrun' (valid_behind hv hp) _ _ _ _ _ _ _ hout)

theorem Takes.append_drafts {jobs jobs' : List Job} {ds ds' : List Draft} {mid rest : List Lexeme}
    (h : Takes z p jobs ds (errorsList ds) mid)
    (h' : Takes z (p.behind ds mid) jobs' ds' (errorsList ds') rest) :
    Takes z p (jobs ++ jobs') (ds ++ ds') (errorsList (ds ++ ds')) rest := by
  rw [errorsList_append]
  exact h.append h'

theorem takes_job {job : Job} (jobs : List Job) {ds : List Draft} {es : List ParseError}
    {rest : List Lexeme}
    (hjob : p.Valid → ∀ nodes roots errors, perform (p.reader z nodes roots errors) job =
      .ok (p.reader z nodes roots errors, jobs))
    (h : Takes z p jobs ds es rest) : Takes z p [job] ds es rest := by
  refine ⟨h.1, ?_⟩
  intro hv kind parts outer roots errors more out hout
  exact .step _ jobs (hjob hv _ _ _) (h.2 hv _ _ _ _ _ _ _ hout)

/-- A job that notes a mistake first. If its range is reversed, that is the fault, whatever would
have been done behind it. -/
theorem runs_report {r : Reader} {job : Job} {jobs more : List Job} {es : List ParseError}
    {expected : Expected} {found : Token} {range : Span} {out : Except Fault Reader}
    (hjob : perform r job = (r.report expected found range).bind fun r => .ok (r, jobs))
    (h : Runs (jobs ++ more) { r with errors := r.errors ++ [.ofToken expected found range] }
      (refused es out)) :
    Runs (job :: more) r (refused (.ofToken expected found range :: es) out) := by
  have hsplit := refused_append [.ofToken expected found range] es out
  rw [List.singleton_append] at hsplit
  rw [hsplit]
  by_cases hrange : range.Ordered
  · -- the mistake is noted, and the jobs go on
    have hrefused : refused [ParseError.ofToken expected found range] (refused es out) =
        refused es out := by
      simp [refused, ParseError.ofToken, hrange]
    rw [hrefused]
    rw [report, Span.checked, if_pos hrange] at hjob
    exact .step _ jobs hjob h
  · -- the mistake is refused, whatever the jobs would have done
    have hrefused : refused [ParseError.ofToken expected found range] (refused es out) =
        .error (.reversedRange range.start range.stop) := by
      simp [refused, ParseError.ofToken, hrange]
    rw [hrefused]
    rw [report, Span.checked, if_neg hrange] at hjob
    exact .fault hjob

theorem takes_report {job : Job} (jobs : List Job) {ds : List Draft} {es : List ParseError}
    {rest : List Lexeme} {expected : Expected} {found : Token} {range : Span}
    (hjob : p.Valid → ∀ nodes roots errors, perform (p.reader z nodes roots errors) job =
      (report (p.reader z nodes roots errors) expected found range).bind fun r => .ok (r, jobs))
    (h : Takes z p jobs ds es rest) :
    Takes z p [job] ds (.ofToken expected found range :: es) rest := by
  refine ⟨h.1, ?_⟩
  intro hv kind parts outer roots errors more out hout
  refine runs_report (hjob hv ((kind, parts) :: outer) roots errors)
    (h.2 hv kind parts outer roots _ more out ?_)
  rw [List.append_assoc]
  exact hout

/-! ## Tokens and nodes -/

/-- Pending trivia goes to the innermost node. -/
theorem runs_trivia (ts : List Token) {rest : List Token} (hts : ∀ t ∈ ts, t.isTrivia = true)
    (hrest : ∀ t ∈ rest.head?, t.isTrivia = false) {stop lastEnd : Nat} {kind : NodeKind}
    {parts : List Tree} {outer : List (NodeKind × List Tree)} {enclosing : List Container}
    {more : List Job} {out : Except Fault Reader}
    (h : Runs more ⟨⟨rest, stop, lastEnd⟩, (kind, parts ++ ts.map tokenLeaf) :: outer, roots,
      errors, enclosing⟩ out) :
    Runs (.trivia :: more) ⟨⟨ts ++ rest, stop, lastEnd⟩, (kind, parts) :: outer, roots, errors,
      enclosing⟩ out := by
  induction ts generalizing parts with
  | nil =>
    have hnone : TokenStream.nextTrivia? ⟨rest, stop, lastEnd⟩ = none := by
      cases rest with
      | nil => rfl
      | cons t rest => simp [TokenStream.nextTrivia?, hrest t rfl]
    refine .step ⟨⟨rest, stop, lastEnd⟩, (kind, parts) :: outer, roots, errors, enclosing⟩ [] ?_
      (by simpa using h)
    simp only [perform, List.nil_append, hnone]
  | cons t ts ih =>
    have hsome : TokenStream.nextTrivia? ⟨t :: (ts ++ rest), stop, lastEnd⟩ =
        some (t, ⟨ts ++ rest, stop, lastEnd⟩) := by
      simp [TokenStream.nextTrivia?, hts t List.mem_cons_self]
    refine .step ⟨⟨ts ++ rest, stop, lastEnd⟩, (kind, parts ++ [tokenLeaf t]) :: outer, roots,
      errors, enclosing⟩ [.trivia] ?_ ?_
    · simp only [perform, List.cons_append, hsome]
      rfl
    · apply ih (fun u hu => hts u (List.mem_cons_of_mem _ hu))
      simpa using h

/-- Whatever a reader stands in front of, it hands over the trivia that is pending there. -/
theorem runs_pending {l : Lexeme} {ls : List Lexeme} (hv : p.Valid) (hp : p.lexemes = l :: ls)
    {kind : NodeKind} {parts : List Tree} {outer : List (NodeKind × List Tree)} {more : List Job}
    {out : Except Fault Reader}
    (h : Runs more (({ p with bare := true } : Point).reader z
      ((kind, parts ++ if p.bare then [] else l.trivia.map tokenLeaf) :: outer) roots errors) out) :
    Runs (.trivia :: more) (p.reader z ((kind, parts) :: outer) roots errors) out := by
  have hl : l.Valid := (hv l (by rw [hp]; exact List.mem_cons_self)).1
  obtain ⟨enclosing, lastEnd, bare, lexemes⟩ := p
  obtain rfl : lexemes = l :: ls := hp
  have htoken : ∀ t ∈ (l.token :: (ls.flatMap Lexeme.tokens ++ (z.trailing ++ z.beyond))).head?,
      t.isTrivia = false := by
    intro t ht
    obtain rfl : l.token = t := by simpa using ht
    exact hl.2
  cases bare with
  | true =>
    -- the trivia has been handed over before
    exact runs_trivia [] (by simp) htoken h
  | false =>
    have hrun := runs_trivia l.trivia hl.1 htoken h
    simpa [Point.reader, Point.tokens, Lexeme.tokens] using hrun

theorem perform_token {t : Token} (ht : t.isTrivia = false) {rest : List Token}
    {stop lastEnd : Nat} {kind : NodeKind} {parts : List Tree}
    {outer : List (NodeKind × List Tree)} {enclosing : List Container} :
    perform ⟨⟨t :: rest, stop, lastEnd⟩, (kind, parts) :: outer, roots, errors, enclosing⟩ .token =
      .ok (⟨⟨rest, stop, t.span.stop⟩, (kind, parts ++ [tokenLeaf t]) :: outer, roots, errors,
        enclosing⟩, []) := by
  have hbump : TokenStream.bump ⟨t :: rest, stop, lastEnd⟩ =
      .ok (t, ⟨rest, stop, t.span.stop⟩) := by
    simp [TokenStream.bump, ht]
  simp only [perform, token, hbump]
  rfl

theorem takes_bump {l : Lexeme} {ls : List Lexeme} (hp : p.lexemes = l :: ls) :
    Takes z p Job.bump [leaf l] [] ls := by
  refine ⟨hp, ?_⟩
  intro hv kind parts outer roots errors more out hout
  have hl : l.token.isTrivia = false := (hv l (by rw [hp]; exact List.mem_cons_self)).1.2
  obtain ⟨enclosing, lastEnd, bare, lexemes⟩ := p
  obtain rfl : lexemes = l :: ls := hp
  have htokens : (Point.mk enclosing l.token.span.stop false ls).tokens =
      ls.flatMap Lexeme.tokens := by
    cases ls <;> rfl
  have htrees : (Point.mk enclosing lastEnd bare (l :: ls)).trees [leaf l] =
      (if bare then [] else l.trivia.map tokenLeaf) ++ [tokenLeaf l.token] := by
    cases bare <;> rfl
  have hbehind : (Point.mk enclosing lastEnd bare (l :: ls)).behind [leaf l] ls =
      ⟨enclosing, l.token.span.stop, false, ls⟩ :=
    congrArg (Point.mk enclosing l.token.span.stop · ls) (Bool.and_false bare)
  rw [hbehind, htrees, ← List.append_assoc, List.append_nil, Point.reader, htokens] at hout
  apply runs_pending hv rfl
  exact .step _ [] (perform_token hl) hout

theorem takes_leaf {l : Lexeme} {ls : List Lexeme} (hp : p.lexemes = l :: ls) :
    Takes z p Job.bump [leaf l] (errorsList [leaf l]) ls := takes_bump hp

/-- A node takes what is in it, and trivia in front of it stays outside. -/
theorem takes_node (kind : NodeKind) (before after : Option ParseError) {jobs : List Job}
    {first : Draft} {ds : List Draft} {es : List ParseError} {rest : List Lexeme}
    (h : Takes z { p with bare := true } jobs (first :: ds) es rest) :
    Takes z p (Job.node kind jobs) [node kind before first ds after] es rest := by
  obtain ⟨hp, hrun⟩ := h
  have hp : p.lexemes = lexemesList [node kind before first ds after] ++ rest := by
    rw [show p.lexemes = _ from hp]
    simp
  refine ⟨hp, ?_⟩
  intro hv kind' parts outer roots errors more out hout
  obtain ⟨ls, hls⟩ := exists_lexemes_eq_cons (node kind before first ds after)
  have hcons : p.lexemes = (node kind before first ds after).firstLexeme :: (ls ++ rest) := by
    rw [hp, lexemesList_cons, hls]
    simp
  have hjobs : Job.node kind jobs ++ more =
      .trivia :: .start kind :: (jobs ++ (.finish :: more)) := by
    simp [Job.node]
  have htrees : p.trees [node kind before first ds after] =
      (if p.bare then [] else (node kind before first ds after).firstLexeme.trivia.map tokenLeaf) ++
        [.node (.node kind) (first.tree :: Draft.trees ds)] := by
    cases hbare : p.bare <;> simp [Point.trees, hbare, Draft.trees, tree, trivia]
  have hbehind : p.behind [node kind before first ds after] rest =
      ({ p with bare := true } : Point).behind (first :: ds) rest := by
    simp [Point.behind, endFrom, lastToken, endFrom_eq]
  rw [hjobs]
  -- the trivia goes to the node around, then the node is opened, filled and closed
  apply runs_pending hv hcons
  refine .step _ [] rfl (hrun hv kind [] _ roots errors _ out ?_)
  refine .step _ [] rfl ?_
  rw [htrees, hbehind, ← List.append_assoc] at hout
  exact hout

/-- A container is open for as long as what is in it is read. -/
theorem takes_within (c : Container) {jobs : List Job} {ds : List Draft} {es : List ParseError}
    {rest : List Lexeme} (h : Takes z { p with enclosing := c :: p.enclosing } jobs ds es rest) :
    Takes z p (.enter c :: (jobs ++ [.leave])) ds es rest := by
  obtain ⟨hp, hrun⟩ := h
  refine ⟨hp, ?_⟩
  intro hv kind parts outer roots errors more out hout
  rw [List.cons_append, List.append_assoc]
  refine .step _ [] rfl (hrun hv kind parts outer roots errors _ out ?_)
  exact .step _ [] rfl hout

end Reader

end Maml
