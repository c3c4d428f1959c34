import Maml.Proofs.Rereading
import Maml.Proofs.Siblings
import Maml.Proofs.Standing

/-! Reading after a change of lexemes.

A `Recasting` says what becomes of each lexeme of a document, which of them become strings, and
behind which elements a comma is put. `Recast` relates the rows before such a change to those
after it.

1. A row that is recast begins and ends with what becomes of its ends (`Recast.exists_cons`,
   `Recast.exists_lastToken`).
2. The rules of reading are kept, rule by rule: a value, a list and what is skipped can be recast
   in front of whatever the lexemes behind them become, as long as strings are made only of
   tokens that stand for a value or a key, and signs stay as near to their numbers as they were
   (`canRecast_of_read`).
3. So what is read after the change is the document recast (`exists_recast_documentDrafts`). -/
namespace Maml.Draft

/-! ## Changes -/

/-- A change of the lexemes of a document. -/
structure Recasting where
  /-- What becomes of a lexeme. -/
  map : Lexeme → Lexeme
  /-- Whether a lexeme becomes a string. -/
  quotes : Lexeme → Bool
  /-- The comma that is put behind an element. -/
  cut : Draft → Option Lexeme
  /-- How a mistake is told after the change. -/
  alike : ParseError → ParseError → Prop
  kind_map {l : Lexeme} (h : quotes l = false) : (map l).kind = l.kind
  kind_quotes {l : Lexeme} (h : quotes l = true) :
    (l.kind == .identifier || isQuotable l.kind) = true ∧ (map l).kind = .string
  kind_cut {d : Draft} {c : Lexeme} (h : c ∈ cut d) : c.kind = .comma
  alike_stretch (expected : Expected) {l : Lexeme} (m : Lexeme) (h : quotes l = false) :
    alike (.ofToken expected l.token ⟨l.token.span.start, m.token.span.stop⟩)
      (.ofToken expected (map l).token ⟨(map l).token.span.start, (map m).token.span.stop⟩)
  alike_cover {l m : Lexeme} (hl : quotes l = false) (hm : quotes m = false)
    (h : isSignedNumber l.token m.token = true) :
    alike (.ofToken .value l.token (l.token.span.cover m.token.span))
      (.ofToken .value (map l).token ((map l).token.span.cover (map m).token.span))
  alike_colon (t t' : Token) {l : Lexeme} (h : quotes l = false) :
    alike (.ofToken .colon t l.token.span) (.ofToken .colon t' (map l).token.span)
  alike_gap (expected : Expected) (t t' : Token) (l : Lexeme) :
    alike (.ofToken expected t (.empty l.token.span.stop))
      (.ofToken expected t' (.empty (map l).token.span.stop))

/-- Whether a draft is an element of a list, if it is a part of a node of a kind. -/
def isElementOf (k : NodeKind) (d : Draft) : Bool :=
  match k with
  | .members => d.isNodeOf .keyValue
  | .items => d.isNodeOf .value
  | _ => false

namespace Recasting

theorem kind_of_no_cut {_ : Draft} {c : Lexeme} (h : c ∈ (none : Option Lexeme)) :
    c.kind = .comma :=
  absurd h (by simp)

variable (r : Recasting)

/-- What is put between an element and the one behind it. -/
def separator (k : NodeKind) (d : Draft) : List Draft → List Lexeme
  | [] => []
  | e :: _ => if isElementOf k d && isElementOf k e then (r.cut d).toList else []

/-- Whether a colon comes behind a lexeme, wherever it stands among given ones. -/
def FollowedByColon (whole : List Lexeme) (l : Lexeme) : Prop :=
  ∀ back, l :: back <:+ whole → ∃ colon ∈ back.head?, colon.kind = .colon

/-- Whether a node of a document with the lexemes `whole` lets a change through: strings are made
of invalid values and of what stands for a key in front of a colon, and a sign stays with its
number. -/
def Fits (whole : List Lexeme) : Draft → Prop
  | leaf _ => True
  | node kind before first rest _ =>
    (∀ l, leaf l ∈ first :: rest → r.quotes l = true →
      kind = .invalidValue ∧ rest = [] ∨
        kind = .error ∧ first = leaf l ∧ before ≠ none ∧ FollowedByColon whole l) ∧
    (∀ plus number, first = leaf plus → rest = [leaf number] →
      isSignedNumber plus.token number.token = true →
      isSignedNumber (r.map plus).token (r.map number).token = true)

/-- What the lexemes behind a row become: the next one is what becomes of the old one, or a comma
in front of a lexeme that ends no container. -/
inductive Ends (e : List Container) : List Lexeme → List Lexeme → Prop where
  | nothing : Ends e [] []
  | token {l ls ls'} : Ends e (l :: ls) (r.map l :: ls')
  | comma {l ls c ls'} (hc : c.kind = .comma) (hl : closesAny e l.kind = false) :
      Ends e (l :: ls) (c :: ls')

end Recasting

/-- The rows before and after a change; `k` is the kind of the node they are parts of. -/
inductive Recast (r : Recasting) : NodeKind → List Draft → List Draft → Prop where
  | nil {k} : Recast r k [] []
  | leaf {k l} (hl : r.quotes l = false) : Recast r k [leaf l] [leaf (r.map l)]
  | node {k kind before before' first first' rest rest' after after'}
      (hb : Option.Rel r.alike before before') (ha : Option.Rel r.alike after after')
      (hparts : Recast r kind (first :: rest) (first' :: rest')) :
      Recast r k [node kind before first rest after] [node kind before' first' rest' after']
  | quotedValue {k l} (hl : r.quotes l = true) :
      Recast r k [invalid l] [plain .value (leaf (r.map l)) []]
  | quotedKey {k key colon value value' note note'} (hkey : r.quotes key = true)
      (hq : isQuotable key.kind = true) (hnote : Option.Rel r.alike note note')
      (hparts : Recast r .error (leaf colon :: value) (leaf (r.map colon) :: value')) :
      Recast r k [member key colon value note] [member (r.map key) (r.map colon) value' note']
  | cons {k d d' ds ds'} (hd : Recast r k [d] [d']) (hds : Recast r k ds ds') :
      Recast r k (d :: ds) (d' :: ((r.separator k d ds).map Draft.leaf ++ ds'))

section
variable {r : Recasting} {k : NodeKind}

/-! ## What is kept of kinds -/

namespace Recasting

theorem quotes_eq_false {l : Lexeme}
    (h : (l.kind == .identifier || isQuotable l.kind) = false) : r.quotes l = false := by
  cases hl : r.quotes l with
  | false => rfl
  | true => rw [(r.kind_quotes hl).1] at h; exact absurd h Bool.false_ne_true.symm

theorem kind_map_of {P : TokenKind → Prop} {l : Lexeme} (h : P l.kind) (hstring : P .string) :
    P (r.map l).kind := by
  cases hl : r.quotes l with
  | false => rwa [r.kind_map hl]
  | true => rwa [(r.kind_quotes hl).2]

theorem quotes_of_isBracket {l : Lexeme}
    (h : (l.kind.isOpener || l.kind.isCloser) = true) : r.quotes l = false := by
  apply r.quotes_eq_false
  revert h
  cases l.kind <;> decide

theorem quotes_of_closesAny {e : List Container} {l : Lexeme} (h : closesAny e l.kind = true) :
    r.quotes l = false :=
  quotes_of_isBracket (by rw [isCloser_of_closesAny h, Bool.or_true])

theorem separator_eq_nil {d : Draft} {ds : List Draft} (h : isElementOf k d = false) :
    r.separator k d ds = [] := by
  cases ds with
  | nil => rfl
  | cons e ds => rw [separator, h, Bool.false_and, if_neg Bool.false_ne_true]

theorem separator_cases (r : Recasting) (k : NodeKind) (d : Draft) (ds : List Draft) :
    r.separator k d ds = [] ∨ ∃ c e ds', ds = e :: ds' ∧ r.separator k d ds = [c] ∧
      c.kind = .comma ∧ isElementOf k e = true := by
  cases ds with
  | nil => exact .inl rfl
  | cons e ds =>
    cases hcut : r.cut d with
    | none =>
      refine .inl ?_
      rw [separator, hcut]
      split <;> rfl
    | some c =>
      by_cases h : (isElementOf k d && isElementOf k e) = true
      · refine .inr ⟨c, e, ds, rfl, ?_, r.kind_cut hcut, ((Bool.and_eq_true ..).mp h).2⟩
        rw [separator, if_pos h, hcut]
        rfl
      · exact .inl (by rw [separator, if_neg h])

end Recasting

/-! ## Rows -/

namespace Recast

theorem eq_nil {ds' : List Draft} (h : Recast r k [] ds') : ds' = [] := by
  cases h
  rfl

/-- A row begins with what becomes of its first lexeme. -/
theorem exists_cons {d : Draft} {ds row : List Draft} (h : Recast r k (d :: ds) row) :
    ∃ d' ds', row = d' :: ds' ∧ d'.firstLexeme = r.map d.firstLexeme := by
  generalize hold : d :: ds = old at h
  induction h generalizing d ds with
  | nil => exact absurd hold (by simp)
  | leaf hl =>
    obtain ⟨rfl, -⟩ := List.cons.inj hold
    exact ⟨_, [], rfl, rfl⟩
  | node hb ha hparts ih =>
    obtain ⟨rfl, -⟩ := List.cons.inj hold
    obtain ⟨d', ds', hrow, hfirst⟩ := ih rfl
    obtain ⟨rfl, -⟩ := List.cons.inj hrow
    exact ⟨_, [], rfl, hfirst⟩
  | quotedValue hl =>
    obtain ⟨rfl, -⟩ := List.cons.inj hold
    exact ⟨_, [], rfl, rfl⟩
  | quotedKey hkey hq hnote hparts =>
    obtain ⟨rfl, -⟩ := List.cons.inj hold
    exact ⟨_, [], rfl, by simp⟩
  | cons hd hds ihd =>
    obtain ⟨rfl, -⟩ := List.cons.inj hold
    obtain ⟨d', ds', hrow, hfirst⟩ := ihd rfl
    obtain ⟨rfl, -⟩ := List.cons.inj hrow
    exact ⟨_, _, rfl, hfirst⟩

theorem cons_of_not_isElementOf {d d' : Draft} {ds ds' : List Draft} (hd : Recast r k [d] [d'])
    (hds : Recast r k ds ds') (he : isElementOf k d = false) :
    Recast r k (d :: ds) (d' :: ds') := by
  have h := Recast.cons hd hds
  rw [Recasting.separator_eq_nil he] at h
  exact h

theorem exists_tail {d d' : Draft} {ds row : List Draft} (h : Recast r k (d :: ds) (d' :: row)) :
    ∃ ds', row = (r.separator k d ds).map Draft.leaf ++ ds' ∧ Recast r k [d] [d'] ∧
      Recast r k ds ds' := by
  generalize hold : d :: ds = old at h
  generalize hnew : d' :: row = new at h
  have hsingle (hd : Recast r k [d] [d']) (hds : ds = []) (hrow : row = []) :
      ∃ ds', row = (r.separator k d ds).map Draft.leaf ++ ds' ∧ Recast r k [d] [d'] ∧
        Recast r k ds ds' := by
    subst hds hrow
    exact ⟨[], rfl, hd, .nil⟩
  cases h with
  | nil => exact absurd hold (by simp)
  | leaf hl =>
    obtain ⟨rfl, hds⟩ := List.cons.inj hold
    obtain ⟨rfl, hrow⟩ := List.cons.inj hnew
    exact hsingle (.leaf hl) hds hrow
  | node hb ha hparts =>
    obtain ⟨rfl, hds⟩ := List.cons.inj hold
    obtain ⟨rfl, hrow⟩ := List.cons.inj hnew
    exact hsingle (.node hb ha hparts) hds hrow
  | quotedValue hl =>
    obtain ⟨rfl, hds⟩ := List.cons.inj hold
    obtain ⟨rfl, hrow⟩ := List.cons.inj hnew
    exact hsingle (.quotedValue hl) hds hrow
  | quotedKey hkey hq hnote hparts =>
    obtain ⟨rfl, hds⟩ := List.cons.inj hold
    obtain ⟨rfl, hrow⟩ := List.cons.inj hnew
    exact hsingle (.quotedKey hkey hq hnote hparts) hds hrow
  | cons hd hds =>
    obtain ⟨rfl, rfl⟩ := List.cons.inj hold
    obtain ⟨rfl, rfl⟩ := List.cons.inj hnew
    exact ⟨_, rfl, hd, hds⟩

theorem startsWithColon_eq {ds ds' : List Draft} (h : Recast r k ds ds') :
    startsWithColon ds' = startsWithColon ds := by
  induction h with
  | nil => rfl
  | leaf hl => exact congrArg (· == TokenKind.colon) (r.kind_map hl)
  | node => rfl
  | quotedValue => rfl
  | quotedKey =>
    unfold member
    split <;> split <;> rfl
  | cons hd hds ihd => exact ihd

theorem isQuotableToken_eq {ds ds' : List Draft} (h : Recast r k ds ds') :
    ds'.head?.map isQuotableToken = ds.head?.map isQuotableToken := by
  induction h with
  | nil => rfl
  | leaf hl => exact congrArg (some <| isQuotable ·) (r.kind_map hl)
  | node => rfl
  | quotedValue => rfl
  | quotedKey =>
    unfold member
    split <;> split <;> rfl
  | cons hd hds ihd => exact ihd

theorem beginsMember_of {ds ds' : List Draft} (h : Recast r k ds ds')
    (hds : beginsMember ds = true) : beginsMember ds' = true := by
  induction h with
  | nil => rfl
  | @leaf _ l hl =>
    have hds : (l.kind == .comma) = true := hds
    show ((r.map l).kind == .comma) = true
    rwa [r.kind_map hl]
  | @node _ kind _ _ first first' _ _ _ _ _ _ hparts =>
    have hds : (kind == .keyValue && first.firstLexeme.kind.isKeyStart) = true := hds
    show (kind == .keyValue && first'.firstLexeme.kind.isKeyStart) = true
    rw [Bool.and_eq_true] at hds ⊢
    obtain ⟨d', ds', hrow, hfirst⟩ := hparts.exists_cons
    obtain ⟨rfl, -⟩ := List.cons.inj hrow
    rw [hfirst]
    exact ⟨hds.1, r.kind_map_of (P := fun kind => kind.isKeyStart = true) hds.2 rfl⟩
  | quotedValue => exact absurd hds Bool.false_ne_true
  | quotedKey hkey hq =>
    rw [member_of_isQuotable hq] at hds
    exact absurd hds Bool.false_ne_true
  | @cons _ d d' ds ds' hd _ ihd =>
    have hd : beginsMember [d] = true := by cases d <;> exact hds
    have hd' := ihd hd
    cases d' <;> exact hd'

/-- A row ends with what becomes of its last lexeme, or of the lexeme in front of it. -/
theorem exists_lastToken {ds ds' : List Draft} (h : Recast r k ds ds') (l : Lexeme) :
    ∃ m, lastTokenFrom l.token ds = m.token ∧
      lastTokenFrom (r.map l).token ds' = (r.map m).token := by
  induction h generalizing l with
  | nil => exact ⟨l, rfl, rfl⟩
  | @leaf _ l' => exact ⟨l', rfl, rfl⟩
  | node _ _ _ ih => exact ih l
  | @quotedValue _ l' => exact ⟨l', rfl, rfl⟩
  | @quotedKey _ key colon value value' note note' _ _ _ _ ih =>
    have hmember (key colon : Lexeme) (value : List Draft) (note : Option ParseError) (t : Token) :
        lastTokenFrom t [member key colon value note] =
          lastTokenFrom t (Draft.leaf colon :: value) := by
      unfold member
      split <;> rfl
    rw [hmember, hmember]
    exact ih l
  | @cons k d d' ds ds' _ hds ihd ih =>
    obtain ⟨m, hm, hm'⟩ := ihd l
    obtain ⟨n, hn, hn'⟩ := ih m
    have hm : d.lastToken = m.token := hm
    have hm' : d'.lastToken = (r.map m).token := hm'
    refine ⟨n, by rw [lastTokenFrom, hm, hn], ?_⟩
    rw [lastTokenFrom, hm', ← hn']
    rcases Recasting.separator_cases r k d ds with hnone | ⟨c, e, ds, rfl, hc, -⟩
    · rw [hnone]
      rfl
    · obtain ⟨d₂, ds₂, rfl, -⟩ := hds.exists_cons
      rw [hc]
      rfl

end Recast

/-! ## First lexemes -/

theorem forall_head?_of_read {eof : Token} {e : List Container} {slot : Slot}
    {behind : List Lexeme} {ds : List Draft} (h : Read eof e slot behind ds) :
    ∀ d ∈ ds.head?, closesAny e d.firstLexeme.kind = false := by
  have hfirst {e : List Container} {d : Draft} {ds : List Draft} (l : Lexeme)
      (hl : d.firstLexeme = l) (h : closesAny e l.kind = false) :
      ∀ x ∈ (d :: ds).head?, closesAny e x.firstLexeme.kind = false := by
    rintro _ ⟨⟩
    rwa [hl]
  have hkey {e : List Container} {l : Lexeme} (h : (isKey l.kind || isQuotable l.kind) = true) :
      closesAny e l.kind = false := ReadAs.closesAny_eq_false (not_isBracket_of_isKey _ h).2.1
  have hopener {e : List Container} {l : Lexeme} (h : l.kind.isOpener = true) :
      closesAny e l.kind = false := ReadAs.closesAny_eq_false (not_isCloser_of_isOpener h)
  have hcontainer {e : List Container} {c : Container} {l : Lexeme} (h : l.kind = c.opener) :
      closesAny e l.kind = false := hopener (by rw [h, isOpener_opener])
  have htoken {e : List Container} {l : Lexeme} {kind : TokenKind} (hl : l.kind = kind)
      (h : kind.isCloser = false) : closesAny e l.kind = false :=
    ReadAs.closesAny_eq_false (by rw [hl, h])
  induction h with
  | scalar hl =>
    exact hfirst _ rfl (ReadAs.closesAny_eq_false (not_isBracket_of_isScalar hl).2)
  | invalid hl hc => exact hfirst _ rfl hc
  | signed h => exact hfirst _ rfl (htoken (isSignedNumber_eq_true.mp h).1 rfl)
  | tooDeep ho => exact hfirst _ rfl (hopener ho)
  | closed ho => exact hfirst _ (firstLexeme_container ..) (hcontainer ho)
  | unclosed ho => exact hfirst _ (firstLexeme_container ..) (hcontainer ho)
  | nil => exact fun _ h => absurd h (by simp)
  | comma hl => exact hfirst _ rfl (htoken hl rfl)
  | stray hl => exact hfirst _ rfl (htoken hl rfl)
  | item _ _ _ ihd => exact hfirst _ rfl (ihd _ rfl)
  | member hk => exact hfirst _ (firstLexeme_member ..) (hkey hk)
  | memberAlone hk => exact hfirst _ (firstLexeme_member ..) (hkey hk)
  | @incomplete _ _ _ key _ hk => exact hfirst key rfl (hkey (by rw [hk, Bool.true_or]))
  | @incompleteSkipped _ _ _ key _ _ _ hk =>
    exact hfirst key rfl (hkey (by rw [hk, Bool.true_or]))
  | @junk _ _ _ first _ _ _ _ _ _ ihs => exact hfirst first.firstLexeme rfl (ihs first rfl)
  | skippedNil => exact fun _ h => absurd h (by simp)
  | skippedToken _ _ hc => exact hfirst _ rfl hc
  | skippedScalar hc => exact hfirst _ rfl (htoken hc rfl)
  | skippedValue ho => exact hfirst _ rfl (hopener ho)

/-- No row begins with a closer of a container around it. -/
theorem not_closesAny_of_read {eof : Token} {e : List Container} {slot : Slot}
    {behind : List Lexeme} {d : Draft} {ds : List Draft} (h : Read eof e slot behind (d :: ds)) :
    closesAny e d.firstLexeme.kind = false :=
  forall_head?_of_read h d rfl

theorem ne_comma_of_isElementOf {eof : Token} {e : List Container} {c : Container} {b : Bool}
    {behind : List Lexeme} {d : Draft} {ds : List Draft}
    (h : Read eof e (.list c b) behind (d :: ds)) (hd : isElementOf c.listKind d = true) :
    d.firstLexeme.kind ≠ .comma := by
  have hmember {key colon : Lexeme} {value : List Draft} {note : Option ParseError}
      (hk : (isKey key.kind || isQuotable key.kind) = true) :
      (member key colon value note).firstLexeme.kind ≠ .comma := by
    rw [firstLexeme_member]
    exact (not_isBracket_of_isKey _ hk).2.2
  cases h with
  | comma => cases c <;> exact absurd hd Bool.false_ne_true
  | stray => cases c <;> exact absurd hd Bool.false_ne_true
  | item hfirst => exact hfirst
  | member hk => exact hmember hk
  | memberAlone hk => exact hmember hk
  | incomplete => exact absurd hd Bool.false_ne_true
  | incompleteSkipped => exact absurd hd Bool.false_ne_true
  | junk => exact absurd hd Bool.false_ne_true

/-- Only a comma is read differently behind another. -/
theorem read_separated {eof : Token} {e : List Container} {c : Container} {b : Bool}
    {behind : List Lexeme} {ds : List Draft} (h : Read eof e (.list c false) behind ds)
    (hfirst : ∀ d ∈ ds.head?, d.firstLexeme.kind ≠ .comma) : Read eof e (.list c b) behind ds := by
  cases h with
  | nil hends => exact .nil hends
  | comma hl => exact absurd hl (hfirst _ rfl)
  | item hne hd hds => exact .item hne hd hds
  | member hk hc hne hnext hv hds => exact .member hk hc hne hnext hv hds
  | memberAlone hk hc hnext hds => exact .memberAlone hk hc hnext hds
  | incomplete hk hnext hds => exact .incomplete hk hnext hds
  | incompleteSkipped hk hcolon hs hnext hds => exact .incompleteSkipped hk hcolon hs hnext hds
  | junk hs hq hnext hds => exact .junk hs hq hnext hds

/-! ## What a row needs -/

namespace Recasting

/-- What a row of a document with the lexemes `whole` needs to be recast: its nodes let the change
through, and of its own tokens, and of a key behind skipped ones, no string is made. -/
structure Admits (r : Recasting) (whole : List Lexeme) (slot : Slot) (behind : List Lexeme)
    (ds : List Draft) : Prop where
  stretch : lexemesList ds ++ behind <:+ whole
  fits : EveryNode (r.Fits whole) ds
  leaves : ∀ l, leaf l ∈ ds → r.quotes l = false
  resumed : slot = .skipped → ∀ h ∈ behind.head?, isKey h.kind = true → r.quotes h = false

/-- Whether no sign comes nearer to a number. -/
def KeepsApart (r : Recasting) (whole : List Lexeme) : Prop :=
  ∀ l m, [l, m] <:+: whole → isSignedNumber (r.map l).token (r.map m).token = true →
    r.quotes l = false → isSignedNumber l.token m.token = true

end Recasting

/-- Whether a slot is one for parts of a node of a kind. -/
def Slot.IsIn (k : NodeKind) : Slot → Prop
  | .value => True
  | .list c _ => k = c.listKind
  | .skipped => k = .error

/-- A row can be recast, whatever the lexemes behind it become; `eof` ends the input then. -/
def CanRecast (r : Recasting) (eof : Token) (e : List Container) (slot : Slot)
    (behind : List Lexeme) (ds : List Draft) : Prop :=
  ∀ behind', r.Ends e behind behind' →
    ∃ ds', Read eof e slot behind' ds' ∧ ∀ k, slot.IsIn k → Recast r k ds ds'

variable {eof eof' : Token} {e : List Container} {whole behind behind' : List Lexeme} {slot : Slot}

theorem Recasting.Fits.leaves {kind : NodeKind} {before after : Option ParseError} {first : Draft}
    {rest : List Draft} (h : r.Fits whole (Draft.node kind before first rest after))
    (hkind : kind ≠ .invalidValue) (herror : kind = .error → before = none) :
    ∀ l, Draft.leaf l ∈ first :: rest → r.quotes l = false := by
  intro l hl
  cases hq : r.quotes l with
  | false => rfl
  | true =>
    rcases h.1 l hl hq with ⟨hvalue, -⟩ | ⟨hk, -, hbefore, -⟩
    · exact absurd hvalue hkind
    · exact absurd (herror hk) hbefore

theorem quotes_of_key {key : Lexeme} (h : EveryNode (r.Fits whole) [plain .key (leaf key) []]) :
    r.quotes key = false :=
  (everyNode_node_iff.mp h).1.leaves (by simp) (by simp) key List.mem_cons_self

theorem Recasting.Ends.append {ds ds' : List Draft} (h : r.Ends e behind behind')
    (hds : Recast r k ds ds') : r.Ends e (lexemesList ds ++ behind) (lexemesList ds' ++ behind') := by
  cases ds with
  | nil =>
    obtain rfl := hds.eq_nil
    exact h
  | cons d ds =>
    obtain ⟨d', ds', rfl, hfirst⟩ := hds.exists_cons
    obtain ⟨ls, hls⟩ := exists_lexemes_eq_cons d
    obtain ⟨ls', hls'⟩ := exists_lexemes_eq_cons d'
    rw [lexemesList_cons, lexemesList_cons, hls, hls', hfirst]
    exact .token

/-! ## Values -/

theorem canRecast_scalar {l : Lexeme} (hl : l.kind.isScalar = true)
    (h : r.Admits whole .value behind [plain .value (leaf l) []]) :
    CanRecast r eof' e .value behind [plain .value (leaf l) []] := by
  intro behind' _
  have hq : r.quotes l = false :=
    (everyNode_node_iff.mp h.fits).1.leaves (by simp) (by simp) l List.mem_cons_self
  exact ⟨[plain .value (leaf (r.map l)) []], .scalar (by rwa [r.kind_map hq]),
    fun k _ => .node .none .none (.leaf hq)⟩

theorem canRecast_invalid {l : Lexeme} (hl : l.kind.startsValue = false)
    (hc : closesAny e l.kind = false)
    (hnext : ∀ h ∈ behind.head?, isSignedNumber l.token h.token = false)
    (hkeeps : r.KeepsApart whole) (h : r.Admits whole .value behind [invalid l]) :
    CanRecast r eof' e .value behind [invalid l] := by
  intro behind' hends
  cases hq : r.quotes l with
  | true =>
    have hstring : (r.map l).kind = .string := (r.kind_quotes hq).2
    exact ⟨[plain .value (leaf (r.map l)) []], .scalar (by rw [hstring]; rfl),
      fun k _ => .quotedValue hq⟩
  | false =>
    have hkind := r.kind_map hq
    refine ⟨[invalid (r.map l)], .invalid (by rwa [hkind]) (by rwa [hkind]) ?_,
      fun k _ => .node .none .none (.node (.some (r.alike_stretch _ l hq)) .none (.leaf hq))⟩
    cases hends with
    | nothing => simp
    | @token m ms ms' =>
      intro m' hm'
      obtain rfl := Option.some.inj hm'
      refine Bool.eq_false_iff.mpr fun hsigned => ?_
      have hstretch : [l] ++ (m :: ms) <:+ whole := h.stretch
      obtain ⟨front, hfront⟩ := hstretch
      have hpair : [l, m] <:+: whole := ⟨front, ms, by rw [← hfront]; simp⟩
      have hold := hkeeps l m hpair hsigned hq
      rw [hnext m rfl] at hold
      exact absurd hold Bool.false_ne_true
    | comma hc =>
      intro m' hm'
      obtain rfl := Option.some.inj hm'
      refine isSignedNumber_of_ne fun hnumber => ?_
      have hnumber : Lexeme.kind _ = .number := hnumber
      rw [hc] at hnumber
      exact absurd hnumber (by decide)

theorem canRecast_signed {plus number : Lexeme}
    (hsigned : isSignedNumber plus.token number.token = true)
    (h : r.Admits whole .value behind [signed plus number]) :
    CanRecast r eof' e .value behind [signed plus number] := by
  intro behind' _
  have hnode := (everyNode_node_iff.mp
    (everyNode_cons_iff.mp (everyNode_node_iff.mp h.fits).2).1).1
  have hleaves : ∀ l, leaf l ∈ [leaf plus, leaf number] → r.quotes l = false := by
    intro l hl
    cases hq : r.quotes l with
    | false => rfl
    | true =>
      rcases hnode.1 l hl hq with ⟨-, hrest⟩ | ⟨herror, -⟩
      · exact absurd hrest (by simp)
      · exact absurd herror (by simp)
  have hplus := hleaves plus (by simp)
  have hnumber := hleaves number (by simp)
  refine ⟨[signed (r.map plus) (r.map number)], .signed (hnode.2 plus number rfl rfl hsigned),
    fun k _ => .node .none .none (.node (.some (r.alike_cover hplus hnumber hsigned)) .none ?_)⟩
  exact (Recast.leaf hplus).cons_of_not_isElementOf (.leaf hnumber) rfl

theorem recast_map_leaf {ls : List Lexeme} (h : ∀ l ∈ ls, r.quotes l = false) :
    Recast r k (ls.map leaf) ((ls.map r.map).map leaf) := by
  induction ls with
  | nil => exact .nil
  | cons l ls ih =>
    have hl : isElementOf k (leaf l) = false := by cases k <;> rfl
    exact (Recast.leaf (h l List.mem_cons_self)).cons_of_not_isElementOf
      (ih fun m hm => h m (List.mem_cons_of_mem _ hm)) hl

/-- The brackets of a run pair up in front of other lexemes as well. -/
theorem balancedRun_map {depth : Nat} {run : List Lexeme}
    (h : balancedRun depth (run ++ behind) = (run, behind))
    (hrun : ∀ l ∈ run, r.quotes l = false) (hbehind : behind = [] → behind' = []) :
    balancedRun depth (run.map r.map ++ behind') = (run.map r.map, behind') := by
  induction run generalizing depth with
  | nil =>
    cases behind with
    | nil => rw [hbehind rfl]; rfl
    | cons l ls =>
      rw [List.nil_append, balancedRun] at h
      split at h
      · rename_i hdepth
        cases behind' with
        | nil => rfl
        | cons => rw [List.map_nil, List.nil_append, balancedRun, if_pos hdepth]
      · exact absurd (congrArg Prod.fst h) (by simp)
  | cons l run ih =>
    rw [List.cons_append, balancedRun] at h
    split at h
    · exact absurd (congrArg Prod.fst h) (by simp)
    · rename_i hdepth
      have hrest : balancedRun (depthAfter depth l.kind) (run ++ behind) = (run, behind) :=
        Prod.ext (List.cons.inj (Prod.mk.inj h).1).2 (Prod.mk.inj h).2
      rw [List.map_cons, List.cons_append, balancedRun, if_neg hdepth,
        r.kind_map (hrun l List.mem_cons_self),
        ih hrest fun m hm => hrun m (List.mem_cons_of_mem _ hm)]

theorem canRecast_tooDeep {opener : Lexeme} {run : List Lexeme}
    (ho : opener.kind.isOpener = true) (he : Container.maxDepth ≤ e.length)
    (hrun : balancedRun 1 (run ++ behind) = (run, behind))
    (h : r.Admits whole .value behind [tooDeep opener run]) :
    CanRecast r eof' e .value behind [tooDeep opener run] := by
  intro behind' hends
  have hnode := (everyNode_node_iff.mp
    (everyNode_cons_iff.mp (everyNode_node_iff.mp h.fits).2).1).1
  have hopener : r.quotes opener = false := Recasting.quotes_of_isBracket (by rw [ho, Bool.true_or])
  have hleaves : ∀ l ∈ run, r.quotes l = false := by
    intro l hl
    have hmem := List.mem_map_of_mem (f := leaf) hl
    cases hq : r.quotes l with
    | false => rfl
    | true =>
      rcases hnode.1 l (List.mem_cons_of_mem _ hmem) hq with ⟨-, hrest⟩ | ⟨herror, -⟩
      · rw [hrest] at hmem
        exact absurd hmem List.not_mem_nil
      · exact absurd herror (by simp)
  have hbehind : behind = [] → behind' = [] := by
    rintro rfl
    cases hends
    rfl
  have hrow : Recast r .invalidValue (run.map leaf) ((run.map r.map).map leaf) :=
    recast_map_leaf hleaves
  obtain ⟨m, hm, hm'⟩ := hrow.exists_lastToken opener
  refine ⟨[tooDeep (r.map opener) (run.map r.map)],
    .tooDeep (by rwa [r.kind_map hopener]) he (balancedRun_map hrun hleaves hbehind),
    fun k _ => .node .none .none (.node .none ?_
      ((Recast.leaf hopener).cons_of_not_isElementOf hrow rfl))⟩
  rw [hm, hm']
  exact .some (r.alike_stretch _ m hopener)

/-! ## Containers -/

theorem isElementOf_nodeKind (c : Container) (d : Draft) : isElementOf c.nodeKind d = false := by
  cases c <;> rfl

theorem recast_container {c : Container} {opener : Lexeme} {ds ds' : List Draft}
    {closer : Option Lexeme} {next next' : Token} (ho : r.quotes opener = false)
    (hc : ∀ l ∈ closer, r.quotes l = false) (hds : Recast r c.listKind ds ds') :
    Recast r k [container c opener ds closer next]
      [container c (r.map opener) ds' (closer.map r.map) next'] := by
  have hcloser : Recast r c.nodeKind (closer.map leaf).toList ((closer.map r.map).map leaf).toList := by
    cases closer with
    | none => exact .nil
    | some l => exact .leaf (hc l rfl)
  have htail : Recast r c.nodeKind (wrap c.listKind ds ++ (closer.map leaf).toList)
      (wrap c.listKind ds' ++ ((closer.map r.map).map leaf).toList) := by
    cases ds with
    | nil =>
      rw [hds.eq_nil]
      exact hcloser
    | cons d ds =>
      obtain ⟨d', ds', rfl, -⟩ := hds.exists_cons
      exact Recast.cons_of_not_isElementOf (.node .none .none hds) hcloser
        (isElementOf_nodeKind c _)
  have hparts := (Recast.leaf ho).cons_of_not_isElementOf htail (isElementOf_nodeKind c _)
  obtain ⟨m, hm, hm'⟩ := htail.exists_lastToken opener
  refine .node .none .none (.node .none ?_ hparts)
  cases closer with
  | some l => exact .none
  | none =>
    have hgap := r.alike_gap c.expectedCloser next next' m
    rw [← hm, ← hm'] at hgap
    exact .some hgap

theorem Recasting.Admits.contents {c : Container} {opener : Lexeme} {ds : List Draft}
    {closer : Option Lexeme} {next : Token}
    (h : r.Admits whole .value behind [container c opener ds closer next]) :
    r.Admits whole (.list c true) (closer.toList ++ behind) ds := by
  have hnode := (everyNode_node_iff.mp
    (everyNode_cons_iff.mp (everyNode_node_iff.mp h.fits).2).1).2
  have hparts := (everyNode_append_iff.mp (everyNode_cons_iff.mp hnode).2).1
  have hstretch := h.stretch
  rw [lexemesList_singleton, lexemes_container, List.append_assoc] at hstretch
  refine ⟨?_, ?_, ?_, by simp⟩
  · exact (List.suffix_append [opener] _).trans hstretch
  · cases ds with
    | nil => exact everyNode_nil
    | cons d ds => exact (everyNode_node_iff.mp hparts).2
  · cases ds with
    | nil => simp
    | cons d ds =>
      exact (everyNode_node_iff.mp hparts).1.leaves (by cases c <;> simp [Container.listKind])
        (by simp)

theorem canRecast_closed {c : Container} {opener closer : Lexeme} {ds : List Draft}
    (ho : opener.kind = c.opener) (hc : closer.kind = c.closer)
    (he : e.length < Container.maxDepth)
    (hds : CanRecast r eof' (c :: e) (.list c true) (closer :: behind) ds) :
    CanRecast r eof' e .value behind [container c opener ds (some closer) closer.token] := by
  intro behind' _
  have hopener : r.quotes opener = false :=
    Recasting.quotes_of_isBracket (by rw [ho, isOpener_opener, Bool.true_or])
  have hcloser : r.quotes closer = false :=
    Recasting.quotes_of_closesAny (by rw [hc]; exact ReadAs.closesAny_closer (e := e) c)
  obtain ⟨ds', hread, hrecast⟩ := hds (r.map closer :: behind') .token
  refine ⟨[container c (r.map opener) ds' (some (r.map closer)) (r.map closer).token],
    .closed (by rwa [r.kind_map hopener]) (by rwa [r.kind_map hcloser]) he hread, fun k _ => ?_⟩
  exact recast_container hopener (by simpa using hcloser) (hrecast _ rfl)

theorem canRecast_unclosed {c : Container} {opener : Lexeme} {ds : List Draft} {next : Token}
    (ho : opener.kind = c.opener) (he : e.length < Container.maxDepth)
    (hends : ∀ h ∈ behind.head?, closesAny e h.kind = true ∧ h.kind ≠ c.closer)
    (hds : CanRecast r eof' (c :: e) (.list c true) behind ds) :
    CanRecast r eof' e .value behind [container c opener ds none next] := by
  intro behind' hbehind
  have hopener : r.quotes opener = false :=
    Recasting.quotes_of_isBracket (by rw [ho, isOpener_opener, Bool.true_or])
  -- a comma is put in front of no closer, so the same closer is behind the container
  have hsame : r.Ends (c :: e) behind behind' ∧
      ∀ h ∈ behind'.head?, closesAny e h.kind = true ∧ h.kind ≠ c.closer := by
    cases hbehind with
    | nothing => exact ⟨.nothing, by simp⟩
    | @token l ls ls' =>
      have hl := hends l rfl
      refine ⟨.token, fun h hh => ?_⟩
      obtain rfl := Option.some.inj hh
      rwa [r.kind_map (Recasting.quotes_of_closesAny hl.1)]
    | @comma l ls _ _ _ hl =>
      rw [(hends l rfl).1] at hl
      exact absurd hl.symm Bool.false_ne_true
  obtain ⟨ds', hread, hrecast⟩ := hds behind' hsame.1
  refine ⟨[container c (r.map opener) ds' none (nextOf eof' behind')],
    .unclosed (by rwa [r.kind_map hopener]) he hsame.2 hread, fun k _ => ?_⟩
  exact recast_container hopener (by simp) (hrecast _ rfl)

/-! ## Lists -/

theorem exists_row {c : Container} {ds : List Draft} (hread : Read eof e (.list c false) behind ds)
    (hrec : CanRecast r eof' e (.list c false) behind ds) (hends : r.Ends e behind behind')
    (d : Draft) : ∃ row, Read eof' e (.list c false) behind' row ∧
      r.Ends e (lexemesList ds ++ behind) (lexemesList row ++ behind') ∧
      (beginsMember ds = true → beginsMember row = true) ∧
      ∀ d', Recast r c.listKind [d] [d'] → Recast r c.listKind (d :: ds) (d' :: row) := by
  obtain ⟨ds', hread', hrecast⟩ := hrec behind' hends
  have hds := hrecast c.listKind rfl
  refine ⟨(r.separator c.listKind d ds).map leaf ++ ds', ?_⟩
  rcases Recasting.separator_cases r c.listKind d ds with hnone | ⟨l, next, ds, rfl, hcomma, hl, hnext⟩
  · have hcons := fun d' (hd : Recast r c.listKind [d] [d']) => Recast.cons hd hds
    rw [hnone] at hcons ⊢
    exact ⟨hread', hends.append hds, hds.beginsMember_of, hcons⟩
  · have hcons := fun d' (hd : Recast r c.listKind [d] [d']) => Recast.cons hd hds
    obtain ⟨next', ds', rfl, hfirst⟩ := hds.exists_cons
    have hne : next'.firstLexeme.kind ≠ .comma := by
      rw [hfirst]
      exact r.kind_map_of (P := (· ≠ .comma)) (ne_comma_of_isElementOf hread hnext) (by decide)
    rw [hcomma] at hcons ⊢
    refine ⟨.comma hl (read_separated hread' (by simpa using hne)), ?_, fun _ => by
      simp [beginsMember, hl], hcons⟩
    obtain ⟨ls, hls⟩ := exists_lexemes_eq_cons next
    have hopen := not_closesAny_of_read hread
    rw [lexemesList_cons, hls]
    exact .comma hl hopen

theorem Recast.exists_eq_singleton {d : Draft} {row : List Draft} (h : Recast r k [d] row) :
    ∃ d', row = [d'] ∧ d'.firstLexeme = r.map d.firstLexeme := by
  obtain ⟨d', ds', rfl, hfirst⟩ := h.exists_cons
  obtain ⟨ds', rfl, -, hnil⟩ := h.exists_tail
  rw [hnil.eq_nil]
  exact ⟨d', rfl, hfirst⟩

theorem CanRecast.exists_value {d : Draft} (h : CanRecast r eof e .value behind [d])
    (hends : r.Ends e behind behind') : ∃ d', Read eof e .value behind' [d'] ∧
      d'.firstLexeme = r.map d.firstLexeme ∧ ∀ k, Recast r k [d] [d'] := by
  obtain ⟨row, hread, hrecast⟩ := h behind' hends
  obtain ⟨d', rfl, hfirst⟩ := (hrecast .value trivial).exists_eq_singleton
  exact ⟨d', hread, hfirst, fun k => hrecast k trivial⟩

theorem canRecast_nil {c : Container} {b : Bool}
    (hends : ∀ h ∈ behind.head?, closesAny e h.kind = true) :
    CanRecast r eof' e (.list c b) behind [] := by
  intro behind' hbehind
  refine ⟨[], .nil ?_, fun _ _ => .nil⟩
  cases hbehind with
  | nothing => simp
  | @token l _ _ =>
    have hl := hends l rfl
    intro h hh
    obtain rfl := Option.some.inj hh
    rwa [r.kind_map (Recasting.quotes_of_closesAny hl)]
  | @comma l _ _ _ _ hl =>
    rw [hends l rfl] at hl
    exact absurd hl.symm Bool.false_ne_true

theorem isElementOf_leaf (k : NodeKind) (l : Lexeme) : isElementOf k (leaf l) = false := by
  cases k <;> rfl

theorem quotes_of_comma {l : Lexeme} (hl : l.kind = .comma) : r.quotes l = false :=
  Recasting.quotes_eq_false (by rw [hl]; rfl)

theorem quotes_of_colon {l : Lexeme} (hl : l.kind = .colon) : r.quotes l = false :=
  Recasting.quotes_eq_false (by rw [hl]; rfl)

theorem canRecast_comma {c : Container} {l : Lexeme} {ds : List Draft} (hl : l.kind = .comma)
    (hds : CanRecast r eof' e (.list c true) behind ds) :
    CanRecast r eof' e (.list c false) behind (leaf l :: ds) := by
  intro behind' hends
  obtain ⟨ds', hread, hrecast⟩ := hds behind' hends
  have hq : r.quotes l = false := quotes_of_comma hl
  refine ⟨leaf (r.map l) :: ds', .comma (by rwa [r.kind_map hq]) hread, fun k hk => ?_⟩
  exact (Recast.leaf hq).cons_of_not_isElementOf (hrecast k hk) (isElementOf_leaf k l)

theorem isElementOf_listKind {c : Container} {kind : NodeKind} {before after : Option ParseError}
    {first : Draft} {rest : List Draft} (h : kind ≠ .keyValue) (h' : kind ≠ .value) :
    isElementOf c.listKind (node kind before first rest after) = false := by
  cases c with
  | object => exact beq_false_of_ne h
  | array => exact beq_false_of_ne h'

theorem canRecast_stray {c : Container} {l : Lexeme} {ds : List Draft} (hl : l.kind = .comma)
    (hds : CanRecast r eof' e (.list c false) behind ds) :
    CanRecast r eof' e (.list c true) behind (strayComma c.expectedElement (leaf l) :: ds) := by
  intro behind' hends
  obtain ⟨ds', hread, hrecast⟩ := hds behind' hends
  have hq : r.quotes l = false := quotes_of_comma hl
  refine ⟨strayComma c.expectedElement (leaf (r.map l)) :: ds',
    .stray (by rwa [r.kind_map hq]) hread, fun k hk => ?_⟩
  obtain rfl : k = c.listKind := hk
  exact Recast.cons_of_not_isElementOf
    (.node (.some (r.alike_stretch _ l hq)) .none (.leaf hq)) (hrecast _ rfl)
    (isElementOf_listKind (by simp) (by simp))

theorem canRecast_item {b : Bool} {d : Draft} {ds : List Draft}
    (hfirst : d.firstLexeme.kind ≠ .comma) (hread : Read eof e (.list .array false) behind ds)
    (hd : CanRecast r eof' e .value (lexemesList ds ++ behind) [d])
    (hds : CanRecast r eof' e (.list .array false) behind ds) :
    CanRecast r eof' e (.list .array b) behind (d :: ds) := by
  intro behind' hends
  obtain ⟨row, hrow, hnext, -, hrecast⟩ := exists_row hread hds hends d
  obtain ⟨d', hd', hfirst', hvalue⟩ := hd.exists_value hnext
  refine ⟨d' :: row, .item ?_ hd' hrow, fun k hk => ?_⟩
  · rw [hfirst']
    exact r.kind_map_of (P := (· ≠ .comma)) hfirst (by decide)
  · obtain rfl : k = Container.array.listKind := hk
    exact hrecast d' (hvalue _)

/-! ## Members -/

theorem rel_keyNote {key : Lexeme} (h : r.quotes key = false) :
    Option.Rel r.alike (keyNote key) (keyNote (r.map key)) := by
  unfold keyNote
  rw [r.kind_map h]
  split
  · exact .some (r.alike_stretch _ key h)
  · exact .none

theorem recast_member {key colon : Lexeme} {value value' : List Draft}
    {note note' : Option ParseError} (hk : (isKey key.kind || isQuotable key.kind) = true)
    (hc : colon.kind = .colon) (hfits : EveryNode (r.Fits whole) [member key colon value note])
    (hvalue : ∀ k, Recast r k value value') (hnote : Option.Rel r.alike note note') :
    Recast r k [member key colon value note] [member (r.map key) (r.map colon) value' note'] := by
  have hcolon : r.quotes colon = false := quotes_of_colon hc
  have hparts (k : NodeKind) : Recast r k (leaf colon :: value) (leaf (r.map colon) :: value') :=
    (Recast.leaf hcolon).cons_of_not_isElementOf (hvalue k) (isElementOf_leaf k colon)
  cases hkey : isKey key.kind with
  | true =>
    rw [member_of_isKey hkey] at hfits ⊢
    have hq := quotes_of_key (everyNode_cons_iff.mp (everyNode_node_iff.mp hfits).2).1
    rw [member_of_isKey (by rwa [r.kind_map hq])]
    exact .node (rel_keyNote hq) hnote
      (Recast.cons_of_not_isElementOf (.node .none .none (.leaf hq)) (hparts _) rfl)
  | false =>
    have hquote : isQuotable key.kind = true := by rwa [hkey, Bool.false_or] at hk
    cases hq : r.quotes key with
    | true => exact .quotedKey hq hquote hnote (hparts _)
    | false =>
      rw [member_of_isQuotable hquote, member_of_isQuotable (by rwa [r.kind_map hq])]
      exact .node (.some (r.alike_stretch _ key hq)) hnote
        ((Recast.leaf hq).cons_of_not_isElementOf (hparts _) rfl)

theorem Recasting.isKey_map (r : Recasting) {key : Lexeme} (h : (isKey key.kind || isQuotable key.kind) = true) :
    (isKey (r.map key).kind || isQuotable (r.map key).kind) = true :=
  r.kind_map_of (P := fun kind => (isKey kind || isQuotable kind) = true) h rfl

/-- The value of a member begins with a string or a word only if it did before. -/
theorem isKeyStart_of_map {v : Draft} (h : Read eof e .value behind [v])
    (hfits : EveryNode (r.Fits whole) [v]) (hkey : (r.map v.firstLexeme).kind.isKeyStart = true) :
    v.firstLexeme.kind.isKeyStart = true := by
  cases hq : r.quotes v.firstLexeme with
  | false => rwa [r.kind_map hq] at hkey
  | true =>
    have hquotable := (r.kind_quotes hq).1
    have hopener {l : Lexeme} (ho : l.kind.isOpener = true) (hq : r.quotes l = true) : False := by
      rw [Recasting.quotes_of_isBracket (by rw [ho, Bool.true_or])] at hq
      exact absurd hq Bool.false_ne_true
    cases h with
    | @scalar _ _ l hl =>
      have hleaf := (everyNode_node_iff.mp hfits).1.leaves (by simp) (by simp) l List.mem_cons_self
      exact absurd (hleaf.symm.trans hq) Bool.false_ne_true
    | @invalid _ _ l hl =>
      have hl : l.kind.startsValue = false := hl
      have hquotable : (l.kind == .identifier || isQuotable l.kind) = true := hquotable
      show l.kind.isKeyStart = true
      revert hl hquotable
      cases l.kind <;> decide
    | @signed _ _ plus number hsigned =>
      have hquotable : (plus.token.kind == .identifier || isQuotable plus.token.kind) = true :=
        hquotable
      rw [(isSignedNumber_eq_true.mp hsigned).1] at hquotable
      exact absurd hquotable (by decide)
    | tooDeep ho => exact (hopener ho hq).elim
    | closed ho =>
      rw [firstLexeme_container] at hq
      exact (hopener (by rw [ho, isOpener_opener]) hq).elim
    | unclosed ho =>
      rw [firstLexeme_container] at hq
      exact (hopener (by rw [ho, isOpener_opener]) hq).elim

theorem Recasting.Ends.forall_head? {ls ls' : List Lexeme} (h : r.Ends e ls ls')
    {P : TokenKind → Prop} (hls : ∀ l ∈ ls.head?, P l.kind) (hstring : P .string)
    (hcomma : P .comma) : ∀ l ∈ ls'.head?, P l.kind := by
  cases h with
  | nothing => simp
  | @token l _ _ =>
    intro m hm
    obtain rfl := Option.some.inj hm
    exact r.kind_map_of (hls l rfl) hstring
  | comma hc =>
    intro m hm
    obtain rfl := Option.some.inj hm
    rwa [hc]

theorem canRecast_member {b : Bool} {key colon : Lexeme} {v : Draft} {ds : List Draft}
    (hk : (isKey key.kind || isQuotable key.kind) = true) (hc : colon.kind = .colon)
    (hfirst : v.firstLexeme.kind ≠ .comma)
    (hnext : v.firstLexeme.kind.isKeyStart = true →
      ∀ h ∈ (lexemesList ds ++ behind).head?, h.kind ≠ .colon)
    (hv : Read eof e .value (lexemesList ds ++ behind) [v])
    (hread : Read eof e (.list .object false) behind ds)
    (hfits : EveryNode (r.Fits whole) [member key colon [v] none, v])
    (hvalue : CanRecast r eof' e .value (lexemesList ds ++ behind) [v])
    (hds : CanRecast r eof' e (.list .object false) behind ds) :
    CanRecast r eof' e (.list .object b) behind (member key colon [v] none :: ds) := by
  intro behind' hends
  obtain ⟨hmember, hfits⟩ := everyNode_cons_iff.mp hfits
  obtain ⟨row, hrow, hafter, -, hrecast⟩ := exists_row hread hds hends (member key colon [v] none)
  obtain ⟨v', hv', hfirst', hvrecast⟩ := hvalue.exists_value hafter
  have hcolon : r.quotes colon = false := quotes_of_colon hc
  refine ⟨member (r.map key) (r.map colon) [v'] none :: row,
    .member (r.isKey_map hk) (by rwa [r.kind_map hcolon]) ?_ ?_ hv' hrow, fun k hk' => ?_⟩
  · rw [hfirst']
    exact r.kind_map_of (P := (· ≠ .comma)) hfirst (by decide)
  · rw [hfirst']
    exact fun hkey => hafter.forall_head? (P := (· ≠ .colon))
      (hnext (isKeyStart_of_map hv hfits hkey)) (by decide) (by decide)
  · obtain rfl : k = Container.object.listKind := hk'
    exact hrecast _ (recast_member hk hc hmember hvrecast .none)

theorem canRecast_memberAlone {b : Bool} {key colon : Lexeme} {next : Token} {ds : List Draft}
    (hk : (isKey key.kind || isQuotable key.kind) = true) (hc : colon.kind = .colon)
    (hnext : beginsMember ds = true) (hread : Read eof e (.list .object false) behind ds)
    (hfits : EveryNode (r.Fits whole) [member key colon [] (missing .value colon.token next)])
    (hds : CanRecast r eof' e (.list .object false) behind ds) :
    CanRecast r eof' e (.list .object b) behind
      (member key colon [] (missing .value colon.token next) :: ds) := by
  intro behind' hends
  obtain ⟨row, hrow, -, hbegins, hrecast⟩ := exists_row hread hds hends
    (member key colon [] (missing .value colon.token next))
  have hcolon : r.quotes colon = false := quotes_of_colon hc
  have hcolon' : (r.map colon).kind = .colon := by rwa [r.kind_map hcolon]
  refine ⟨_, .memberAlone (r.isKey_map hk) hcolon' (hbegins hnext) hrow, fun k hk' => ?_⟩
  obtain rfl : k = Container.object.listKind := hk'
  exact hrecast _ (recast_member hk hc hfits (fun _ => .nil) (.some (r.alike_gap _ _ _ colon)))

theorem canResume_string (e : List Container) : canResume e .string = true := by
  rw [canResume, show isKey .string = true from rfl, Bool.or_true, Bool.true_or]

theorem canResume_comma (e : List Container) : canResume e .comma = true := by
  rw [canResume, beq_self_eq_true, Bool.or_true]

theorem rel_colonNote {key : Lexeme} (h : r.quotes key = false) (next next' : Token) :
    Option.Rel r.alike (colonNote key next) (colonNote (r.map key) next') := by
  unfold colonNote
  rw [r.kind_map h]
  split
  · exact .none
  · exact .some (r.alike_colon _ _ h)

theorem quotes_of_incomplete {key : Lexeme} {next : Token}
    (hfits : EveryNode (r.Fits whole) [incomplete key next]) : r.quotes key = false :=
  quotes_of_key (everyNode_node_iff.mp hfits).2

theorem recast_incomplete {key : Lexeme} (hq : r.quotes key = false) (next next' : Token) :
    Recast r k [incomplete key next] [incomplete (r.map key) next'] :=
  .node (rel_keyNote hq) (rel_colonNote hq _ _) (.node .none .none (.leaf hq))

theorem canRecast_incomplete {b : Bool} {key : Lexeme} {next : Token} {ds : List Draft}
    (hk : isKey key.kind = true)
    (hnext : ∀ h ∈ (lexemesList ds ++ behind).head?, canResume e h.kind = true)
    (hread : Read eof e (.list .object false) behind ds)
    (hfits : EveryNode (r.Fits whole) [incomplete key next])
    (hds : CanRecast r eof' e (.list .object false) behind ds) :
    CanRecast r eof' e (.list .object b) behind (incomplete key next :: ds) := by
  intro behind' hends
  obtain ⟨row, hrow, hafter, -, hrecast⟩ := exists_row hread hds hends (incomplete key next)
  have hkey := quotes_of_incomplete hfits
  have hresume := hafter.forall_head? (P := fun kind => canResume e kind = true) hnext
    (canResume_string e) (canResume_comma e)
  refine ⟨_, .incomplete (by rwa [r.kind_map hkey]) hresume hrow, fun k hk' => ?_⟩
  obtain rfl : k = Container.object.listKind := hk'
  exact hrecast _ (recast_incomplete hkey _ _)

/-! ## Skipping -/

theorem quotes_of_skipped {d : Draft} {ds : List Draft} (h : Read eof e .skipped behind (d :: ds))
    (hleaves : ∀ l, leaf l ∈ d :: ds → r.quotes l = false) :
    r.quotes d.firstLexeme = false ∧ isKey d.firstLexeme.kind = false := by
  cases h with
  | @skippedToken _ _ l _ hl => exact ⟨hleaves l List.mem_cons_self, (Bool.or_eq_false_iff.mp hl).1⟩
  | @skippedScalar _ _ colon _ _ hc =>
    have hc : (leaf colon).firstLexeme.kind = .colon := hc
    exact ⟨quotes_of_colon hc, by rw [hc]; rfl⟩
  | skippedValue ho =>
    refine ⟨Recasting.quotes_of_isBracket (by rw [ho, Bool.true_or]), ?_⟩
    revert ho
    cases d.firstLexeme.kind <;> decide

/-- Of a key that comes next no string is made. -/
theorem quotes_of_isKey_head? {b : Bool} {ds : List Draft}
    (h : Read eof e (.list .object b) behind ds) (hfits : EveryNode (r.Fits whole) ds) :
    ∀ l ∈ (lexemesList ds ++ behind).head?, isKey l.kind = true → r.quotes l = false := by
  cases ds with
  | nil =>
    cases h with
    | nil hends => exact fun l hl _ => Recasting.quotes_of_closesAny (hends l hl)
  | cons d ds =>
    refine forall_head?_cons (P := fun l => isKey l.kind = true → r.quotes l = false) fun hkey => ?_
    have hd := (everyNode_cons_iff.mp hfits).1
    have hmember {key colon : Lexeme} {value : List Draft} {note : Option ParseError}
        (hfits : EveryNode (r.Fits whole) [member key colon value note])
        (hkey : isKey (member key colon value note).firstLexeme.kind = true) :
        r.quotes (member key colon value note).firstLexeme = false := by
      rw [firstLexeme_member] at hkey ⊢
      rw [member_of_isKey hkey] at hfits
      exact quotes_of_key (everyNode_cons_iff.mp (everyNode_node_iff.mp hfits).2).1
    cases h with
    | comma hl => exact quotes_of_comma hl
    | stray hl => exact quotes_of_comma hl
    | member => exact hmember hd hkey
    | memberAlone => exact hmember hd hkey
    | incomplete => exact quotes_of_key (everyNode_node_iff.mp hd).2
    | incompleteSkipped => exact quotes_of_key (everyNode_node_iff.mp hd).2
    | @junk _ _ _ first rest _ hs =>
      have hfirst : isKey first.firstLexeme.kind = false := by
        cases hs with
        | skippedToken hl => exact (Bool.or_eq_false_iff.mp hl).1
        | @skippedScalar _ _ colon _ _ hc =>
          have hc : (leaf colon).firstLexeme.kind = .colon := hc
          rw [hc]
          rfl
        | skippedValue ho =>
          revert ho
          cases first.firstLexeme.kind <;> decide
      exact absurd (hfirst.symm.trans hkey) Bool.false_ne_true

/-- What is skipped behind a token and begins with a colon begins with the token of the colon. -/
theorem startsWithColon_of_skipped {l : Lexeme} {rest : List Draft}
    (hs : Read eof e .skipped behind (leaf l :: rest)) (hl : l.kind ≠ .colon)
    (ho : l.kind.isOpener = false) (hrest : rest ≠ [])
    (hcolon : ∃ colon ∈ (lexemesList rest ++ behind).head?, colon.kind = .colon) :
    startsWithColon rest = true := by
  cases hs with
  | skippedScalar hc => exact absurd hc hl
  | skippedValue ho' =>
    have ho' : l.kind.isOpener = true := ho'
    exact absurd (ho.symm.trans ho') Bool.false_ne_true
  | skippedToken _ _ _ _ hs =>
    cases hs with
    | skippedNil => exact absurd rfl hrest
    | @skippedToken _ _ m =>
      obtain ⟨colon, hmem, hkind⟩ := hcolon
      obtain rfl : m = colon := by simpa using hmem
      exact beq_iff_eq.mpr hkind
    | skippedScalar hc => exact beq_iff_eq.mpr hc
    | @skippedValue _ _ d _ ho =>
      obtain ⟨colon, hmem, hkind⟩ := hcolon
      rw [head?_lexemesList_cons] at hmem
      obtain rfl := Option.some.inj hmem
      rw [hkind] at ho
      exact absurd ho (by decide)

theorem canResume_colon (e : List Container) : canResume e .colon = false := by
  have hcloses : closesAny e .colon = false := by
    cases h : closesAny e .colon with
    | false => rfl
    | true => exact absurd (isCloser_of_closesAny h) (by decide)
  rw [canResume, hcloses]
  rfl

theorem leaves_of_junk {first : Draft} {rest ds : List Draft}
    (hs : Read eof e .skipped (lexemesList ds ++ behind) (first :: rest))
    (hq : first.isQuotableToken = true → startsWithColon rest = false)
    (hnext : ∀ h ∈ (lexemesList ds ++ behind).head?, canResume e h.kind = true)
    (hstretch : lexemesList (first :: rest) ++ (lexemesList ds ++ behind) <:+ whole)
    (hfits : EveryNode (r.Fits whole) [junk first rest]) :
    ∀ l, leaf l ∈ first :: rest → r.quotes l = false := by
  intro l hl
  cases hquotes : r.quotes l with
  | false => rfl
  | true =>
    rcases (everyNode_node_iff.mp hfits).1.1 l hl hquotes with ⟨hvalue, -⟩ | ⟨-, rfl, -, hcolon⟩
    · exact absurd hvalue (by simp)
    · have hkind := (r.kind_quotes hquotes).1
      have hbehind := hcolon _ hstretch
      cases hquotable : isQuotable l.kind with
      | true =>
        -- the colon would be skipped too, or nothing would be skipped in front of it
        cases rest with
        | nil =>
          obtain ⟨colon, hmem, hcolon⟩ := hbehind
          have hresume := hnext colon hmem
          rw [hcolon, canResume_colon] at hresume
          exact absurd hresume Bool.false_ne_true
        | cons d rest =>
          have hne : l.kind ≠ .colon ∧ l.kind.isOpener = false := by
            revert hquotable
            cases l.kind <;> decide
          have hcolon := startsWithColon_of_skipped hs hne.1 hne.2 (List.cons_ne_nil _ _) hbehind
          exact absurd ((hq hquotable).symm.trans hcolon) Bool.false_ne_true
      | false =>
        -- skipping does not begin with a word that could be a key
        rw [hquotable, Bool.or_false, beq_iff_eq] at hkind
        have hr : resumesMembers (leaf l) = false := by
          cases hs with
          | skippedToken hl => exact hl
          | skippedScalar hc => rw [hc] at hkind; exact absurd hkind (by decide)
          | skippedValue ho =>
            have ho : l.kind.isOpener = true := ho
            rw [hkind] at ho
            exact absurd ho (by decide)
        rw [resumesMembers, hkind] at hr
        exact absurd hr (by decide)

theorem exists_skipped_row {first : Draft} {rest ds : List Draft}
    (hnext : ∀ h ∈ (lexemesList ds ++ behind).head?, canResume e h.kind = true)
    (hread : Read eof e (.list .object false) behind ds)
    (hs : CanRecast r eof' e .skipped (lexemesList ds ++ behind) (first :: rest))
    (hds : CanRecast r eof' e (.list .object false) behind ds) (hends : r.Ends e behind behind')
    {d : Draft} : ∃ first' rest' row,
      Read eof' e .skipped (lexemesList row ++ behind') (first' :: rest') ∧
      Recast r .error (first :: rest) (first' :: rest') ∧
      first'.firstLexeme = r.map first.firstLexeme ∧
      (∀ h ∈ (lexemesList row ++ behind').head?, canResume e h.kind = true) ∧
      Read eof' e (.list .object false) behind' row ∧
      ∀ d', Recast r Container.object.listKind [d] [d'] →
        Recast r Container.object.listKind (d :: ds) (d' :: row) := by
  obtain ⟨row, hrow, hafter, -, hrecast⟩ := exists_row hread hds hends d
  obtain ⟨skipped, hskipped, hskippedRecast⟩ := hs _ hafter
  have herror := hskippedRecast .error rfl
  obtain ⟨first', rest', rfl, hfirst⟩ := herror.exists_cons
  exact ⟨first', rest', row, hskipped, herror, hfirst,
    hafter.forall_head? (P := fun kind => canResume e kind = true) hnext (canResume_string e)
      (canResume_comma e), hrow, hrecast⟩

theorem canRecast_incompleteSkipped {b : Bool} {key : Lexeme} {first : Draft}
    {rest ds : List Draft} (hk : isKey key.kind = true)
    (hcolon : startsWithColon (first :: rest) = false)
    (hnext : ∀ h ∈ (lexemesList ds ++ behind).head?, canResume e h.kind = true)
    (hread : Read eof e (.list .object false) behind ds)
    (hfits : EveryNode (r.Fits whole) [incomplete key first.firstToken])
    (hs : CanRecast r eof' e .skipped (lexemesList ds ++ behind) (first :: rest))
    (hds : CanRecast r eof' e (.list .object false) behind ds) :
    CanRecast r eof' e (.list .object b) behind
      (incomplete key first.firstToken :: plain .error first rest :: ds) := by
  intro behind' hends
  obtain ⟨first', rest', row, hs', herror, hfirst, hresume, hrow, hrecast⟩ :=
    exists_skipped_row hnext hread hs hds hends (d := plain .error first rest)
  have hkey := quotes_of_incomplete hfits
  refine ⟨incomplete (r.map key) first'.firstToken :: plain .error first' rest' :: row,
    .incompleteSkipped (by rw [r.kind_map hkey, hk])
      (by rwa [herror.startsWithColon_eq]) hs' hresume hrow, fun k hk' => ?_⟩
  obtain rfl : k = Container.object.listKind := hk'
  exact (recast_incomplete hkey _ _).cons_of_not_isElementOf
    (hrecast _ (.node .none .none herror)) rfl

theorem canRecast_junk {b : Bool} {first : Draft} {rest ds : List Draft}
    (hread : Read eof e .skipped (lexemesList ds ++ behind) (first :: rest))
    (hq : first.isQuotableToken = true → startsWithColon rest = false)
    (hnext : ∀ h ∈ (lexemesList ds ++ behind).head?, canResume e h.kind = true)
    (hrest : Read eof e (.list .object false) behind ds)
    (hleaves : ∀ l, leaf l ∈ first :: rest → r.quotes l = false)
    (hs : CanRecast r eof' e .skipped (lexemesList ds ++ behind) (first :: rest))
    (hds : CanRecast r eof' e (.list .object false) behind ds) :
    CanRecast r eof' e (.list .object b) behind (junk first rest :: ds) := by
  intro behind' hends
  obtain ⟨hfirst, -⟩ := quotes_of_skipped hread hleaves
  obtain ⟨first', rest', row, hs', herror, hfirst', hresume, hrow, hrecast⟩ :=
    exists_skipped_row hnext hrest hs hds hends (d := junk first rest)
  refine ⟨junk first' rest' :: row, .junk hs' ?_ hresume hrow, fun k hk' => ?_⟩
  · obtain ⟨rest₂, rfl, hone, htail⟩ := herror.exists_tail
    rw [Recasting.separator_eq_nil rfl, List.map_nil, List.nil_append, htail.startsWithColon_eq]
    have hsame : first'.isQuotableToken = first.isQuotableToken :=
      Option.some.inj hone.isQuotableToken_eq
    rw [hsame]
    exact hq
  · obtain rfl : k = Container.object.listKind := hk'
    have hnote := r.alike_stretch .key first.firstLexeme hfirst
    rw [← hfirst'] at hnote
    exact hrecast _ (.node (.some hnote) .none herror)

theorem canRecast_skippedNil : CanRecast r eof' e .skipped behind [] :=
  fun _ _ => ⟨[], .skippedNil, fun _ _ => .nil⟩

theorem canRecast_skippedToken {l : Lexeme} {ds : List Draft}
    (hl : resumesMembers (leaf l) = false) (ho : l.kind.isOpener = false)
    (hc : closesAny e l.kind = false)
    (hnext : l.kind = .colon → ∀ h ∈ (lexemesList ds ++ behind).head?, h.kind.isScalar = false)
    (hread : Read eof e .skipped behind ds) (h : r.Admits whole .skipped behind (leaf l :: ds))
    (hds : CanRecast r eof' e .skipped behind ds) :
    CanRecast r eof' e .skipped behind (leaf l :: ds) := by
  intro behind' hends
  have hq := h.leaves l List.mem_cons_self
  have hkind := r.kind_map hq
  obtain ⟨ds', hread', hrecast⟩ := hds behind' hends
  have herror := hrecast .error rfl
  refine ⟨leaf (r.map l) :: ds', .skippedToken (by rwa [resumesMembers, hkind])
    (by rwa [hkind]) (by rwa [hkind]) ?_ hread', fun k hk => ?_⟩
  · rw [hkind]
    intro hcolon
    -- no string is made of the lexeme that comes next
    have hunquoted : ∀ m ∈ (lexemesList ds ++ behind).head?, r.quotes m = false := by
      intro m hm
      cases hqm : r.quotes m with
      | false => rfl
      | true =>
        have hscalar := hnext hcolon m hm
        have hkey : isKey m.kind = true := by
          have hquotable := (r.kind_quotes hqm).1
          revert hscalar hquotable
          cases m.kind <;> decide
        have hnot : r.quotes m = false := by
          cases ds with
          | nil => exact h.resumed rfl m hm hkey
          | cons d ds =>
            rw [head?_lexemesList_cons] at hm
            obtain rfl := Option.some.inj hm
            exact (quotes_of_skipped hread fun l hl => h.leaves l (List.mem_cons_of_mem _ hl)).1
        exact absurd (hnot.symm.trans hqm) Bool.false_ne_true
    have hafter := hends.append herror
    generalize lexemesList ds ++ behind = ls at hafter hnext hunquoted
    generalize lexemesList ds' ++ behind' = ls' at hafter ⊢
    cases hafter with
    | nothing => simp
    | @token m _ _ =>
      intro m' hm'
      obtain rfl := Option.some.inj hm'
      rw [r.kind_map (hunquoted m rfl)]
      exact hnext hcolon m rfl
    | comma hcomma =>
      intro m' hm'
      obtain rfl := Option.some.inj hm'
      rw [hcomma]
      rfl
  · obtain rfl : k = .error := hk
    exact (Recast.leaf hq).cons_of_not_isElementOf herror rfl

theorem canRecast_skippedScalar {colon l : Lexeme} {ds : List Draft} (hc : colon.kind = .colon)
    (hl : l.kind.isScalar = true)
    (h : r.Admits whole .skipped behind (leaf colon :: plain .value (leaf l) [] :: ds))
    (hds : CanRecast r eof' e .skipped behind ds) :
    CanRecast r eof' e .skipped behind (leaf colon :: plain .value (leaf l) [] :: ds) := by
  intro behind' hends
  have hcolon : r.quotes colon = false := quotes_of_colon hc
  have hfits := (everyNode_cons_iff.mp (everyNode_cons_iff.mp h.fits).2).1
  have hq : r.quotes l = false :=
    (everyNode_node_iff.mp hfits).1.leaves (by simp) (by simp) l List.mem_cons_self
  obtain ⟨ds', hread, hrecast⟩ := hds behind' hends
  refine ⟨leaf (r.map colon) :: plain .value (leaf (r.map l)) [] :: ds',
    .skippedScalar (by rwa [r.kind_map hcolon]) (by rwa [r.kind_map hq]) hread, fun k hk => ?_⟩
  obtain rfl : k = .error := hk
  exact (Recast.leaf hcolon).cons_of_not_isElementOf
    (Recast.cons_of_not_isElementOf (.node .none .none (.leaf hq)) (hrecast _ rfl) rfl) rfl

theorem canRecast_skippedValue {d : Draft} {ds : List Draft}
    (ho : d.firstLexeme.kind.isOpener = true)
    (hd : CanRecast r eof' e .value (lexemesList ds ++ behind) [d])
    (hds : CanRecast r eof' e .skipped behind ds) :
    CanRecast r eof' e .skipped behind (d :: ds) := by
  intro behind' hends
  obtain ⟨ds', hread, hrecast⟩ := hds behind' hends
  have herror := hrecast .error rfl
  obtain ⟨d', hd', hfirst, hvalue⟩ := hd.exists_value (hends.append herror)
  have hq : r.quotes d.firstLexeme = false :=
    Recasting.quotes_of_isBracket (by rw [ho, Bool.true_or])
  refine ⟨d' :: ds', .skippedValue (by rwa [hfirst, r.kind_map hq]) hd' hread, fun k hk => ?_⟩
  obtain rfl : k = .error := hk
  exact (hvalue _).cons_of_not_isElementOf herror rfl

/-! ## All rules -/

namespace Recasting.Admits

theorem cons {d : Draft} {ds : List Draft} (h : r.Admits whole slot behind (d :: ds)) :
    (EveryNode (r.Fits whole) [d] ∧ lexemesList [d] ++ (lexemesList ds ++ behind) <:+ whole) ∧
      r.Admits whole slot behind ds := by
  obtain ⟨hd, hds⟩ := everyNode_cons_iff.mp h.fits
  have hstretch := h.stretch
  rw [lexemesList_cons, List.append_assoc, ← lexemesList_singleton] at hstretch
  refine ⟨⟨hd, hstretch⟩, (List.suffix_append _ _).trans hstretch, hds, ?_, h.resumed⟩
  exact fun l hl => h.leaves l (List.mem_cons_of_mem _ hl)

theorem list {c : Container} {b b' : Bool} {ds : List Draft}
    (h : r.Admits whole (.list c b) behind ds) : r.Admits whole (.list c b') behind ds :=
  ⟨h.stretch, h.fits, h.leaves, by simp⟩

theorem value {d : Draft} {ds : List Draft} (h : r.Admits whole slot behind (d :: ds)) :
    r.Admits whole .value (lexemesList ds ++ behind) [d] := by
  obtain ⟨⟨hd, hstretch⟩, -⟩ := h.cons
  refine ⟨hstretch, hd, fun l hl => ?_, by simp⟩
  exact h.leaves l (List.mem_cons.mpr (.inl (List.mem_singleton.mp hl)))

theorem memberValue {b : Bool} {key colon : Lexeme} {v : Draft} {ds : List Draft}
    (hv : Read eof e .value (lexemesList ds ++ behind) [v])
    (h : r.Admits whole (.list .object b) behind (member key colon [v] none :: ds)) :
    r.Admits whole .value (lexemesList ds ++ behind) [v] := by
  obtain ⟨⟨hd, hstretch⟩, -⟩ := h.cons
  rw [lexemesList_singleton, lexemes_member] at hstretch
  refine ⟨(List.suffix_append [key, colon] _).trans hstretch, ?_, fun l hl => ?_, by simp⟩
  · unfold member at hd
    split at hd
    · exact (everyNode_cons_iff.mp (everyNode_cons_iff.mp (everyNode_node_iff.mp hd).2).2).2
    · exact (everyNode_cons_iff.mp (everyNode_cons_iff.mp (everyNode_node_iff.mp hd).2).2).2
  · obtain rfl := List.mem_singleton.mp hl
    cases hv

end Recasting.Admits

/-- Whatever follows the rules can be recast. -/
theorem canRecast_of_read (hkeeps : r.KeepsApart whole) {ds : List Draft}
    (h : Read eof e slot behind ds) (hadmits : r.Admits whole slot behind ds) :
    CanRecast r eof' e slot behind ds := by
  induction h with
  | scalar hl => exact canRecast_scalar hl hadmits
  | invalid hl hc hnext => exact canRecast_invalid hl hc hnext hkeeps hadmits
  | signed h => exact canRecast_signed h hadmits
  | tooDeep ho he hrun => exact canRecast_tooDeep ho he hrun hadmits
  | closed ho hc he hds ih => exact canRecast_closed ho hc he (ih hadmits.contents)
  | unclosed ho he hends hds ih => exact canRecast_unclosed ho he hends (ih hadmits.contents)
  | nil hends => exact canRecast_nil hends
  | comma hl hds ih => exact canRecast_comma hl (ih hadmits.cons.2.list)
  | stray hl hds ih => exact canRecast_stray hl (ih hadmits.cons.2.list)
  | item hfirst hd hds ihd ih =>
    exact canRecast_item hfirst hds (ihd hadmits.value) (ih hadmits.cons.2.list)
  | member hk hc hfirst hnext hv hds ihv ih =>
    have hvalue := hadmits.memberValue hv
    exact canRecast_member hk hc hfirst hnext hv hds
      (everyNode_cons hadmits.cons.1.1 hvalue.fits) (ihv hvalue) (ih hadmits.cons.2.list)
  | memberAlone hk hc hnext hds ih =>
    exact canRecast_memberAlone hk hc hnext hds hadmits.cons.1.1 (ih hadmits.cons.2.list)
  | incomplete hk hnext hds ih =>
    exact canRecast_incomplete hk hnext hds hadmits.cons.1.1 (ih hadmits.cons.2.list)
  | incompleteSkipped hk hcolon hs hnext hds ihs ih =>
    obtain ⟨⟨hkey, -⟩, hrest⟩ := hadmits.cons
    obtain ⟨⟨herror, hstretch⟩, hlist⟩ := hrest.cons
    obtain ⟨hnode, hparts⟩ := everyNode_node_iff.mp herror
    rw [lexemesList_singleton] at hstretch
    exact canRecast_incompleteSkipped hk hcolon hnext hds hkey
      (ihs ⟨hstretch, hparts, hnode.leaves (by simp) fun _ => rfl,
        fun _ => quotes_of_isKey_head? hds hlist.fits⟩) (ih hlist.list)
  | junk hs hq hnext hds ihs ih =>
    obtain ⟨⟨herror, hstretch⟩, hlist⟩ := hadmits.cons
    rw [lexemesList_singleton] at hstretch
    have hleaves := leaves_of_junk hs hq hnext hstretch herror
    exact canRecast_junk hs hq hnext hds hleaves
      (ihs ⟨hstretch, (everyNode_node_iff.mp herror).2, hleaves,
        fun _ => quotes_of_isKey_head? hds hlist.fits⟩) (ih hlist.list)
  | skippedNil => exact canRecast_skippedNil
  | skippedToken hl ho hc hnext hds ih =>
    exact canRecast_skippedToken hl ho hc hnext hds hadmits (ih hadmits.cons.2)
  | skippedScalar hc hl hds ih =>
    exact canRecast_skippedScalar hc hl hadmits (ih hadmits.cons.2.cons.2)
  | skippedValue ho hd hds ihd ih =>
    exact canRecast_skippedValue ho (ihd hadmits.value) (ih hadmits.cons.2)

end

end Maml.Draft

namespace Maml

open Draft

section
variable {r : Recasting} {k : NodeKind}

theorem recast_trailing {ls : List Lexeme} (hfits : EveryNode (r.Fits whole) (trailing ls)) :
    (∀ l ∈ ls, r.quotes l = false) ∧ Recast r k (trailing ls) (trailing (ls.map r.map)) := by
  cases ls with
  | nil => exact ⟨by simp, .nil⟩
  | cons l ls =>
    have hleaves := (everyNode_node_iff.mp hfits).1.leaves (by simp) fun _ => rfl
    have hl := hleaves l List.mem_cons_self
    have hls : ∀ m ∈ ls, r.quotes m = false := fun m hm =>
      hleaves m (List.mem_cons_of_mem _ (List.mem_map_of_mem hm))
    have hrow : Recast r .error (ls.map leaf) ((ls.map r.map).map leaf) := recast_map_leaf hls
    obtain ⟨m, hm, hm'⟩ := hrow.exists_lastToken l
    refine ⟨List.forall_mem_cons.mpr ⟨hl, hls⟩, .node .none ?_
      ((Recast.leaf hl).cons_of_not_isElementOf hrow rfl)⟩
    rw [hm, hm']
    exact .some (r.alike_stretch _ m hl)

/-- What is read after a change is the document recast. -/
theorem exists_recast_documentDrafts {eof : Token} {whole : List Lexeme}
    (hkeeps : r.KeepsApart whole) (hfits : EveryNode (r.Fits whole) (documentDrafts eof whole))
    (eof' : Token) : ∃ ds', Recast r .file (documentDrafts eof whole) ds' ∧
      documentDrafts eof' (lexemesList ds') = ds' := by
  have hlexemes := lexemes_documentDrafts eof whole
  have hread := readDocument_documentDrafts eof whole
  generalize documentDrafts eof whole = ds at hfits hlexemes hread
  cases hread with
  | @nothing ls hbegins =>
    obtain ⟨hls, hrecast⟩ := recast_trailing (k := .file) hfits
    refine ⟨_, hrecast, documentDrafts_of_readDocument (.nothing ?_)⟩
    cases ls with
    | nil => simp
    | cons l ls =>
      intro m hm
      obtain rfl := Option.some.inj hm
      rw [r.kind_map (hls l List.mem_cons_self)]
      exact hbegins l rfl
  | @value d ls hbegins hd =>
    obtain ⟨hvalue, htrailing⟩ := everyNode_cons_iff.mp hfits
    obtain ⟨hls, hrecast⟩ := recast_trailing (k := .file) htrailing
    have hadmits : r.Admits whole .value ls [d] := by
      rw [lexemesList_cons, lexemesList_trailing] at hlexemes
      have hstretch : lexemesList [d] ++ ls = whole := by rw [lexemesList_singleton, hlexemes]
      refine ⟨hstretch ▸ List.suffix_refl _, hvalue, fun l hl => ?_, by simp⟩
      · obtain rfl := List.mem_singleton.mp hl
        cases hd
    have hends : r.Ends [] ls (ls.map r.map) := by
      cases ls with
      | nil => exact .nothing
      | cons l ls => exact .token
    have hcan : CanRecast r eof' [] .value ls [d] := canRecast_of_read hkeeps hd hadmits
    obtain ⟨d', hd', hfirst, hdrecast⟩ := hcan.exists_value hends
    refine ⟨d' :: trailing (ls.map r.map),
      (hdrecast .file).cons_of_not_isElementOf hrecast rfl,
      documentDrafts_of_readDocument (.value ?_ hd')⟩
    rw [hfirst]
    exact r.kind_map_of (P := fun kind => beginsDocument kind = true) hbegins rfl

end

end Maml
