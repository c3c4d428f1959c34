import Maml.Proofs.Rules

/-! The rules determine how lexemes are read.

Whatever the rules derive is what is read from its lexemes, so the rules describe reading
exactly (`documentDrafts_eq_iff`). The rules speak of finished rows; reading makes them out
of pieces. So each kind of slot has a statement about the pieces of its lexemes: those of a value
are one value (`PiecedValue`), those of a list make its contents, and those that are skipped are
where skipping goes. -/
namespace Maml.Draft

section
variable {eof : Token} {e : List Container} {behind : List Lexeme}

/-! ## The pieces at the front -/

theorem pieces_token {l : Lexeme} (ho : l.kind.isOpener = false) (hc : closesAny e l.kind = false)
    (ls : List Lexeme) :
    pieces eof e (l :: ls) = (leaf l :: (pieces eof e ls).1, (pieces eof e ls).2) := by
  rw [pieces_cons, hc, if_neg Bool.false_ne_true,
    pieceAt_of_opens?_eq_none (opens?_of_not_isOpener ho)]

theorem pieces_cons_token {l : Lexeme} (h : l.kind.isOpener = false ∧ l.kind.isCloser = false)
    (ls : List Lexeme) :
    pieces eof e (l :: ls) = (leaf l :: (pieces eof e ls).1, (pieces eof e ls).2) :=
  pieces_token h.1 (ReadAs.closesAny_eq_false h.2) ls

theorem not_isBracket_of_eq {l : Lexeme} {kind : TokenKind} (hl : l.kind = kind)
    (h : kind.isOpener = false ∧ kind.isCloser = false) :
    l.kind.isOpener = false ∧ l.kind.isCloser = false := by
  rwa [hl]

theorem pieces_ends {ls : List Lexeme} (h : ∀ l ∈ ls.head?, closesAny e l.kind = true) :
    pieces eof e ls = ([], ls) := by
  cases ls with
  | nil => exact pieces_nil eof e
  | cons l ls => rw [pieces_cons, if_pos (h l rfl)]

theorem head?_of_pieces {ls : List Lexeme} {l : Lexeme}
    (h : (pieces eof e ls).1.head? = some (leaf l)) : ls.head? = some l := by
  have hall := lexemes_pieces eof e ls
  obtain ⟨ds, hds⟩ := List.head?_eq_some_iff.mp h
  rw [hds] at hall
  rw [← hall]
  rfl

theorem startsWithColon_pieces {ls : List Lexeme} (h : ∀ l ∈ ls.head?, l.kind ≠ .colon) :
    startsWithColon (pieces eof e ls).1 = false := by
  cases hrow : (pieces eof e ls).1 with
  | nil => rfl
  | cons d ds =>
    cases d with
    | node => rfl
    | leaf l =>
      have hhead : ls.head? = some l := head?_of_pieces (by rw [hrow]; rfl)
      simpa [startsWithColon, isToken] using h l hhead

theorem ne_colon_of_canResume {kind : TokenKind} (h : canResume e kind = true) :
    kind ≠ .colon := by
  rintro rfl
  have hc : closesAny e .colon = false := ReadAs.closesAny_eq_false rfl
  rw [canResume, hc] at h
  exact absurd h (by decide)

theorem skip_pieces {ls : List Lexeme} (h : ∀ l ∈ ls.head?, canResume e l.kind = true) :
    skip (pieces eof e ls).1 = ([], (pieces eof e ls).1) := by
  cases ls with
  | nil =>
    rw [pieces_nil, skip_nil]
  | cons l ls =>
    cases hc : closesAny e l.kind with
    | true =>
      rw [pieces_cons, if_pos hc, skip_nil]
    | false =>
      have hl : (isKey l.kind || l.kind == .comma) = true := by
        have hl := h l rfl
        rwa [canResume, hc, Bool.false_or] at hl
      have ho : l.kind.isOpener = false := by
        revert hl
        cases l.kind <;> decide
      rw [pieces_token ho hc, @skip_of_resumesMembers (leaf l) hl]

theorem nextToken_pieces {ls : List Lexeme} (h : (pieces eof e ls).2 = behind) :
    nextToken (nextOf eof behind) (pieces eof e ls).1 = nextOf eof ls := by
  have hall := lexemes_pieces eof e ls
  rw [h] at hall
  rw [nextToken_eq, hall]

/-! ## Values -/

/-- The pieces `ps` are read as the value `d`, with the pieces `more` behind them. -/
inductive PiecedValue (more : List Draft) : Draft → List Draft → Prop where
  | token {l} (ho : l.kind.isOpener = false) (h : valueAt (leaf l) more = (single l, more)) :
      PiecedValue more (single l) [leaf l]
  | signed {plus number} (h : isSignedNumber plus.token number.token = true) :
      PiecedValue more (signed plus number) [leaf plus, leaf number]
  | brackets {kind before first rest after} (ho : first.firstLexeme.kind.isOpener = true) :
      PiecedValue more (node kind before first rest after) [node kind before first rest after]

variable {more ps : List Draft} {d : Draft}

theorem PiecedValue.valueAt_eq (h : PiecedValue more d ps) :
    ∃ p qs, ps = p :: qs ∧ valueAt p (qs ++ more) = (d, more) := by
  cases h with
  | token ho h => exact ⟨_, [], rfl, h⟩
  | signed h =>
    refine ⟨_, _, rfl, ?_⟩
    rw [List.cons_append, valueAt_signed _ h]
    rfl
  | brackets ho => exact ⟨_, [], rfl, rfl⟩

theorem PiecedValue.isToken_eq (h : PiecedValue more d ps) (kind : TokenKind)
    (hd : d.firstLexeme.kind ≠ kind) : ∀ p ∈ ps.head?, p.isToken kind = false := by
  intro p hp
  cases h with
  | token =>
    obtain rfl := Option.some.inj hp
    rw [firstLexeme_single] at hd
    simpa [isToken] using hd
  | @signed plus number =>
    obtain rfl := Option.some.inj hp
    have hd : plus.kind ≠ kind := hd
    simpa [isToken] using hd
  | brackets =>
    obtain rfl := Option.some.inj hp
    rfl

theorem items_piecedValue (h : PiecedValue more d ps) (hd : d.firstLexeme.kind ≠ .comma) (b : Bool) :
    items b (ps ++ more) = d :: items false more := by
  obtain ⟨p, qs, rfl, hvalue⟩ := h.valueAt_eq
  have hcomma := h.isToken_eq .comma hd p rfl
  rw [List.cons_append, items_cons hcomma, hvalue]

theorem memberValue_piecedValue (h : PiecedValue more d ps) (hd : d.firstLexeme.kind ≠ .comma)
    (hnext : d.firstLexeme.kind.isKeyStart = true → startsWithColon more = false) (stop : Token)
    (colon : Draft) : memberValue stop colon (ps ++ more) = ⟨[d], none, more⟩ := by
  have hpresent : valueMissing (ps ++ more) = false := by
    cases h with
    | @token l =>
      rw [firstLexeme_single] at hd hnext
      have hcomma : (l.kind == .comma) = false := by simpa using hd
      show (l.kind == .comma || (l.kind.isKeyStart && startsWithColon more)) = false
      cases hkey : l.kind.isKeyStart with
      | true => rw [hcomma, hnext hkey]; rfl
      | false => rw [hcomma]; rfl
    | @signed plus number hsigned =>
      have hbad : plus.kind = .badCharacter := (isSignedNumber_eq_true.mp hsigned).1
      show (plus.kind == .comma || (plus.kind.isKeyStart && _)) = false
      rw [hbad]
      rfl
    | brackets => rfl
  obtain ⟨p, qs, rfl, hvalue⟩ := h.valueAt_eq
  rw [List.cons_append] at hpresent ⊢
  rw [memberValue_present hpresent, hvalue]

/-! ## What is read from the lexemes of each slot -/

/-- What the pieces of a row's lexemes are, in a slot in front of `behind`. -/
def Reread (eof : Token) (e : List Container) (behind : List Lexeme) (ds : List Draft) :
    Slot → Prop
  | .value => ∃ d ps, ds = [d] ∧ PiecedValue (pieces eof e behind).1 d ps ∧
      pieces eof e (d.lexemes ++ behind) = (ps ++ (pieces eof e behind).1, (pieces eof e behind).2)
  | .list c b => (pieces eof e (lexemesList ds ++ behind)).2 = behind ∧
      contentsFrom c (nextOf eof behind) b (pieces eof e (lexemesList ds ++ behind)).1 = ds
  | .skipped => (∀ h ∈ behind.head?, canResume e h.kind = true) →
      skip (pieces eof e (lexemesList ds ++ behind)).1 = (ds, (pieces eof e behind).1) ∧
        (pieces eof e (lexemesList ds ++ behind)).2 = (pieces eof e behind).2

theorem Reread.exists_piecedValue (h : Reread eof e behind [d] .value) :
    ∃ ps, PiecedValue (pieces eof e behind).1 d ps ∧ pieces eof e (d.lexemes ++ behind) =
      (ps ++ (pieces eof e behind).1, (pieces eof e behind).2) := by
  obtain ⟨d', ps, hd, hpieced, hpieces⟩ := h
  obtain rfl : d = d' := by simpa using hd
  exact ⟨ps, hpieced, hpieces⟩

theorem valueAt_token {l : Lexeme}
    (hnext : ∀ h ∈ behind.head?, isSignedNumber l.token h.token = false) :
    valueAt (leaf l) (pieces eof e behind).1 = (single l, (pieces eof e behind).1) := by
  refine valueAt_alone fun plus number hplus hhead => ?_
  obtain rfl := Draft.leaf.inj hplus
  exact hnext number (head?_of_pieces hhead)

theorem reread_token {l : Lexeme} (ho : l.kind.isOpener = false) (hc : closesAny e l.kind = false)
    (hnext : ∀ h ∈ behind.head?, isSignedNumber l.token h.token = false) :
    Reread eof e behind [single l] .value := by
  refine ⟨_, [leaf l], rfl, .token ho (valueAt_token hnext), ?_⟩
  rw [lexemes_single]
  exact pieces_token ho hc behind

theorem reread_brackets {opener : Lexeme} {ls : List Lexeme} {first : Draft}
    (hlexemes : first.lexemes = opener :: ls) (ho : opener.kind.isOpener = true)
    (hpiece : pieceAt eof e opener (ls ++ behind) = (plain .value first [], behind)) :
    Reread eof e behind [plain .value first []] .value := by
  have hfirst : first.firstLexeme = opener := firstLexeme_of_lexemes hlexemes
  have hc : closesAny e opener.kind = false :=
    ReadAs.closesAny_eq_false (not_isCloser_of_isOpener ho)
  refine ⟨_, [plain .value first []], rfl, .brackets (by rw [hfirst, ho]), ?_⟩
  rw [lexemes_plain, lexemesList_nil, List.append_nil, hlexemes, List.cons_append, pieces_cons,
    if_neg (by simp [hc]), hpiece]
  rfl

theorem reread_container {c : Container} {opener : Lexeme} {ds : List Draft}
    {closer : Option Lexeme} {after : List Lexeme} {next : Token}
    (ho : opener.kind = c.opener) (he : e.length < Container.maxDepth)
    (hinner : Reread eof (c :: e) after ds (.list c true))
    (hclose : ∀ row, contents c (nextOf eof after) row = ds →
      close eof c opener row after = (container c opener ds closer next, behind))
    (hafter : after = closer.toList ++ behind) :
    Reread eof e behind [container c opener ds closer next] .value := by
  have hopens : opener.kind.opens? = some c := Container.opens?_eq_some.mpr ho
  have hlexemes : (node c.nodeKind none (leaf opener)
      (wrap c.listKind ds ++ (closer.map leaf).toList)
      (match closer with
        | some _ => none
        | none => missing c.expectedCloser (lastTokenFrom opener.token
            (wrap c.listKind ds ++ (closer.map leaf).toList)) next)).lexemes =
      opener :: (lexemesList ds ++ closer.toList) := lexemes_containerNode c opener ds closer _
  refine reread_brackets hlexemes (by rw [ho, isOpener_opener]) ?_
  obtain ⟨hrest, hcontents⟩ := hinner
  rw [pieceAt_of_opens?_eq_some hopens, if_pos he, List.append_assoc, ← hafter, hrest,
    hclose _ (by rw [contents_eq]; exact hcontents)]
  rfl

/-! ## Lists -/

theorem not_isBracket_of_isKey : ∀ kind : TokenKind, (isKey kind || isQuotable kind) = true →
    kind.isOpener = false ∧ kind.isCloser = false ∧ kind ≠ .comma := by
  decide

theorem members_member {stop : Token} {key colon : Lexeme}
    (hk : (isKey key.kind || isQuotable key.kind) = true) (hc : colon.kind = .colon) (b : Bool)
    (row : List Draft) : members stop b (leaf key :: leaf colon :: row) =
      member key colon (memberValue stop (leaf colon) row).value
          (memberValue stop (leaf colon) row).note ::
        members stop false (memberValue stop (leaf colon) row).rest := by
  have hcomma : (leaf key).isToken .comma = false := by
    simpa [isToken] using (not_isBracket_of_isKey _ hk).2.2
  rw [members_cons hcomma]
  cases hkey : isKey key.kind with
  | true =>
    rw [memberAt_keyValue hkey hc, member_of_isKey hkey]
    rfl
  | false =>
    have hquote : isQuotable key.kind = true := by rwa [hkey, Bool.false_or] at hk
    rw [memberAt_literalKey hquote hc, member_of_isQuotable hquote]
    rfl

theorem contentsFrom_object (stop : Token) (b : Bool) (row : List Draft) :
    contentsFrom .object stop b row = members stop b row := rfl

theorem pieces_member {key colon : Lexeme} (hk : (isKey key.kind || isQuotable key.kind) = true)
    (hc : colon.kind = .colon) (ls : List Lexeme) : pieces eof e (key :: colon :: ls) =
      (leaf key :: leaf colon :: (pieces eof e ls).1, (pieces eof e ls).2) := by
  obtain ⟨hopener, hcloser, -⟩ := not_isBracket_of_isKey _ hk
  rw [pieces_cons_token ⟨hopener, hcloser⟩, pieces_cons_token (not_isBracket_of_eq hc ⟨rfl, rfl⟩)]

theorem lexemes_member (key colon : Lexeme) (value : List Draft) (note : Option ParseError) :
    (member key colon value note).lexemes = key :: colon :: lexemesList value := by
  unfold member
  split <;> rfl

theorem valueMissing_pieces {ds : List Draft} (h : Read eof e (.list .object false) behind ds)
    (hds : beginsMember ds = true) :
    valueMissing (pieces eof e (lexemesList ds ++ behind)).1 = true := by
  have hmember {key colon : Lexeme} {value : List Draft} {note : Option ParseError}
      {more : List Draft} {ls : List Lexeme} (hk : (isKey key.kind || isQuotable key.kind) = true)
      (hc : colon.kind = .colon) (hb : beginsMember (member key colon value note :: more) = true) :
      valueMissing (pieces eof e (key :: colon :: ls)).1 = true := by
    rw [pieces_member hk hc]
    have hcolon : (leaf colon).isToken .colon = true := by simp [isToken, hc]
    cases hkey : isKey key.kind with
    | false =>
      have hquote : isQuotable key.kind = true := by rwa [hkey, Bool.false_or] at hk
      rw [member_of_isQuotable hquote] at hb
      exact absurd hb Bool.false_ne_true
    | true =>
      rw [member_of_isKey hkey] at hb
      have hstart : key.kind.isKeyStart = true := hb
      show (key.kind == .comma || (key.kind.isKeyStart && startsWithColon _)) = true
      rw [hstart, startsWithColon, hcolon, Bool.true_and, Bool.or_true]
  cases h with
  | nil hends =>
    rw [lexemesList_nil, List.nil_append, pieces_ends hends]
    rfl
  | @comma _ _ _ l ds hl hds' =>
    rw [lexemesList_cons, lexemes_leaf, List.append_assoc, List.singleton_append,
      pieces_cons_token (not_isBracket_of_eq hl ⟨rfl, rfl⟩)]
    show (l.kind == .comma || _) = true
    rw [hl]
    rfl
  | member hk hc =>
    rw [lexemesList_cons, lexemes_member]
    exact hmember hk hc hds
  | memberAlone hk hc =>
    rw [lexemesList_cons, lexemes_member]
    exact hmember hk hc hds
  | incomplete => exact absurd hds Bool.false_ne_true
  | incompleteSkipped => exact absurd hds Bool.false_ne_true
  | junk => exact absurd hds Bool.false_ne_true

/-! ## Skipping -/

theorem skip_alone {d : Draft} {row : List Draft} (hr : d.resumesMembers = false)
    (h : d.isToken .colon = true → ∀ v ∈ row.head?, v.startsValue = false) :
    skip (d :: row) = (d :: (skip row).1, (skip row).2) := by
  rw [skip_cons hr, skipValue_alone h]
  rfl

/-- A colon takes no token along that is no scalar. -/
theorem skip_colon {l : Lexeme} {ls : List Lexeme} (hr : resumesMembers (leaf l) = false)
    (hnext : ∀ h ∈ ls.head?, h.kind.isScalar = false) :
    skip (leaf l :: (pieces eof e ls).1) =
      (leaf l :: (skip (pieces eof e ls).1).1, (skip (pieces eof e ls).1).2) := by
  generalize hrow : (pieces eof e ls).1 = row
  cases skipRule (leaf l) row with
  | alone h => exact skip_alone hr h
  | @taken v row hc hv =>
    cases v with
    | leaf s =>
      have hhead : ls.head? = some s := head?_of_pieces (by rw [hrow]; rfl)
      exact absurd ((hnext s hhead).symm.trans hv) Bool.false_ne_true
    | node kind before first rest after =>
      -- a value with brackets is skipped in any case
      have hvalue : skip (node kind before first rest after :: row) = _ :=
        skip_alone rfl fun h => absurd h Bool.false_ne_true
      rw [hvalue, skip_cons hr, skipValue_taken _ hc hv]
      rfl

theorem startsWithColon_of_skip {row : List Draft} (h : startsWithColon (skip row).1 = false) :
    startsWithColon row = false := by
  cases hrow : startsWithColon row with
  | false => rfl
  | true =>
    obtain ⟨colon, row, rfl, hcolon⟩ := exists_eq_leaf_cons_of_startsWithColon hrow
    have hr : resumesMembers (leaf colon) = false := by
      rw [resumesMembers, hcolon]
      rfl
    rw [skip_cons hr] at h
    exact absurd (h.symm.trans hrow) Bool.false_ne_true

theorem members_junk {stop : Token} {b : Bool} {row more rest : List Draft} {first : Draft}
    (h : skip row = (first :: rest, more))
    (hq : first.isQuotableToken = true → startsWithColon rest = false) :
    members stop b row = junk first rest :: members stop false more := by
  cases row with
  | nil =>
    rw [skip_nil] at h
    exact absurd (congrArg Prod.fst h) (by simp)
  | cons d row =>
    cases hr : d.resumesMembers with
    | true =>
      rw [skip_of_resumesMembers hr] at h
      exact absurd (congrArg Prod.fst h) (by simp)
    | false =>
      rw [skip_cons hr] at h
      obtain ⟨hfirst, hmore⟩ := Prod.mk.inj h
      obtain ⟨rfl, hrest⟩ := List.cons.inj hfirst
      have hkey : d.isKeyToken = false ∧ d.isToken .comma = false := by
        cases d with
        | node => exact ⟨rfl, rfl⟩
        | leaf l => exact Bool.or_eq_false_iff.mp hr
      have hquote : d.isQuotableToken = true → startsWithColon row = false := by
        intro hquote
        have hnone := hq hquote
        rw [← hrest, skipValue_of_isQuotableToken hquote] at hnone
        exact startsWithColon_of_skip hnone
      rw [members_cons hkey.2, memberAt_skip hkey.1 hquote]
      show junk d ((skipValue d row).1 ++ (skip (skipValue d row).2).1) ::
        members stop false (skip (skipValue d row).2).2 = _
      rw [hmore, hrest]

theorem members_incomplete {stop : Token} {key : Lexeme} {row skipped more : List Draft}
    (hk : isKey key.kind = true) (hcolon : startsWithColon row = false)
    (hskip : skip row = (skipped, more)) (b : Bool) :
    members stop b (leaf key :: row) =
      incomplete key (nextToken stop row) :: (wrap .error skipped ++ members stop false more) := by
  have hcomma : (leaf key).isToken .comma = false := by
    simpa [isToken] using (not_isBracket_of_isKey key.kind (by rw [hk, Bool.true_or])).2.2
  rw [members_cons hcomma, memberAt_incomplete hk hcolon, hskip]
  rfl

/-! ## The rules -/

theorem reread_scalar {l : Lexeme} (hl : l.kind.isScalar = true) :
    Reread eof e behind [plain .value (leaf l) []] .value := by
  have hbracket := not_isBracket_of_isScalar hl
  have hsingle : single l = plain .value (leaf l) [] := by rw [single_eq, if_pos hl]
  rw [← hsingle]
  exact reread_token hbracket.1 (ReadAs.closesAny_eq_false hbracket.2) fun h _ =>
    isSignedNumber_of_kind hl rfl h.token

theorem reread_invalid {l : Lexeme} (hl : l.kind.startsValue = false)
    (hc : closesAny e l.kind = false)
    (hnext : ∀ h ∈ behind.head?, isSignedNumber l.token h.token = false) :
    Reread eof e behind [Draft.invalid l] .value := by
  obtain ⟨hopener, hscalar⟩ := Bool.or_eq_false_iff.mp hl
  have hsingle : single l = Draft.invalid l := by rw [single_eq, if_neg (by simp [hscalar])]
  rw [← hsingle]
  exact reread_token hopener hc hnext

theorem reread_signed {plus number : Lexeme}
    (h : isSignedNumber plus.token number.token = true) :
    Reread eof e behind [Draft.signed plus number] .value := by
  obtain ⟨hplus, -, hnumber, -⟩ := isSignedNumber_eq_true.mp h
  refine ⟨_, _, rfl, .signed h, ?_⟩
  show pieces eof e (plus :: number :: behind) = _
  rw [pieces_cons_token (not_isBracket_of_eq hplus ⟨rfl, rfl⟩),
    pieces_cons_token (not_isBracket_of_eq hnumber ⟨rfl, rfl⟩)]
  rfl

theorem reread_tooDeep {opener : Lexeme} {run : List Lexeme}
    (ho : opener.kind.isOpener = true) (he : Container.maxDepth ≤ e.length)
    (hrun : balancedRun 1 (run ++ behind) = (run, behind)) :
    Reread eof e behind [Draft.tooDeep opener run] .value := by
  obtain ⟨c, hc⟩ : ∃ c, opener.kind.opens? = some c := by
    revert ho
    cases opener.kind <;> simp [TokenKind.opens?, TokenKind.isOpener]
  have hlexemes : (tooDeep opener run).lexemes = opener :: run := lexemes_tooDeep opener run
  rw [tooDeep, lexemes_plain, lexemesList_nil, List.append_nil] at hlexemes
  refine reread_brackets hlexemes ho ?_
  rw [pieceAt_of_opens?_eq_some hc, if_neg (by omega), hrun]
  rfl

/-- A row in front of a list, and the list: what is behind the row is read alike. -/
theorem Reread.list_append {c : Container} {b : Bool} {ds : List Draft}
    (h : Reread eof e behind ds (.list c b)) {front : List Draft} {ls : List Lexeme}
    {row : List Draft} {b' : Bool} (hfront : lexemesList front = ls)
    (hrow : pieces eof e (ls ++ (lexemesList ds ++ behind)) =
      (row, (pieces eof e (lexemesList ds ++ behind)).2))
    (hcontents : contentsFrom c (nextOf eof behind) b' row = front ++
      contentsFrom c (nextOf eof behind) b (pieces eof e (lexemesList ds ++ behind)).1) :
    Reread eof e behind (front ++ ds) (.list c b') := by
  rw [Reread, lexemesList_append, List.append_assoc, hfront, hrow, hcontents, h.2]
  exact ⟨h.1, rfl⟩

variable {ds : List Draft} {key colon : Lexeme} {b : Bool}

theorem Reread.member {v : Draft} (hk : (isKey key.kind || isQuotable key.kind) = true)
    (hc : colon.kind = .colon) (hfirst : v.firstLexeme.kind ≠ .comma)
    (hnext : v.firstLexeme.kind.isKeyStart = true →
      ∀ h ∈ (lexemesList ds ++ behind).head?, h.kind ≠ .colon)
    (hv : Reread eof e (lexemesList ds ++ behind) [v] .value)
    (h : Reread eof e behind ds (.list .object false)) :
    Reread eof e behind (Draft.member key colon [v] none :: ds) (.list .object b) := by
  obtain ⟨ps, hvalue, hpieces⟩ := hv.exists_piecedValue
  have hlexemes : lexemesList [Draft.member key colon [v] none] = key :: colon :: v.lexemes := by
    rw [lexemesList_singleton, lexemes_member, lexemesList_singleton]
  have hrow : pieces eof e ((key :: colon :: v.lexemes) ++ (lexemesList ds ++ behind)) = _ :=
    pieces_member hk hc (v.lexemes ++ (lexemesList ds ++ behind))
  rw [hpieces] at hrow
  refine h.list_append hlexemes hrow ?_
  show members _ b _ = _ :: members _ false _
  rw [members_member hk hc, memberValue_piecedValue hvalue hfirst fun hkey =>
    startsWithColon_pieces (hnext hkey)]

theorem Reread.memberAlone (hk : (isKey key.kind || isQuotable key.kind) = true)
    (hc : colon.kind = .colon)
    (hmissing : valueMissing (pieces eof e (lexemesList ds ++ behind)).1 = true)
    (h : Reread eof e behind ds (.list .object false)) :
    Reread eof e behind (Draft.member key colon []
      (missing .value colon.token (nextOf eof (lexemesList ds ++ behind))) :: ds)
      (.list .object b) := by
  have hlexemes (note : Option ParseError) :
      lexemesList [Draft.member key colon [] note] = [key, colon] := by
    rw [lexemesList_singleton, lexemes_member, lexemesList_nil]
  have hrow : pieces eof e ([key, colon] ++ (lexemesList ds ++ behind)) = _ :=
    pieces_member hk hc (lexemesList ds ++ behind)
  refine h.list_append (hlexemes _) hrow ?_
  show members _ b _ = _ :: members _ false _
  rw [members_member hk hc, memberValue_missing hmissing, nextToken_pieces h.1]
  rfl

theorem Reread.incomplete (hk : isKey key.kind = true)
    (hnext : ∀ h ∈ (lexemesList ds ++ behind).head?, canResume e h.kind = true)
    (h : Reread eof e behind ds (.list .object false)) :
    Reread eof e behind (Draft.incomplete key (nextOf eof (lexemesList ds ++ behind)) :: ds)
      (.list .object b) := by
  have hkey := not_isBracket_of_isKey key.kind (by rw [hk, Bool.true_or])
  have hlexemes (next : Token) : lexemesList [Draft.incomplete key next] = [key] := rfl
  have hrow : pieces eof e ([key] ++ (lexemesList ds ++ behind)) = _ :=
    pieces_cons_token ⟨hkey.1, hkey.2.1⟩ (lexemesList ds ++ behind)
  have hcolon : startsWithColon (pieces eof e (lexemesList ds ++ behind)).1 = false :=
    startsWithColon_pieces fun l hl => ne_colon_of_canResume (hnext l hl)
  refine h.list_append (hlexemes _) hrow ?_
  rw [contentsFrom_object, members_incomplete hk hcolon (skip_pieces hnext), nextToken_pieces h.1]
  rfl

theorem Reread.incompleteSkipped {first : Draft} {rest : List Draft} (hk : isKey key.kind = true)
    (hcolon : startsWithColon (first :: rest) = false)
    (hs : Reread eof e (lexemesList ds ++ behind) (first :: rest) .skipped)
    (hnext : ∀ h ∈ (lexemesList ds ++ behind).head?, canResume e h.kind = true)
    (h : Reread eof e behind ds (.list .object false)) :
    Reread eof e behind (Draft.incomplete key first.firstToken :: plain .error first rest :: ds)
      (.list .object b) := by
  have hkey := not_isBracket_of_isKey key.kind (by rw [hk, Bool.true_or])
  obtain ⟨hskip, hbehind⟩ := hs hnext
  have hlexemes : lexemesList [Draft.incomplete key first.firstToken, plain .error first rest] =
      key :: lexemesList (first :: rest) := by
    simp [Draft.incomplete]
  have hrow : pieces eof e
      ((key :: lexemesList (first :: rest)) ++ (lexemesList ds ++ behind)) = _ :=
    pieces_cons_token ⟨hkey.1, hkey.2.1⟩ (lexemesList (first :: rest) ++ (lexemesList ds ++ behind))
  rw [hbehind] at hrow
  have hnone : startsWithColon
      (pieces eof e (lexemesList (first :: rest) ++ (lexemesList ds ++ behind))).1 = false :=
    startsWithColon_of_skip (by rw [hskip]; exact hcolon)
  have htoken : nextOf eof (lexemesList (first :: rest) ++ (lexemesList ds ++ behind)) =
      first.firstToken := by
    rw [nextOf, head?_lexemesList_cons]
    rfl
  refine h.list_append hlexemes hrow ?_
  rw [contentsFrom_object, members_incomplete hk hnone hskip, nextToken_pieces (hbehind.trans h.1),
    htoken]
  rfl

theorem Reread.junk {first : Draft} {rest : List Draft}
    (hs : Reread eof e (lexemesList ds ++ behind) (first :: rest) .skipped)
    (hq : first.isQuotableToken = true → startsWithColon rest = false)
    (hnext : ∀ h ∈ (lexemesList ds ++ behind).head?, canResume e h.kind = true)
    (h : Reread eof e behind ds (.list .object false)) :
    Reread eof e behind (Draft.junk first rest :: ds) (.list .object b) := by
  obtain ⟨hskip, hbehind⟩ := hs hnext
  have hlexemes : lexemesList [Draft.junk first rest] = lexemesList (first :: rest) := by
    rw [lexemesList_singleton]
    rfl
  refine h.list_append hlexemes (Prod.ext rfl hbehind) ?_
  rw [contentsFrom_object, members_junk hskip hq]
  rfl

theorem Reread.skippedToken {l : Lexeme} (hr : resumesMembers (leaf l) = false)
    (ho : l.kind.isOpener = false) (hc : closesAny e l.kind = false)
    (hv : l.kind = .colon → ∀ h ∈ (lexemesList ds ++ behind).head?, h.kind.isScalar = false)
    (h : Reread eof e behind ds .skipped) : Reread eof e behind (leaf l :: ds) .skipped := by
  intro hnext
  obtain ⟨hskip, hbehind⟩ := h hnext
  rw [lexemesList_cons, List.append_assoc, lexemes_leaf, List.singleton_append,
    pieces_token ho hc]
  refine ⟨?_, hbehind⟩
  by_cases hcolon : l.kind = .colon
  · rw [skip_colon hr (hv hcolon), hskip]
  · rw [skip_alone hr fun h => absurd (by simpa [isToken] using h) hcolon, hskip]

theorem Reread.skippedScalar {l : Lexeme} (hc : colon.kind = .colon)
    (hl : l.kind.isScalar = true) (h : Reread eof e behind ds .skipped) :
    Reread eof e behind (leaf colon :: plain .value (leaf l) [] :: ds) .skipped := by
  intro hnext
  obtain ⟨hskip, hbehind⟩ := h hnext
  have hr : resumesMembers (leaf colon) = false := by
    rw [resumesMembers, hc]
    rfl
  have hscalar : (leaf l).startsValue = true := hl
  have hcolon : (leaf colon).isToken .colon = true := by simp [isToken, hc]
  have hrow : lexemesList (leaf colon :: plain .value (leaf l) [] :: ds) ++ behind =
      colon :: l :: (lexemesList ds ++ behind) := rfl
  rw [hrow, pieces_cons_token (not_isBracket_of_eq hc ⟨rfl, rfl⟩),
    pieces_cons_token (not_isBracket_of_isScalar hl)]
  refine ⟨?_, hbehind⟩
  rw [skip_cons hr, skipValue_taken _ hcolon hscalar, hskip, asValue, single_eq, if_pos hl]
  rfl

theorem Reread.skippedValue (ho : d.firstLexeme.kind.isOpener = true)
    (hd : Reread eof e (lexemesList ds ++ behind) [d] .value)
    (h : Reread eof e behind ds .skipped) : Reread eof e behind (d :: ds) .skipped := by
  intro hnext
  obtain ⟨hskip, hbehind⟩ := h hnext
  obtain ⟨ps, hvalue, hpieces⟩ := hd.exists_piecedValue
  rw [lexemesList_cons, List.append_assoc, hpieces]
  refine ⟨?_, hbehind⟩
  cases hvalue with
  | token hopener =>
    rw [firstLexeme_single, hopener] at ho
    exact absurd ho Bool.false_ne_true
  | @signed plus number h =>
    have ho : plus.kind.isOpener = true := ho
    rw [Lexeme.kind, (isSignedNumber_eq_true.mp h).1] at ho
    exact absurd ho Bool.false_ne_true
  | @brackets kind before first rest after =>
    have halone := @skip_alone (node kind before first rest after)
      (pieces eof e (lexemesList ds ++ behind)).1 rfl fun h => absurd h Bool.false_ne_true
    rw [List.singleton_append, halone, hskip]

/-- What the rules derive is read from its lexemes. -/
theorem reread_of_read {slot : Slot} (h : Read eof e slot behind ds) :
    Reread eof e behind ds slot := by
  induction h with
  | scalar hl => exact reread_scalar hl
  | invalid hl hc hnext => exact reread_invalid hl hc hnext
  | signed h => exact reread_signed h
  | tooDeep ho he hrun => exact reread_tooDeep ho he hrun
  | closed ho hc he _ ih =>
    refine reread_container ho he ih (fun row hrow => ?_) rfl
    rw [close_closer hc, ← hrow]
    rfl
  | @unclosed e behind c opener ds ho he hends _ ih =>
    refine reread_container ho he ih (fun row hrow => ?_) rfl
    cases behind with
    | nil => rw [close, ← hrow]; rfl
    | cons l ls =>
      have hl : l.kind ≠ c.closer := (hends l rfl).2
      rw [close, if_neg (by simpa using hl), ← hrow]
      rfl
  | nil hends =>
    rw [Reread, lexemesList_nil, List.nil_append, pieces_ends hends]
    exact ⟨rfl, contentsFrom_nil ..⟩
  | comma hl _ ih =>
    exact ih.list_append (lexemesList_singleton _)
      (pieces_cons_token (not_isBracket_of_eq hl ⟨rfl, rfl⟩) _) (contentsFrom_comma hl)
  | stray hl _ ih =>
    exact ih.list_append (lexemesList_singleton _)
      (pieces_cons_token (not_isBracket_of_eq hl ⟨rfl, rfl⟩) _) (contentsFrom_stray hl _)
  | item hfirst _ _ ihd ih =>
    obtain ⟨ps, hvalue, hpieces⟩ := ihd.exists_piecedValue
    exact ih.list_append (lexemesList_singleton _) hpieces (items_piecedValue hvalue hfirst _)
  | member hk hc hfirst hnext _ _ ihv ih => exact .member hk hc hfirst hnext ihv ih
  | memberAlone hk hc hnext hds ih => exact .memberAlone hk hc (valueMissing_pieces hds hnext) ih
  | incomplete hk hnext _ ih => exact .incomplete hk hnext ih
  | incompleteSkipped hk hcolon _ hnext _ ihs ih => exact .incompleteSkipped hk hcolon ihs hnext ih
  | junk _ hq hnext _ ihs ih => exact .junk ihs hq hnext ih
  | skippedNil => exact fun hnext => ⟨skip_pieces hnext, rfl⟩
  | skippedToken hr ho hc hv _ ih => exact .skippedToken hr ho hc hv ih
  | skippedScalar hc hl _ ih => exact .skippedScalar hc hl ih
  | skippedValue ho _ _ ihd ih => exact .skippedValue ho ihd ih

end

end Maml.Draft

namespace Maml

open Draft

theorem documentDrafts_of_readDocument {eof : Token} {ds : List Draft}
    (h : ReadDocument eof ds) : documentDrafts eof (lexemesList ds) = ds := by
  cases h with
  | @nothing ls hbegins =>
    rw [lexemesList_trailing]
    cases ls with
    | nil => rfl
    | cons l ls => rw [documentDrafts, if_neg (by simp [hbegins l rfl])]
  | @value d ls hbegins hd =>
    obtain ⟨ps, hvalue, hpieces⟩ := (reread_of_read hd).exists_piecedValue
    rw [lexemesList_cons, lexemesList_trailing]
    obtain ⟨ms, hms⟩ := exists_lexemes_eq_cons d
    have hopen : closesAny [] d.firstLexeme.kind = false := rfl
    rw [hms, List.cons_append, pieces_cons, if_neg (by simp [hopen])] at hpieces
    have hall := lexemes_pieceAt eof [] d.firstLexeme (ms ++ ls)
    rw [hms, List.cons_append, documentDrafts, if_pos hbegins]
    -- the value is one piece, so what is behind the piece is behind the value
    have hone : ∃ p, ps = [p] ∧ p.asValue = d := by
      cases hvalue with
      | token => exact ⟨_, rfl, rfl⟩
      | @signed plus number hsigned =>
        have hbegins : beginsDocument plus.kind = true := hbegins
        rw [Lexeme.kind, (isSignedNumber_eq_true.mp hsigned).1] at hbegins
        exact absurd hbegins Bool.false_ne_true
      | brackets => exact ⟨_, rfl, rfl⟩
    obtain ⟨p, rfl, rfl⟩ := hone
    have hpiece : (pieceAt eof [] p.asValue.firstLexeme (ms ++ ls)).1 = p :=
      (List.cons.inj (congrArg Prod.fst hpieces)).1
    have hbehind : (pieceAt eof [] p.asValue.firstLexeme (ms ++ ls)).2 = ls := by
      rw [hpiece, ← lexemes_asValue, hms, List.cons_append] at hall
      exact List.append_cancel_left (List.cons.inj hall).2
    show _ :: trailing _ = _
    rw [hpiece, hbehind]

/-- Reading is what the rules say. -/
theorem documentDrafts_eq_iff {eof : Token} {ls : List Lexeme} {ds : List Draft} :
    documentDrafts eof ls = ds ↔ ReadDocument eof ds ∧ lexemesList ds = ls := by
  constructor
  · rintro rfl
    exact ⟨readDocument_documentDrafts eof ls, lexemes_documentDrafts eof ls⟩
  · rintro ⟨h, rfl⟩
    exact documentDrafts_of_readDocument h

end Maml
