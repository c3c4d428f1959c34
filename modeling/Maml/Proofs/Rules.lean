import Maml.Proofs.Elsewhere
import Maml.Proofs.Pieces

/-! The rules of reading and recovering.

`Read` derives the rows of drafts that reading puts in front of given lexemes. Unlike `Shaped`,
which lists the forms of rows, its rules say when a form is chosen: each looks at the containers
around a row and at what stands behind it, at most two lexemes far, and the notes of mistakes
are determined too.

1. Pieces are tokens that open nothing, and values with brackets (`IsPiece`). A value, the items,
   what is skipped and the members that are made of pieces follow the rules (`read_valueAt`,
   `read_items`, `read_skip`, `read_members`).
2. So do the brackets that pair up, at every depth (`isPiece_arePieces`), and documents
   (`readDocument_documentDrafts`). -/
namespace Maml.Draft

/-! ## The rules -/

/-- The first token of what is left, or the token that stands for the end. -/
def nextOf (eof : Token) (ls : List Lexeme) : Token := (ls.head?.map Lexeme.token).getD eof

def invalid (l : Lexeme) : Draft :=
  plain .value (node .invalidValue (unexpected .value l.token l.token.span) (leaf l) [] none) []

/-- A key, or a token that is one if it is quoted, with its colon and a value. -/
def member (key colon : Lexeme) (value : List Draft) (note : Option ParseError) : Draft :=
  if isKey key.kind then keyValue key (leaf colon) ⟨value, note, []⟩
  else literalKey key (leaf colon) ⟨value, note, []⟩

/-- Whether members can go on with a token after something was skipped. -/
def canResume (enclosing : List Container) (kind : TokenKind) : Bool :=
  closesAny enclosing kind || isKey kind || kind == .comma

/-- Whether a row begins with a comma or with a key and its colon, if with anything. -/
def beginsMember : List Draft → Bool
  | [] => true
  | leaf l :: _ => l.kind == .comma
  | node kind _ first _ _ :: _ => kind == .keyValue && first.firstLexeme.kind.isKeyStart

/-- A place for a row of drafts. -/
inductive Slot where
  /-- One value. -/
  | value
  /-- The rest of what is in a container; `separated` says that a bracket or a comma is directly
  in front. -/
  | list (c : Container) (separated : Bool)
  /-- What is skipped inside an object. -/
  | skipped

/-- The rows that reading puts into a slot in the containers `e`, with the lexemes `behind` after
them. -/
inductive Read (eof : Token) : List Container → Slot → List Lexeme → List Draft → Prop where
  | scalar {e behind l} (hl : l.kind.isScalar = true) :
      Read eof e .value behind [plain .value (leaf l) []]
  | invalid {e behind l} (hl : l.kind.startsValue = false) (hc : closesAny e l.kind = false)
      (hnext : ∀ h ∈ behind.head?, isSignedNumber l.token h.token = false) :
      Read eof e .value behind [invalid l]
  | signed {e behind plus number} (h : isSignedNumber plus.token number.token = true) :
      Read eof e .value behind [signed plus number]
  | tooDeep {e behind opener run} (ho : opener.kind.isOpener = true)
      (he : Container.maxDepth ≤ e.length)
      (hrun : balancedRun 1 (run ++ behind) = (run, behind)) :
      Read eof e .value behind [tooDeep opener run]
  | closed {e behind c opener closer ds} (ho : opener.kind = c.opener)
      (hc : closer.kind = c.closer) (he : e.length < Container.maxDepth)
      (hds : Read eof (c :: e) (.list c true) (closer :: behind) ds) :
      Read eof e .value behind [container c opener ds (some closer) closer.token]
  | unclosed {e behind c opener ds} (ho : opener.kind = c.opener)
      (he : e.length < Container.maxDepth)
      (hends : ∀ h ∈ behind.head?, closesAny e h.kind = true ∧ h.kind ≠ c.closer)
      (hds : Read eof (c :: e) (.list c true) behind ds) :
      Read eof e .value behind [container c opener ds none (nextOf eof behind)]
  | nil {e c b behind} (hends : ∀ h ∈ behind.head?, closesAny e h.kind = true) :
      Read eof e (.list c b) behind []
  | comma {e c behind l ds} (hl : l.kind = .comma) (hds : Read eof e (.list c true) behind ds) :
      Read eof e (.list c false) behind (leaf l :: ds)
  | stray {e c behind l ds} (hl : l.kind = .comma) (hds : Read eof e (.list c false) behind ds) :
      Read eof e (.list c true) behind (strayComma c.expectedElement (leaf l) :: ds)
  | item {e b behind d ds} (hfirst : d.firstLexeme.kind ≠ .comma)
      (hd : Read eof e .value (lexemesList ds ++ behind) [d])
      (hds : Read eof e (.list .array false) behind ds) :
      Read eof e (.list .array b) behind (d :: ds)
  | member {e b behind key colon v ds} (hk : (isKey key.kind || isQuotable key.kind) = true)
      (hc : colon.kind = .colon) (hfirst : v.firstLexeme.kind ≠ .comma)
      (hnext : v.firstLexeme.kind.isKeyStart = true →
        ∀ h ∈ (lexemesList ds ++ behind).head?, h.kind ≠ .colon)
      (hv : Read eof e .value (lexemesList ds ++ behind) [v])
      (hds : Read eof e (.list .object false) behind ds) :
      Read eof e (.list .object b) behind (member key colon [v] none :: ds)
  | memberAlone {e b behind key colon ds} (hk : (isKey key.kind || isQuotable key.kind) = true)
      (hc : colon.kind = .colon) (hnext : beginsMember ds = true)
      (hds : Read eof e (.list .object false) behind ds) :
      Read eof e (.list .object b) behind
        (member key colon []
          (missing .value colon.token (nextOf eof (lexemesList ds ++ behind))) :: ds)
  | incomplete {e b behind key ds} (hk : isKey key.kind = true)
      (hnext : ∀ h ∈ (lexemesList ds ++ behind).head?, canResume e h.kind = true)
      (hds : Read eof e (.list .object false) behind ds) :
      Read eof e (.list .object b) behind
        (incomplete key (nextOf eof (lexemesList ds ++ behind)) :: ds)
  | incompleteSkipped {e b behind key first rest ds} (hk : isKey key.kind = true)
      (hcolon : startsWithColon (first :: rest) = false)
      (hs : Read eof e .skipped (lexemesList ds ++ behind) (first :: rest))
      (hnext : ∀ h ∈ (lexemesList ds ++ behind).head?, canResume e h.kind = true)
      (hds : Read eof e (.list .object false) behind ds) :
      Read eof e (.list .object b) behind
        (incomplete key first.firstToken :: plain .error first rest :: ds)
  | junk {e b behind first rest ds}
      (hs : Read eof e .skipped (lexemesList ds ++ behind) (first :: rest))
      (hq : first.isQuotableToken = true → startsWithColon rest = false)
      (hnext : ∀ h ∈ (lexemesList ds ++ behind).head?, canResume e h.kind = true)
      (hds : Read eof e (.list .object false) behind ds) :
      Read eof e (.list .object b) behind (junk first rest :: ds)
  | skippedNil {e behind} : Read eof e .skipped behind []
  | skippedToken {e behind l ds} (hl : resumesMembers (leaf l) = false)
      (ho : l.kind.isOpener = false) (hc : closesAny e l.kind = false)
      (hnext : l.kind = .colon →
        ∀ h ∈ (lexemesList ds ++ behind).head?, h.kind.isScalar = false)
      (hds : Read eof e .skipped behind ds) : Read eof e .skipped behind (leaf l :: ds)
  | skippedScalar {e behind colon l ds} (hc : colon.kind = .colon) (hl : l.kind.isScalar = true)
      (hds : Read eof e .skipped behind ds) :
      Read eof e .skipped behind (leaf colon :: plain .value (leaf l) [] :: ds)
  | skippedValue {e behind d ds} (ho : d.firstLexeme.kind.isOpener = true)
      (hd : Read eof e .value (lexemesList ds ++ behind) [d])
      (hds : Read eof e .skipped behind ds) : Read eof e .skipped behind (d :: ds)

/-- The drafts of a document by the rules. -/
inductive ReadDocument (eof : Token) : List Draft → Prop where
  | value {d ls} (hbegins : beginsDocument d.firstLexeme.kind = true)
      (hd : Read eof [] .value ls [d]) : ReadDocument eof (d :: trailing ls)
  | nothing {ls} (hbegins : ∀ l ∈ ls.head?, beginsDocument l.kind = false) :
      ReadDocument eof (trailing ls)

/-! ## Pieces -/

/-- A piece in front of given lexemes: a token that opens nothing, or a value with brackets. -/
def IsPiece (eof : Token) (e : List Container) (behind : List Lexeme) : Draft → Prop
  | leaf l => l.kind.isOpener = false ∧ closesAny e l.kind = false
  | node kind before first rest after => first.firstLexeme.kind.isOpener = true ∧
      Read eof e .value behind [node kind before first rest after]

/-- A row of pieces up to a closer or the end. -/
def ArePieces (eof : Token) (e : List Container) (behind : List Lexeme) : List Draft → Prop
  | [] => ∀ h ∈ behind.head?, closesAny e h.kind = true
  | d :: ds => IsPiece eof e (lexemesList ds ++ behind) d ∧ ArePieces eof e behind ds

section
variable {eof : Token} {e : List Container} {behind : List Lexeme}

theorem nextOf_cons (l : Lexeme) (ls : List Lexeme) : nextOf eof (l :: ls) = l.token := rfl

theorem head?_lexemesList_cons (d : Draft) (ds : List Draft) :
    (lexemesList (d :: ds) ++ behind).head? = some d.firstLexeme := by
  obtain ⟨ls, hls⟩ := exists_lexemes_eq_cons d
  rw [lexemesList_cons, hls]
  rfl

theorem nextToken_eq (ds : List Draft) :
    nextToken (nextOf eof behind) ds = nextOf eof (lexemesList ds ++ behind) := by
  cases ds with
  | nil => rfl
  | cons d ds =>
    have hhead : (lexemesList (d :: ds) ++ behind).head? = some d.firstLexeme :=
      head?_lexemesList_cons d ds
    show d.firstToken = nextOf eof (lexemesList (d :: ds) ++ behind)
    rw [nextOf, hhead]
    rfl

theorem forall_head?_cons {P : Lexeme → Prop} {d : Draft} {ds : List Draft}
    (h : P d.firstLexeme) : ∀ l ∈ (lexemesList (d :: ds) ++ behind).head?, P l := by
  rw [head?_lexemesList_cons]
  intro l hl
  obtain rfl := Option.some.inj hl
  exact h

theorem isCloser_of_closesAny {kind : TokenKind} (h : closesAny e kind = true) :
    kind.isCloser = true := by
  cases hc : kind.isCloser with
  | true => rfl
  | false => rw [ReadAs.closesAny_eq_false hc] at h; exact absurd h Bool.false_ne_true

/-- What is true of closers, of the brackets that open and of the tokens at the front of pieces is
true of the lexeme that comes next. -/
theorem ArePieces.forall_head? {ds : List Draft} (h : ArePieces eof e behind ds)
    {P : TokenKind → Prop} (hcloser : ∀ kind, kind.isCloser = true → P kind)
    (hopener : ∀ kind, kind.isOpener = true → P kind)
    (htoken : ∀ l, ds.head? = some (leaf l) → P l.kind) :
    ∀ l ∈ (lexemesList ds ++ behind).head?, P l.kind := by
  cases ds with
  | nil => exact fun l hl => hcloser _ (isCloser_of_closesAny (h l hl))
  | cons d ds =>
    refine forall_head?_cons ?_
    cases d with
    | leaf l => exact htoken l rfl
    | node => exact hopener _ h.1.1

/-! ## Values -/

theorem ne_number_of_isCloser : ∀ kind : TokenKind, kind.isCloser = true → kind ≠ .number := by
  decide

theorem ne_number_of_isOpener : ∀ kind : TokenKind, kind.isOpener = true → kind ≠ .number := by
  decide

theorem ne_colon_of_isCloser : ∀ kind : TokenKind, kind.isCloser = true → kind ≠ .colon := by
  decide

theorem ne_colon_of_isOpener : ∀ kind : TokenKind, kind.isOpener = true → kind ≠ .colon := by
  decide

theorem single_eq (l : Lexeme) :
    single l = if l.kind.isScalar then plain .value (leaf l) [] else invalid l := rfl

@[simp] theorem firstLexeme_single (l : Lexeme) : (single l).firstLexeme = l := by
  unfold single
  split <;> rfl

@[simp] theorem firstLexeme_asValue (d : Draft) : d.asValue.firstLexeme = d.firstLexeme := by
  cases d with
  | leaf l => exact firstLexeme_single l
  | node => rfl

@[simp] theorem firstLexeme_valueAt (d : Draft) (ds : List Draft) :
    (valueAt d ds).1.firstLexeme = d.firstLexeme := by
  cases valueRule d ds with
  | signed h =>
    rw [valueAt_signed _ h]
    rfl
  | alone h =>
    rw [valueAt_alone h]
    exact firstLexeme_asValue d

@[simp] theorem firstLexeme_container (c : Container) (opener : Lexeme) (ds : List Draft)
    (closer : Option Lexeme) (next : Token) :
    (container c opener ds closer next).firstLexeme = opener := rfl

@[simp] theorem firstLexeme_member (key colon : Lexeme) (value : List Draft)
    (note : Option ParseError) : (member key colon value note).firstLexeme = key := by
  unfold member
  split <;> rfl

theorem read_single {l : Lexeme} (ho : l.kind.isOpener = false) (hc : closesAny e l.kind = false)
    (hnext : ∀ h ∈ behind.head?, isSignedNumber l.token h.token = false) :
    Read eof e .value behind [single l] := by
  rw [single_eq]
  split
  · rename_i h
    exact .scalar h
  · rename_i h
    exact .invalid (startsValue_of_opens? (opens?_of_not_isOpener ho) h) hc hnext

/-- The value at the front of a row of pieces, and the pieces behind it. -/
theorem read_valueAt {d : Draft} {ds : List Draft} (h : ArePieces eof e behind (d :: ds)) :
    Read eof e .value (lexemesList (valueAt d ds).2 ++ behind) [(valueAt d ds).1] ∧
      ArePieces eof e behind (valueAt d ds).2 := by
  obtain ⟨hd, hds⟩ := h
  cases valueRule d ds with
  | signed hsigned =>
    rw [valueAt_signed _ hsigned]
    exact ⟨.signed hsigned, hds.2⟩
  | alone halone =>
    rw [valueAt_alone halone]
    refine ⟨?_, hds⟩
    cases d with
    | node => exact hd.2
    | leaf plus =>
      refine read_single hd.1 hd.2 ?_
      -- what comes behind is no number, or a number that the token does not sign
      cases ds with
      | nil =>
        exact fun l hl => isSignedNumber_of_ne
          (ne_number_of_isCloser _ (isCloser_of_closesAny (hds l hl)))
      | cons d ds =>
        refine forall_head?_cons ?_
        cases d with
        | leaf number => exact halone plus number rfl rfl
        | node => exact isSignedNumber_of_ne (ne_number_of_isOpener _ hds.1.1)

/-! ## Items -/

theorem ne_comma_of_isPiece {d : Draft} (h : IsPiece eof e behind d)
    (hc : d.isToken .comma = false) : d.firstLexeme.kind ≠ .comma := by
  cases d with
  | leaf l => exact fun hl => by simp [isToken, firstLexeme] at hc hl; exact hc hl
  | node kind before first rest after =>
    intro hl
    have ho : first.firstLexeme.kind.isOpener = true := h.1
    have hl : first.firstLexeme.kind = .comma := hl
    rw [hl] at ho
    exact absurd ho Bool.false_ne_true

theorem read_items (b : Bool) {ds : List Draft} (h : ArePieces eof e behind ds) :
    Read eof e (.list .array b) behind (items b ds) := by
  induction b, ds using items_induction with
  | nil =>
    rw [items_nil]
    exact .nil h
  | stray comma ds hc ih =>
    rw [items_stray hc]
    exact .stray hc (ih h.2)
  | comma comma ds hc ih =>
    rw [items_comma hc]
    exact .comma hc (ih h.2)
  | item b d ds hc ih =>
    rw [items_cons hc]
    obtain ⟨hvalue, hrest⟩ := read_valueAt h
    refine .item ?_ (by rwa [lexemesList_items]) (ih hrest)
    rw [firstLexeme_valueAt]
    exact ne_comma_of_isPiece h.1 hc

/-! ## Skipping -/

/-- Where skipping ends, members can go on. -/
theorem canResume_of_arePieces {ds : List Draft} (h : ArePieces eof e behind ds)
    (hr : ∀ d ∈ ds.head?, d.resumesMembers = true) :
    ∀ l ∈ (lexemesList ds ++ behind).head?, canResume e l.kind = true := by
  cases ds with
  | nil =>
    intro l hl
    rw [canResume, h l hl]
    rfl
  | cons d ds =>
    have hd : d.resumesMembers = true := hr d rfl
    refine forall_head?_cons ?_
    cases d with
    | leaf l =>
      have hd : (isKey l.kind || l.kind == .comma) = true := hd
      rw [canResume, Bool.or_assoc, firstLexeme, hd, Bool.or_true]
    | node => exact absurd hd Bool.false_ne_true

theorem not_isScalar_of_isCloser : ∀ kind : TokenKind, kind.isCloser = true →
    kind.isScalar = false := by
  decide

theorem not_isScalar_of_isOpener : ∀ kind : TokenKind, kind.isOpener = true →
    kind.isScalar = false := by
  decide

theorem read_skipValue {d : Draft} {ds skipped : List Draft}
    (h : ArePieces eof e behind (d :: ds)) (hr : d.resumesMembers = false)
    {after : List Lexeme} (hafter : lexemesList skipped ++ after =
      lexemesList (skipValue d ds).2 ++ behind)
    (hskipped : Read eof e .skipped after skipped) :
    Read eof e .skipped after (d :: ((skipValue d ds).1 ++ skipped)) := by
  obtain ⟨hd, hds⟩ := h
  cases skipRule d ds with
  | @taken v rest hc hv =>
    obtain ⟨colon, rfl, hcolon⟩ := eq_leaf_of_isToken hc
    rw [skipValue_taken _ hc hv] at hafter ⊢
    cases v with
    | leaf v =>
      have hscalar : v.kind.isScalar = true := hv
      have hsingle : (leaf v).asValue = plain .value (leaf v) [] := by
        rw [asValue, single_eq, if_pos hscalar]
      rw [hsingle]
      exact .skippedScalar hcolon hscalar hskipped
    | node kind before first rest' after' =>
      have hopener : first.firstLexeme.kind.isOpener = true := hds.1.1
      have hafter : lexemesList skipped ++ after = lexemesList rest ++ behind := hafter
      refine .skippedToken hr hd.1 hd.2 (fun _ => ?_)
        (.skippedValue hopener (hafter ▸ hds.1.2) hskipped)
      exact forall_head?_cons (not_isScalar_of_isOpener _ hopener)
  | alone halone =>
    rw [skipValue_alone halone] at hafter ⊢
    have hafter : lexemesList skipped ++ after = lexemesList ds ++ behind := hafter
    cases d with
    | node => exact .skippedValue hd.1 (hafter ▸ hd.2) hskipped
    | leaf l =>
      refine .skippedToken hr hd.1 hd.2 (fun hcolon => ?_) hskipped
      show ∀ h ∈ (lexemesList skipped ++ after).head?, h.kind.isScalar = false
      rw [hafter]
      refine hds.forall_head? not_isScalar_of_isCloser not_isScalar_of_isOpener fun v hv => ?_
      exact halone (by simpa [isToken] using hcolon) (leaf v) hv

theorem arePieces_skipValue {d : Draft} {ds : List Draft} (h : ArePieces eof e behind ds) :
    ArePieces eof e behind (skipValue d ds).2 := by
  cases skipRule d ds with
  | taken hc hv =>
    rw [skipValue_taken _ hc hv]
    exact h.2
  | alone halone => rwa [skipValue_alone halone]

/-- What is skipped at the front of a row of pieces, and the pieces behind it. -/
theorem read_skip {ds : List Draft} (h : ArePieces eof e behind ds) :
    Read eof e .skipped (lexemesList (skip ds).2 ++ behind) (skip ds).1 ∧
      ArePieces eof e behind (skip ds).2 := by
  induction ds using skip_induction with
  | nil =>
    rw [skip_nil]
    exact ⟨.skippedNil, h⟩
  | resumes d ds hr =>
    rw [skip_of_resumesMembers hr]
    exact ⟨.skippedNil, h⟩
  | skipped d ds hr ih =>
    obtain ⟨hskipped, hrest⟩ := ih (arePieces_skipValue h.2)
    rw [skip_cons hr]
    refine ⟨read_skipValue h hr ?_ hskipped, hrest⟩
    rw [← List.append_assoc, lexemes_skip]

theorem canResume_skip {ds : List Draft} (h : ArePieces eof e behind ds) :
    ∀ l ∈ (lexemesList (skip ds).2 ++ behind).head?, canResume e l.kind = true :=
  canResume_of_arePieces (read_skip h).2 fun _ hd => resumesMembers_of_mem_head?_skip hd

/-! ## Members -/

theorem member_of_isKey {key : Lexeme} (hk : isKey key.kind = true) (colon : Lexeme)
    (value : List Draft) (note : Option ParseError) :
    member key colon value note = keyValue key (leaf colon) ⟨value, note, []⟩ := by
  rw [member, if_pos hk]

theorem member_of_isQuotable {key : Lexeme} (hk : isQuotable key.kind = true) (colon : Lexeme)
    (value : List Draft) (note : Option ParseError) :
    member key colon value note = literalKey key (leaf colon) ⟨value, note, []⟩ := by
  rw [member, if_neg (by simp [not_isKey_of_isQuotable hk])]

/-- Where a value is missing, a list goes on with a comma or a key and its colon, if at all. -/
theorem beginsMember_members {stop : Token} {ds : List Draft} (h : valueMissing ds = true) :
    beginsMember (members stop false ds) = true := by
  cases ds with
  | nil =>
    rw [members_nil]
    rfl
  | cons d ds =>
    cases d with
    | node => exact absurd h Bool.false_ne_true
    | leaf l =>
      have h : (l.kind == .comma || (l.kind.isKeyStart && startsWithColon ds)) = true := h
      cases hc : (leaf l).isToken .comma with
      | true =>
        rw [members_comma (by simpa [isToken] using hc)]
        exact hc
      | false =>
        have hc' : (l.kind == .comma) = false := hc
        rw [hc', Bool.false_or, Bool.and_eq_true] at h
        obtain ⟨colon, ds, rfl, hcolon⟩ := exists_eq_leaf_cons_of_startsWithColon h.2
        rw [members_cons hc, memberAt_keyValue (isKey_of_isKeyStart h.1) hcolon]
        exact h.1

theorem read_member {b : Bool} {key colon : Lexeme} {ds more : List Draft}
    (hk : (isKey key.kind || isQuotable key.kind) = true) (hc : colon.kind = .colon)
    (h : ArePieces eof e behind ds)
    (hmore : more = members (nextOf eof behind) false
      (memberValue (nextOf eof behind) (leaf colon) ds).rest)
    (hread : ArePieces eof e behind (memberValue (nextOf eof behind) (leaf colon) ds).rest →
      Read eof e (.list .object false) behind more) :
    Read eof e (.list .object b) behind
      (member key colon (memberValue (nextOf eof behind) (leaf colon) ds).value
        (memberValue (nextOf eof behind) (leaf colon) ds).note :: more) := by
  cases memberValueRule ds with
  | missing hmissing =>
    rw [memberValue_missing hmissing] at hmore hread ⊢
    have hlexemes : lexemesList more = lexemesList ds := by rw [hmore, lexemesList_members]
    rw [nextToken_eq, ← hlexemes]
    exact .memberAlone hk hc (hmore ▸ beginsMember_members hmissing) (hread h)
  | @present d ds hpresent =>
    obtain ⟨hv, hrest⟩ := read_valueAt h
    rw [memberValue_present hpresent] at hmore hread ⊢
    have hlexemes : lexemesList more = lexemesList (valueAt d ds).2 := by
      rw [hmore, lexemesList_members]
    have hcomma : d.isToken .comma = false := by
      cases d with
      | node => rfl
      | leaf l =>
        rw [valueMissing, Bool.or_eq_false_iff] at hpresent
        exact hpresent.1
    refine .member hk hc ?_ ?_ (by rwa [hlexemes]) (hread hrest)
    · rw [firstLexeme_valueAt]
      exact ne_comma_of_isPiece h.1 hcomma
    · rw [firstLexeme_valueAt, hlexemes]
      intro hkey
      cases d with
      | node kind before first rest after =>
        have hopener : first.firstLexeme.kind.isOpener = true := h.1.1
        have hkey : first.firstLexeme.kind.isKeyStart = true := hkey
        rw [(not_isBracket_of_isKeyStart hkey).1] at hopener
        exact absurd hopener Bool.false_ne_true
      | leaf l =>
        -- a word or a string takes no number along
        have hkey : l.kind.isKeyStart = true := hkey
        rw [valueAt_of_kind hkey rfl]
        rw [valueMissing, hkey, Bool.true_and, Bool.or_eq_false_iff] at hpresent
        refine h.2.forall_head? ne_colon_of_isCloser ne_colon_of_isOpener ?_
        intro v hhead
        obtain ⟨rest, rfl⟩ := List.head?_eq_some_iff.mp hhead
        simpa [startsWithColon, isToken] using hpresent.2

theorem read_skipMember {b : Bool} {d : Draft} {ds more : List Draft}
    (h : ArePieces eof e behind (d :: ds)) (hr : d.resumesMembers = false)
    (hq : d.isQuotableToken = true → startsWithColon ds = false)
    (hmore : lexemesList more = lexemesList (skipMember d ds).2)
    (hread : ArePieces eof e behind (skipMember d ds).2 →
      Read eof e (.list .object false) behind more) :
    Read eof e (.list .object b) behind ((skipMember d ds).1 ++ more) := by
  have hskipped := read_skip h
  have hnext := canResume_skip h
  rw [skip_cons hr] at hskipped hnext
  have hlexemes : lexemesList more = lexemesList (skip (skipValue d ds).2).2 := hmore
  rw [← hlexemes] at hskipped hnext
  refine .junk hskipped.1 ?_ hnext (hread hskipped.2)
  intro hquote
  rw [skipValue_of_isQuotableToken hquote]
  exact startsWithColon_skip (hq hquote)

theorem read_memberAt {b : Bool} {d : Draft} {ds : List Draft}
    (h : ArePieces eof e behind (d :: ds)) (hc : d.isToken .comma = false)
    (hread : ArePieces eof e behind (memberAt (nextOf eof behind) d ds).2 →
      Read eof e (.list .object false) behind
        (members (nextOf eof behind) false (memberAt (nextOf eof behind) d ds).2)) :
    Read eof e (.list .object b) behind
      ((memberAt (nextOf eof behind) d ds).1 ++
        members (nextOf eof behind) false (memberAt (nextOf eof behind) d ds).2) := by
  cases memberRule d ds with
  | keyValue hkey hcolon =>
    rw [memberAt_keyValue hkey hcolon] at hread ⊢
    have hmember := read_member (b := b) (by rw [hkey, Bool.true_or]) hcolon h.2.2 rfl hread
    rw [member_of_isKey hkey] at hmember
    exact hmember
  | literalKey hquote hcolon =>
    rw [memberAt_literalKey hquote hcolon] at hread ⊢
    have hmember := read_member (b := b) (by rw [hquote, Bool.or_true]) hcolon h.2.2 rfl hread
    rw [member_of_isQuotable hquote] at hmember
    exact hmember
  | @incomplete key ds hkey hcolon =>
    have hskipped := read_skip h.2
    have hnext := canResume_skip h.2
    rw [memberAt_incomplete hkey hcolon] at hread ⊢
    have hmore := hread hskipped.2
    have hlexemes : lexemesList (members (nextOf eof behind) false (skip ds).2) =
        lexemesList (skip ds).2 := lexemesList_members ..
    have hnone := startsWithColon_skip hcolon
    have hrow := lexemes_skip ds
    have htoken : nextToken (nextOf eof behind) ds = nextOf eof (lexemesList ds ++ behind) :=
      nextToken_eq ds
    rw [htoken, ← hrow, List.append_assoc, ← hlexemes]
    rw [← hlexemes] at hskipped hnext
    generalize (skip ds).1 = skipped at hskipped hnone ⊢
    cases skipped with
    | nil => exact .incomplete hkey hnext hmore
    | cons first rest =>
      rw [← List.append_assoc, nextOf, List.append_assoc, head?_lexemesList_cons]
      exact .incompleteSkipped hkey hnone hskipped.1 hnext hmore
  | skipped hkey hquote =>
    rw [memberAt_skip hkey hquote] at hread ⊢
    exact read_skipMember h (not_resumesMembers hkey hc) hquote (lexemesList_members ..) hread

theorem read_members (b : Bool) {ds : List Draft} (h : ArePieces eof e behind ds) :
    Read eof e (.list .object b) behind (members (nextOf eof behind) b ds) := by
  induction b, ds using @members_induction (nextOf eof behind) with
  | nil =>
    rw [members_nil]
    exact .nil h
  | stray comma ds hc ih =>
    rw [members_stray hc]
    exact .stray hc (ih h.2)
  | comma comma ds hc ih =>
    rw [members_comma hc]
    exact .comma hc (ih h.2)
  | member b d ds hc ih =>
    rw [members_cons hc]
    exact read_memberAt h hc ih

theorem read_contents (c : Container) {ds : List Draft} (h : ArePieces eof e behind ds) :
    Read eof e (.list c true) behind (contents c (nextOf eof behind) ds) := by
  cases c with
  | object => exact read_members true h
  | array => exact read_items true h

end

/-! ## Brackets -/

section
variable {eof : Token} {e : List Container}

theorem read_close {c : Container} {opener : Lexeme} {ds : List Draft} {rest : List Lexeme}
    (ho : opener.kind = c.opener) (he : e.length < Container.maxDepth)
    (h : ArePieces eof (c :: e) rest ds)
    (hrest : ∀ l ∈ rest.head?, closesAny (c :: e) l.kind = true) :
    Read eof e .value (close eof c opener ds rest).2 [(close eof c opener ds rest).1] := by
  have hinner := read_contents c h
  cases rest with
  | nil => exact .unclosed ho he (fun h hh => by simp [close] at hh) hinner
  | cons l ls =>
    by_cases hl : l.kind = c.closer
    · rw [close_closer hl]
      exact .closed ho hl he hinner
    · rw [close, if_neg (by simpa using hl)]
      refine .unclosed ho he ?_ hinner
      intro h hh
      obtain rfl := Option.some.inj hh
      exact ⟨closesAny_of_ne (hrest l rfl) hl, hl⟩

theorem balancedRun_self (depth : Nat) (ls : List Lexeme) :
    balancedRun depth ((balancedRun depth ls).1 ++ (balancedRun depth ls).2) =
      balancedRun depth ls := by
  rw [append_balancedRun]

theorem firstLexeme_close (eof : Token) (c : Container) (opener : Lexeme) (ds : List Draft)
    (rest : List Lexeme) : (close eof c opener ds rest).1.firstLexeme = opener := by
  unfold close
  split
  · split <;> rfl
  · rfl

theorem isPiece_of_read {d : Draft} {behind : List Lexeme}
    (ho : d.firstLexeme.kind.isOpener = true) (hd : Read eof e .value behind [d]) :
    IsPiece eof e behind d := by
  cases d with
  | leaf l => cases hd
  | node => exact ⟨ho, hd⟩

theorem isPiece_arePieces (eof : Token) :
    (∀ e l ls, closesAny e l.kind = false →
      IsPiece eof e (pieceAt eof e l ls).2 (pieceAt eof e l ls).1) ∧
    ∀ e ls, ArePieces eof e (pieces eof e ls).2 (pieces eof e ls).1 := by
  have hends := (resolved_pieceAt_pieces eof).2
  apply pieceAt_pieces_induction eof
  case token =>
    intro e l ls ho hl
    rw [pieceAt_of_opens?_eq_none ho]
    exact ⟨not_isOpener_of_opens? ho, hl⟩
  case nested =>
    intro e l ls c ho he ih _
    rw [pieceAt_of_opens?_eq_some ho, if_pos he]
    have hopener := Container.opens?_eq_some.mp ho
    refine isPiece_of_read ?_ (read_close hopener he ih (hends (c :: e) ls).2)
    rw [firstLexeme_close]
    exact isOpener_of_opens? ho
  case deep =>
    intro e l ls c ho he _
    rw [pieceAt_of_opens?_eq_some ho, if_neg (by omega)]
    have hopener := isOpener_of_opens? ho
    exact isPiece_of_read hopener (.tooDeep hopener he (balancedRun_self 1 ls))
  case nil =>
    intro e
    rw [pieces_nil]
    exact fun _ h => by simp at h
  case cons =>
    intro e l ls hpiece hmore
    rw [pieces_cons]
    split
    · rename_i hl
      intro h hh
      obtain rfl := Option.some.inj hh
      exact hl
    · rename_i hl
      refine ⟨?_, hmore⟩
      rw [lexemes_pieces]
      exact hpiece (by simpa using hl)

end

end Maml.Draft

namespace Maml

open Draft

theorem readDocument_documentDrafts (eof : Token) (ls : List Lexeme) :
    ReadDocument eof (documentDrafts eof ls) := by
  cases ls with
  | nil =>
    have hnone : ∀ l ∈ ([] : List Lexeme).head?, beginsDocument l.kind = false := by simp
    exact .nothing hnone
  | cons l ls =>
    rw [documentDrafts]
    split
    · rename_i hbegins
      obtain ⟨ms, hms⟩ := exists_lexemes_pieceAt eof [] l ls
      have hfirst := firstLexeme_of_lexemes hms
      have hpiece := (isPiece_arePieces eof).1 [] l ls rfl
      refine .value ?_ ?_
      · rw [firstLexeme_asValue, hfirst]
        exact hbegins
      · generalize pieceAt eof [] l ls = piece at hfirst hpiece
        obtain ⟨d, rest⟩ := piece
        cases d with
        | node => exact hpiece.2
        | leaf l' =>
          obtain rfl : l' = l := hfirst
          -- no document begins with a sign
          exact read_single hpiece.1 hpiece.2 fun h _ => isSignedNumber_of_kind hbegins rfl h.token
    · rename_i hbegins
      exact .nothing (by simpa using hbegins)

end Maml
