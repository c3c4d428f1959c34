import Maml.Parse

/-! What reading makes of any tokens.

`Shaped` lists every form a value and a row of drafts can take, together with
the mistakes noted at each node. `enclosing` are the containers around a draft,
innermost first.

1. Skipping, members and items make rows of these forms out of pieces of these
   forms (`shaped_skip`, `shaped_members`, `shaped_items`).
2. So do the brackets that pair up, at every depth (`shaped_pieceAt_pieces`).
3. A document is at most one value and at most one node of everything behind it
   (`documentDrafts_cases`).

A property of everything that can be read is an induction over `Shaped`: one
case for each way of reading and of recovering. -/
namespace Maml.Draft

/-! ## The forms -/

/-- A place that holds drafts. -/
inductive Place where
  /-- One value. -/
  | value
  /-- The rest of what is in a container; `separated` says that a bracket or a comma is directly
  in front. -/
  | list (c : Container) (separated : Bool)
  /-- What is behind a colon, with the note that it is missing if it is. -/
  | behindColon (colon : Lexeme) (note : Option ParseError)
  /-- What is skipped inside an object. -/
  | skipped

def isError : Draft → Bool
  | node .error .. => true
  | _ => false

/-- The drafts that reading can put into a place. -/
inductive Shaped : List Container → Place → List Draft → Prop where
  | scalar {e l} (hl : l.kind.isScalar = true) : Shaped e .value [plain .value (leaf l) []]
  | invalid {e l} (hl : l.kind.startsValue = false) : Shaped e .value [single l]
  | signed {e plus number} (h : isSignedNumber plus.token number.token = true) :
      Shaped e .value [signed plus number]
  | tooDeep {e opener ls} (ho : opener.kind.isOpener = true)
      (he : Container.maxDepth ≤ e.length) :
      Shaped e .value [tooDeep opener (balancedRun 1 ls).1]
  | container {e c opener ds closer} (next : Token) (ho : opener.kind = c.opener)
      (he : e.length < Container.maxDepth) (hc : ∀ l ∈ closer, l.kind = c.closer)
      (hds : Shaped (c :: e) (.list c true) ds) :
      Shaped e .value [container c opener ds closer next]
  | nil {e c b} : Shaped e (.list c b) []
  | comma {e c l ds} (hl : l.kind = .comma) (hds : Shaped e (.list c true) ds) :
      Shaped e (.list c false) (leaf l :: ds)
  | stray {e c l ds} (hl : l.kind = .comma) (hds : Shaped e (.list c false) ds) :
      Shaped e (.list c true) (strayComma c.expectedElement (leaf l) :: ds)
  | item {e b d ds} (hd : Shaped e .value [d]) (hds : Shaped e (.list .array false) ds) :
      Shaped e (.list .array b) (d :: ds)
  | keyValue {e b key colon note value ds} (hk : isKey key.kind = true)
      (hc : colon.kind = .colon) (hv : Shaped e (.behindColon colon note) value)
      (hds : Shaped e (.list .object false) ds) :
      Shaped e (.list .object b)
        (node .keyValue (keyNote key) (plain .key (leaf key) []) (leaf colon :: value) note :: ds)
  | incomplete {e b key next ds} (hk : isKey key.kind = true)
      (hne : ∀ d ∈ ds.head?, d.isError = false) (hds : Shaped e (.list .object false) ds) :
      Shaped e (.list .object b) (incomplete key next :: ds)
  | incompleteSkipped {e b key next first rest ds} (hk : isKey key.kind = true)
      (hs : Shaped e .skipped (first :: rest)) (hds : Shaped e (.list .object false) ds) :
      Shaped e (.list .object b) (incomplete key next :: plain .error first rest :: ds)
  | literalKey {e b key colon note value ds} (hk : isQuotable key.kind = true)
      (hc : colon.kind = .colon) (hv : Shaped e (.behindColon colon note) value)
      (hds : Shaped e (.list .object false) ds) :
      Shaped e (.list .object b)
        (node .error (unexpected .key key.token key.token.span) (leaf key) (leaf colon :: value)
          note :: ds)
  | junk {e b first rest ds} (hs : Shaped e .skipped (first :: rest))
      (hq : first.isQuotableToken = true → startsWithColon rest = false)
      (hds : Shaped e (.list .object false) ds) :
      Shaped e (.list .object b) (junk first rest :: ds)
  | missing {e colon next} : Shaped e (.behindColon colon (missing .value colon.token next)) []
  | present {e colon d} (hd : Shaped e .value [d]) : Shaped e (.behindColon colon none) [d]
  | skippedNil {e} : Shaped e .skipped []
  | skippedToken {e l ds} (hl : resumesMembers (leaf l) = false)
      (ho : l.kind.isOpener = false) (hds : Shaped e .skipped ds) :
      Shaped e .skipped (leaf l :: ds)
  | skippedValue {e d ds} (hd : Shaped e .value [d]) (hds : Shaped e .skipped ds) :
      Shaped e .skipped (d :: ds)

/-- What is left in a list of pieces: tokens that open nothing, and values with brackets. -/
def ShapedPiece (e : List Container) : Draft → Prop
  | leaf l => l.kind.opens? = none
  | d => Shaped e .value [d]

theorem exists_plain_of_shaped {e : List Container} {d : Draft} (h : Shaped e .value [d]) :
    ∃ first, d = plain .value first [] := by
  generalize hplace : Place.value = place at h
  generalize hrow : [d] = row at h
  -- only the forms of a value are left; a token by itself is one node or two
  cases h <;> simp only [reduceCtorEq, List.cons.injEq, and_true] at hplace hrow
  case invalid l _ =>
    rw [hrow, single]
    split <;> exact ⟨_, rfl⟩
  all_goals exact ⟨_, hrow⟩

theorem shaped_behindColon {e : List Container} {colon : Lexeme} {note : Option ParseError}
    {value : List Draft} (h : Shaped e (.behindColon colon note) value) :
    (∃ next, value = [] ∧ note = missing .value colon.token next) ∨
      (∃ d, value = [d] ∧ note = none ∧ Shaped e .value [d]) := by
  cases h with
  | missing => exact .inl ⟨_, rfl, rfl⟩
  | present hd => exact .inr ⟨_, rfl, rfl, hd⟩

/-! ## Kinds of tokens -/

theorem startsValue_of_opens? : ∀ {kind : TokenKind}, kind.opens? = none →
    ¬ kind.isScalar = true → kind.startsValue = false := by
  decide

theorem not_isOpener_of_opens? : ∀ {kind : TokenKind}, kind.opens? = none →
    kind.isOpener = false := by
  decide

theorem not_isCloser_of_isOpener : ∀ {kind : TokenKind}, kind.isOpener = true →
    kind.isCloser = false := by
  decide

theorem opens?_of_not_isOpener : ∀ {kind : TokenKind}, kind.isOpener = false →
    kind.opens? = none := by
  decide

theorem isOpener_of_opens? {kind : TokenKind} {c : Container} (h : kind.opens? = some c) :
    kind.isOpener = true := by
  revert h
  cases kind <;> cases c <;> decide

/-! ## Values -/

section
variable {e : List Container}

theorem shaped_single {l : Lexeme} (hl : l.kind.opens? = none) : Shaped e .value [single l] := by
  unfold single
  split
  · rename_i h
    exact .scalar h
  · rename_i h
    have hs := Shaped.invalid (e := e) (startsValue_of_opens? hl h)
    rw [single, if_neg h] at hs
    exact hs

theorem shaped_asValue {d : Draft} (hd : ShapedPiece e d) : Shaped e .value [d.asValue] := by
  cases d with
  | leaf l => exact shaped_single hd
  | node => exact hd

theorem shaped_valueAt {d : Draft} {ds : List Draft} (hd : ShapedPiece e d) :
    Shaped e .value [(valueAt d ds).1] := by
  cases valueRule d ds with
  | signed h =>
    rw [valueAt_signed _ h]
    exact .signed h
  | alone h =>
    rw [valueAt_alone h]
    exact shaped_asValue hd

theorem mem_valueAt {d d' : Draft} {ds : List Draft} (h : d' ∈ (valueAt d ds).2) : d' ∈ ds := by
  cases valueRule d ds with
  | signed hsigned =>
    rw [valueAt_signed _ hsigned] at h
    exact List.mem_cons_of_mem _ h
  | alone halone => rwa [valueAt_alone halone] at h

theorem cover_of_isSignedNumber {plus number : Token} (h : isSignedNumber plus number = true)
    (hplus : plus.span.Ordered) (hnumber : number.span.Ordered) :
    plus.span.cover number.span = ⟨plus.span.start, number.span.stop⟩ := by
  have hadjacent : number.span.start = plus.span.stop := (isSignedNumber_eq_true.mp h).2.2.2
  have hplus : plus.span.start ≤ plus.span.stop := hplus
  have hnumber : number.span.start ≤ number.span.stop := hnumber
  simp only [Span.cover, Span.mk.injEq]
  omega

/-! ## Lists -/

theorem shaped_items (b : Bool) (ds : List Draft) (hds : ∀ d ∈ ds, ShapedPiece e d) :
    Shaped e (.list .array b) (items b ds) := by
  induction b, ds using items_induction with
  | nil =>
    rw [items_nil]
    exact .nil
  | stray comma ds hc ih =>
    rw [items_stray hc]
    exact .stray hc (ih fun d hd => hds d (List.mem_cons_of_mem _ hd))
  | comma comma ds hc ih =>
    rw [items_comma hc]
    exact .comma hc (ih fun d hd => hds d (List.mem_cons_of_mem _ hd))
  | item b d ds hc ih =>
    rw [items_cons hc]
    exact .item (shaped_valueAt (hds d List.mem_cons_self))
      (ih fun d' hd' => hds d' (List.mem_cons_of_mem _ (mem_valueAt hd')))

/-! ## Skipping -/

theorem shaped_skipValue {d : Draft} {ds : List Draft} (hds : ∀ d ∈ ds, ShapedPiece e d) :
    ∀ v ∈ (skipValue d ds).1, Shaped e .value [v] := by
  intro v hv
  cases skipRule d ds with
  | taken hc hvalue =>
    rw [skipValue_taken _ hc hvalue] at hv
    obtain rfl := List.mem_singleton.mp hv
    exact shaped_asValue (hds _ List.mem_cons_self)
  | alone h =>
    rw [skipValue_alone h] at hv
    exact absurd hv List.not_mem_nil

theorem mem_skipValue {d d' : Draft} {ds : List Draft} (h : d' ∈ (skipValue d ds).2) :
    d' ∈ ds := by
  cases skipRule d ds with
  | taken hc hvalue =>
    rw [skipValue_taken _ hc hvalue] at h
    exact List.mem_cons_of_mem _ h
  | alone halone => rwa [skipValue_alone halone] at h

/-- What is skipped in one go: a piece that skipping does not end at, and a value behind it. -/
theorem shaped_skipped_append {d : Draft} {vs ds : List Draft} (hd : ShapedPiece e d)
    (hr : d.resumesMembers = false) (hvs : ∀ v ∈ vs, Shaped e .value [v])
    (hds : Shaped e .skipped ds) : Shaped e .skipped (d :: (vs ++ ds)) := by
  have hrest : Shaped e .skipped (vs ++ ds) := by
    induction vs with
    | nil => exact hds
    | cons v vs ih =>
      exact .skippedValue (hvs v List.mem_cons_self)
        (ih fun w hw => hvs w (List.mem_cons_of_mem _ hw))
  cases d with
  | leaf l =>
    exact .skippedToken hr (not_isOpener_of_opens? hd) hrest
  | node => exact .skippedValue hd hrest

theorem shaped_skip (ds : List Draft) (hds : ∀ d ∈ ds, ShapedPiece e d) :
    Shaped e .skipped (skip ds).1 := by
  induction ds using skip_induction with
  | nil =>
    rw [skip_nil]
    exact .skippedNil
  | resumes d ds hr =>
    rw [skip_of_resumesMembers hr]
    exact .skippedNil
  | skipped d ds hr ih =>
    rw [skip_cons hr]
    have hrest : ∀ d' ∈ ds, ShapedPiece e d' := fun d' hd' => hds d' (List.mem_cons_of_mem _ hd')
    exact shaped_skipped_append (hds d List.mem_cons_self) hr
      (shaped_skipValue hrest) (ih fun d' hd' => hrest d' (mem_skipValue hd'))

theorem mem_skip {d : Draft} {ds : List Draft} (h : d ∈ (skip ds).2) : d ∈ ds := by
  induction ds using skip_induction with
  | nil => rwa [skip_nil] at h
  | resumes d' ds hr => rwa [skip_of_resumesMembers hr] at h
  | skipped d' ds hr ih =>
    rw [skip_cons hr] at h
    exact List.mem_cons_of_mem _ (mem_skipValue (ih h))

theorem resumesMembers_of_mem_head?_skip {d : Draft} {ds : List Draft}
    (h : d ∈ (skip ds).2.head?) : d.resumesMembers = true := by
  induction ds using skip_induction with
  | nil =>
    rw [skip_nil] at h
    exact absurd h (by simp)
  | resumes d' ds hr =>
    rw [skip_of_resumesMembers hr] at h
    obtain rfl : d' = d := by simpa using h
    exact hr
  | skipped d' ds hr ih =>
    rw [skip_cons hr] at h
    exact ih h

/-! ## Members -/

theorem shaped_memberValue {stop : Token} {colon : Lexeme} {ds : List Draft}
    (hds : ∀ d ∈ ds, ShapedPiece e d) :
    Shaped e (.behindColon colon (memberValue stop (leaf colon) ds).note)
      (memberValue stop (leaf colon) ds).value := by
  cases memberValueRule ds with
  | missing h =>
    rw [memberValue_missing h]
    exact .missing
  | present h =>
    rw [memberValue_present h]
    exact .present (shaped_valueAt (hds _ List.mem_cons_self))

theorem mem_memberValue {stop : Token} {colon d : Draft} {ds : List Draft}
    (h : d ∈ (memberValue stop colon ds).rest) : d ∈ ds := by
  cases memberValueRule ds with
  | missing hmissing => rwa [memberValue_missing hmissing] at h
  | present hpresent =>
    rw [memberValue_present hpresent] at h
    exact List.mem_cons_of_mem _ (mem_valueAt h)

theorem startsWithColon_skip {ds : List Draft} (h : startsWithColon ds = false) :
    startsWithColon (skip ds).1 = false := by
  cases ds with
  | nil => rw [skip]; rfl
  | cons d ds =>
    rw [skip]
    split
    · rfl
    · exact h

theorem shaped_skipMember {b : Bool} {d : Draft} {ds more : List Draft} (hd : ShapedPiece e d)
    (hr : d.resumesMembers = false) (hq : d.isQuotableToken = true → startsWithColon ds = false)
    (hds : ∀ d ∈ ds, ShapedPiece e d) (hmore : Shaped e (.list .object false) more) :
    Shaped e (.list .object b) ((skipMember d ds).1 ++ more) := by
  have hrest : Shaped e .skipped (skip (skipValue d ds).2).1 :=
    shaped_skip _ fun d' hd' => hds d' (mem_skipValue hd')
  refine .junk (shaped_skipped_append hd hr (shaped_skipValue hds) hrest) ?_ hmore
  intro hquote
  rw [skipValue_of_isQuotableToken hquote]
  exact startsWithColon_skip (hq hquote)

theorem not_resumesMembers {d : Draft} (hk : d.isKeyToken = false)
    (hc : d.isToken .comma = false) : d.resumesMembers = false := by
  cases d with
  | node => rfl
  | leaf key => exact Bool.or_eq_false_iff.mpr ⟨hk, hc⟩

theorem shaped_memberAt {stop : Token} {b : Bool} {d : Draft} {ds more : List Draft}
    (hc : d.isToken .comma = false) (hd : ShapedPiece e d) (hds : ∀ d ∈ ds, ShapedPiece e d)
    (hne : (∀ x ∈ (memberAt stop d ds).2.head?, x.resumesMembers = true) →
      ∀ x ∈ more.head?, x.isError = false)
    (hmore : Shaped e (.list .object false) more) :
    Shaped e (.list .object b) ((memberAt stop d ds).1 ++ more) := by
  cases memberRule d ds with
  | keyValue hk hcolon =>
    rw [memberAt_keyValue hk hcolon]
    exact .keyValue hk hcolon
      (shaped_memberValue fun d' hd' => hds d' (List.mem_cons_of_mem _ hd')) hmore
  | literalKey hq hcolon =>
    rw [memberAt_literalKey hq hcolon]
    exact .literalKey hq hcolon
      (shaped_memberValue fun d' hd' => hds d' (List.mem_cons_of_mem _ hd')) hmore
  | incomplete hk hcolon =>
    -- a node of skipped tokens comes behind the key if there are any
    have hs := shaped_skip _ hds
    rw [memberAt_incomplete hk hcolon] at hne ⊢
    have hne := hne fun x hx => resumesMembers_of_mem_head?_skip hx
    cases hskip : (skip ds).1 with
    | nil => exact .incomplete hk hne hmore
    | cons first skipped =>
      rw [hskip] at hs
      exact .incompleteSkipped hk hs hmore
  | skipped hk hq =>
    rw [memberAt_skip hk hq]
    exact shaped_skipMember hd (not_resumesMembers hk hc) hq hds hmore

theorem memberAt_key (stop : Token) {key : Lexeme} (ds : List Draft)
    (hk : isKey key.kind = true) :
    ∃ m ms, (memberAt stop (leaf key) ds).1 = m :: ms ∧ m.isError = false := by
  cases hcolon : startsWithColon ds with
  | true =>
    obtain ⟨colon, ds, rfl, hc⟩ := exists_eq_leaf_cons_of_startsWithColon hcolon
    rw [memberAt_keyValue hk hc]
    exact ⟨_, _, rfl, rfl⟩
  | false =>
    rw [memberAt_incomplete hk hcolon]
    exact ⟨_, _, rfl, rfl⟩

/-- A list does not go on with skipped tokens where a member can begin. -/
theorem not_isError_of_mem_head?_members {stop : Token} {ds : List Draft}
    (h : ∀ d ∈ ds.head?, d.resumesMembers = true) :
    ∀ d ∈ (members stop false ds).head?, d.isError = false := by
  cases ds with
  | nil => simp
  | cons d ds =>
    have hr : d.resumesMembers = true := h d rfl
    cases d with
    | node => simp [resumesMembers] at hr
    | leaf key =>
      cases hc : (leaf key).isToken .comma with
      | true =>
        rw [members_comma (by simpa [isToken] using hc)]
        intro x hx
        obtain rfl : leaf key = x := by simpa using hx
        rfl
      | false =>
        have hkey : isKey key.kind = true := by
          have hc : (key.kind == .comma) = false := hc
          simpa [resumesMembers, hc] using hr
        obtain ⟨m, ms, hm, hne⟩ := memberAt_key stop ds hkey
        rw [members_cons hc, hm]
        intro x hx
        obtain rfl : m = x := by simpa using hx
        exact hne

theorem mem_memberAt {stop : Token} {d d' : Draft} {ds : List Draft}
    (h : d' ∈ (memberAt stop d ds).2) : d' ∈ ds := by
  cases memberRule d ds with
  | keyValue hk hc =>
    rw [memberAt_keyValue hk hc] at h
    exact List.mem_cons_of_mem _ (mem_memberValue h)
  | literalKey hq hc =>
    rw [memberAt_literalKey hq hc] at h
    exact List.mem_cons_of_mem _ (mem_memberValue h)
  | incomplete hk hc =>
    rw [memberAt_incomplete hk hc] at h
    exact mem_skip h
  | skipped hk hq =>
    rw [memberAt_skip hk hq] at h
    exact mem_skipValue (mem_skip h)

theorem shaped_members (stop : Token) (b : Bool) (ds : List Draft)
    (hds : ∀ d ∈ ds, ShapedPiece e d) : Shaped e (.list .object b) (members stop b ds) := by
  induction b, ds using @members_induction stop with
  | nil =>
    rw [members_nil]
    exact .nil
  | stray comma ds hc ih =>
    rw [members_stray hc]
    exact .stray hc (ih fun d hd => hds d (List.mem_cons_of_mem _ hd))
  | comma comma ds hc ih =>
    rw [members_comma hc]
    exact .comma hc (ih fun d hd => hds d (List.mem_cons_of_mem _ hd))
  | member b d ds hc ih =>
    rw [members_cons hc]
    have hrest : ∀ d' ∈ ds, ShapedPiece e d' := fun d' hd' => hds d' (List.mem_cons_of_mem _ hd')
    exact shaped_memberAt hc (hds d List.mem_cons_self) hrest
      not_isError_of_mem_head?_members (ih fun d' hd' => hrest d' (mem_memberAt hd'))

/-! ## Pieces -/

theorem shaped_contents (c : Container) (stop : Token) (ds : List Draft)
    (hds : ∀ d ∈ ds, ShapedPiece e d) : Shaped e (.list c true) (contents c stop ds) := by
  cases c
  · exact shaped_members stop true ds hds
  · exact shaped_items true ds hds

end

theorem shaped_close {e : List Container} {eof : Token} {c : Container} {opener : Lexeme}
    {ds : List Draft} {rest : List Lexeme} (ho : opener.kind = c.opener)
    (he : e.length < Container.maxDepth) (hds : ∀ d ∈ ds, ShapedPiece (c :: e) d) :
    ShapedPiece e (close eof c opener ds rest).1 := by
  unfold close
  split
  · split
    · rename_i l _ hl
      have hc : ∀ l' ∈ some l, l'.kind = c.closer := by
        intro l' h
        obtain rfl : l = l' := by simpa using h
        simpa using hl
      exact .container l.token ho he hc (shaped_contents c _ ds hds)
    · exact .container _ ho he (by simp) (shaped_contents c _ ds hds)
  · exact .container _ ho he (by simp) (shaped_contents c _ ds hds)

/-- Pairing brackets makes pieces of the given forms. -/
theorem shaped_pieceAt_pieces (eof : Token) :
    (∀ e l ls, ShapedPiece e (pieceAt eof e l ls).1) ∧
      ∀ e ls, ∀ d ∈ (pieces eof e ls).1, ShapedPiece e d := by
  apply pieceAt_pieces_induction eof
  case token =>
    intro e l ls ho
    rw [pieceAt_of_opens?_eq_none ho]
    exact ho
  case nested =>
    intro e l ls c ho he ih
    rw [pieceAt_of_opens?_eq_some ho, if_pos he]
    exact shaped_close (Container.opens?_eq_some.mp ho) he ih
  case deep =>
    intro e l ls c ho he
    rw [pieceAt_of_opens?_eq_some ho, if_neg (by omega)]
    exact .tooDeep (isOpener_of_opens? ho) he
  case nil =>
    intro e
    simp
  case cons =>
    intro e l ls hpiece hmore
    rw [pieces_cons]
    split
    · simp
    · intro d hd
      rcases List.mem_cons.mp hd with rfl | hd
      · exact hpiece
      · exact hmore d hd

theorem shaped_pieceAt (eof : Token) (e : List Container) (l : Lexeme) (ls : List Lexeme) :
    ShapedPiece e (pieceAt eof e l ls).1 :=
  (shaped_pieceAt_pieces eof).1 e l ls

end Maml.Draft

namespace Maml

open Draft

/-- A document is at most one value and at most one node of everything behind it. -/
theorem documentDrafts_cases (eof : Token) (ls : List Lexeme) :
    (∃ d rest, documentDrafts eof ls = d :: trailing rest ∧ Shaped [] .value [d]) ∨
      documentDrafts eof ls = trailing ls := by
  unfold documentDrafts
  split
  · exact .inr rfl
  · rename_i l ls
    split
    · exact .inl ⟨_, _, rfl, shaped_asValue (shaped_pieceAt eof [] l ls)⟩
    · exact .inr rfl

end Maml
