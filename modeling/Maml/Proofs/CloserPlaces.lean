import Maml.Proofs.Amending

/-! Closers put in where they are missing.

1. If no container at the end of a row lacks a closer, the row can be read in front of that
   closer: nothing of it changes but which token is told to come next. Every rule keeps this
   (`retellable_member` and so on), so it holds of all rows (`exists_read_closer`).
2. Where a container of a row lacks its closer, the closer can be put in. The innermost container
   there that lacks the same closer takes it (`Marked.innermost`), and what is read around it stays
   as it is, with one mistake fewer (`amends_inserted`).
3. So it is with documents (`exists_documentDrafts_inserted`). -/
namespace Maml.Draft

/-! ## What a row tells -/

/-- What was expected at the mistakes in a row. -/
def expectations (ds : List Draft) : List Expected := (errorsList ds).map ParseError.expected

section
variable {ds es : List Draft}

@[simp] theorem expectations_nil : expectations [] = [] := rfl

@[simp] theorem expectations_leaf (l : Lexeme) : expectations [leaf l] = [] := rfl

theorem expectations_cons (d : Draft) (ds : List Draft) :
    expectations (d :: ds) = expectations [d] ++ expectations ds := by
  simp [expectations]

theorem expectations_node (kind : NodeKind) (before after : Option ParseError) (first : Draft)
    (rest : List Draft) : expectations [node kind before first rest after] =
      before.toList.map ParseError.expected ++ expectations (first :: rest) ++
        after.toList.map ParseError.expected := by
  simp [expectations]

theorem expectations_plain (kind : NodeKind) (first : Draft) (rest : List Draft) :
    expectations [plain kind first rest] = expectations (first :: rest) := by
  simp [expectations]

theorem expectations_container_closed (c : Container) (opener closer : Lexeme) (next : Token) :
    expectations [container c opener ds (some closer) next] = expectations ds := by
  simp [expectations, container]

theorem expectations_container_unclosed (c : Container) (opener : Lexeme) (next : Token) :
    expectations [container c opener ds none next] = expectations ds ++ [c.expectedCloser] := by
  simp [expectations, container, missing, ParseError.ofToken]

/-- A member tells what it does of its key, then what its value does, and then whether that is
missing. -/
theorem errors_member (key : Lexeme) : ∃ front, ∀ colon value note,
    (member key colon value note).errors = front ++ errorsList value ++ note.toList := by
  by_cases hk : isKey key.kind = true
  · refine ⟨(keyNote key).toList, fun colon value note => ?_⟩
    rw [member_of_isKey hk, keyValue]
    simp
  · refine ⟨(unexpected .key key.token key.token.span).toList, fun colon value note => ?_⟩
    rw [member, if_neg hk, literalKey]
    simp

theorem expectations_member (key : Lexeme) : ∃ front, ∀ colon value note,
    expectations [member key colon value note] =
      front ++ expectations value ++ note.toList.map ParseError.expected := by
  obtain ⟨front, hfront⟩ := errors_member key
  exact ⟨front.map ParseError.expected, fun colon value note => by simp [expectations, hfront]⟩

end

/-! ## Rows that are told again -/

/-- Whether a row is another one with at most other tokens told to come next. -/
structure Retold (ds ds' : List Draft) : Prop where
  faces : ds'.map face = ds.map face
  lexemes_eq : lexemesList ds' = lexemesList ds
  expectations_eq : expectations ds' = expectations ds

namespace Retold

variable {ds ds' : List Draft} {d d' : Draft}

theorem refl (ds : List Draft) : Retold ds ds := ⟨rfl, rfl, rfl⟩

theorem cons (hd : Retold [d] [d']) (hds : Retold ds ds') : Retold (d :: ds) (d' :: ds') where
  faces := congrArg₂ List.cons (List.cons.inj hd.faces).1 hds.faces
  lexemes_eq := by
    have hlexemes := hd.lexemes_eq
    rw [lexemesList_singleton, lexemesList_singleton] at hlexemes
    rw [lexemesList_cons, lexemesList_cons, hlexemes, hds.lexemes_eq]
  expectations_eq := by
    rw [expectations_cons, hd.expectations_eq, hds.expectations_eq, ← expectations_cons]

theorem exists_cons {row : List Draft} (h : Retold (d :: ds) row) :
    ∃ d' ds', row = d' :: ds' ∧ d'.face = d.face ∧ ds'.map face = ds.map face := by
  obtain ⟨d', ds', hrow, hface, hrest⟩ := List.map_eq_cons_iff.mp h.faces
  exact ⟨d', ds', hrow, hface, hrest⟩

theorem exists_single {row : List Draft} (h : Retold [d] row) :
    ∃ d', row = [d'] ∧ d'.face = d.face := by
  obtain ⟨d', ds', rfl, hface, hrest⟩ := h.exists_cons
  exact ⟨d', by rw [List.map_eq_nil_iff.mp hrest], hface⟩

theorem head_face (h : Retold ds ds') : ds'.head?.map face = ds.head?.map face :=
  head?_map_face h.faces

theorem node {kind : NodeKind} {before after after' : Option ParseError} {first first' : Draft}
    {rest rest' : List Draft} (h : Retold (first :: rest) (first' :: rest'))
    (hafter : after'.map ParseError.expected = after.map ParseError.expected) :
    Retold [.node kind before first rest after] [.node kind before first' rest' after'] where
  faces := by
    have hface := firstLexeme_eq_of_face (List.cons.inj h.faces).1
    simp [face, hface]
  lexemes_eq := by
    rw [lexemesList_singleton, lexemesList_singleton]
    exact h.lexemes_eq
  expectations_eq := by
    have hafter : after'.toList.map ParseError.expected = after.toList.map ParseError.expected := by
      rw [← Option.toList_map, ← Option.toList_map, hafter]
    rw [expectations_node, expectations_node, h.expectations_eq, hafter]

theorem unclosed {c : Container} {opener : Lexeme} {next next' : Token} (h : Retold ds ds') :
    Retold [container c opener ds none next] [container c opener ds' none next'] where
  faces := rfl
  lexemes_eq := by
    rw [lexemesList_singleton, lexemesList_singleton, lexemes_container, lexemes_container,
      h.lexemes_eq]
  expectations_eq := by
    rw [expectations_container_unclosed, expectations_container_unclosed, h.expectations_eq]

theorem member {key colon : Lexeme} {note note' : Option ParseError} (h : Retold ds ds')
    (hnote : note'.map ParseError.expected = note.map ParseError.expected) :
    Retold [member key colon ds note] [member key colon ds' note'] where
  faces := by
    unfold Draft.member
    split <;> rfl
  lexemes_eq := by
    rw [lexemesList_singleton, lexemesList_singleton, lexemes_member, lexemes_member, h.lexemes_eq]
  expectations_eq := by
    obtain ⟨front, hfront⟩ := expectations_member key
    rw [hfront, hfront, h.expectations_eq, ← Option.toList_map, ← Option.toList_map, hnote]

end Retold

/-! ## Ends of rows -/

def Mark.unclosed (c : Container) : Mark where
  holds d place := place = d.lexemes ∧
    ∃ before first rest note, d = node c.nodeKind before first rest (some note)
  isInner_of_holds := by
    rintro d place ⟨-, before, first, rest, note, rfl⟩
    cases c <;> rfl

/-- Whether a container at the end of a row lacks its closer. -/
def EndsOpen (c : Container) (ds : List Draft) : Prop := Marked (.unclosed c) (lexemesList ds) ds

section
variable {c : Container} {ds : List Draft}

theorem EndsOpen.cons (d : Draft) (h : EndsOpen c ds) : EndsOpen c (d :: ds) := .behind h

theorem EndsOpen.node {kind : NodeKind} {before after : Option ParseError} {first : Draft}
    {rest : List Draft} (h : EndsOpen c (first :: rest)) :
    EndsOpen c [node kind before first rest after] := by
  rw [EndsOpen, lexemesList_singleton]
  exact .inside h

theorem EndsOpen.member {key colon : Lexeme} {note : Option ParseError} (h : EndsOpen c ds) :
    EndsOpen c [member key colon ds note] := by
  rw [EndsOpen, lexemesList_singleton, lexemes_member]
  exact marked_member.mpr ⟨_, rfl, h⟩

theorem EndsOpen.unclosed {c' : Container} {opener : Lexeme} {next : Token} (h : EndsOpen c ds) :
    EndsOpen c [container c' opener ds none next] := by
  rw [EndsOpen, lexemesList_singleton, lexemes_container, container_unclosed]
  exact marked_containerNode.mpr (.inr ⟨_, List.append_nil _, h⟩)

theorem endsOpen_unclosed {opener : Lexeme} {next : Token} :
    EndsOpen c [container c opener ds none next] := by
  have hlexemes : lexemesList [container c opener ds none next] =
      (containerNode c opener ds none (missing c.expectedCloser
        (lastTokenFrom opener.token (wrap c.listKind ds)) next)).lexemes := by
    rw [lexemesList_singleton, lexemes_container, lexemes_containerNode, List.cons_append]
  rw [EndsOpen, hlexemes, container_unclosed]
  exact marked_containerNode.mpr (.inl ⟨rfl, _, _, _, _, rfl⟩)

end

/-! ## Rows in front of a closer -/

section
variable {eof : Token} {e : List Container} {slot : Slot} {behind more : List Lexeme}
  {ds ds' ps : List Draft} {c : Container} {x : Lexeme}

theorem Retold.forall_head? {P : Lexeme → Prop} (h : Retold ds ds') (hx : P x)
    (hds : ∀ l ∈ (lexemesList ds ++ behind).head?, P l) :
    ∀ l ∈ (lexemesList ds' ++ x :: more).head?, P l := by
  rw [h.lexemes_eq]
  cases ds with
  | nil =>
    intro l hl
    obtain rfl := Option.some.inj hl
    exact hx
  | cons d ds =>
    rw [head?_lexemesList_cons] at hds ⊢
    exact hds

theorem ne_of_closer {kind : TokenKind} (hx : x.kind = c.closer) (hkind : kind.isCloser = false) :
    x.kind ≠ kind := by
  rintro rfl
  rw [hx] at hkind
  cases c <;> exact absurd hkind (by decide)

theorem canResume_of_closesAny (h : closesAny e x.kind = true) : canResume e x.kind = true := by
  rw [canResume, h, Bool.true_or, Bool.true_or]

/-- Whether a closer behind a row is not taken by the row itself: no container at its end lacks it,
and nothing in it is skipped for its depth. -/
structure LeavesCloser (c : Container) (ds : List Draft) : Prop where
  shallow : .nestingLimit ∉ expectations ds
  not_endsOpen : ¬ EndsOpen c ds

namespace LeavesCloser

variable {d first : Draft} {rest : List Draft}

theorem tail (h : LeavesCloser c (d :: ds)) : LeavesCloser c ds where
  shallow hmem := h.shallow (by rw [expectations_cons]; exact List.mem_append_right _ hmem)
  not_endsOpen hends := h.not_endsOpen (hends.cons d)

theorem node {kind : NodeKind} {before after : Option ParseError}
    (h : LeavesCloser c [.node kind before first rest after]) : LeavesCloser c (first :: rest) where
  shallow hmem := h.shallow <| by
    rw [expectations_node]
    exact List.mem_append_left _ (List.mem_append_right _ hmem)
  not_endsOpen hends := h.not_endsOpen hends.node

theorem member {key colon : Lexeme} {note : Option ParseError}
    (h : LeavesCloser c [.member key colon ds note]) : LeavesCloser c ds where
  shallow hmem := by
    obtain ⟨front, hfront⟩ := expectations_member key
    refine h.shallow ?_
    rw [hfront]
    exact List.mem_append_left _ (List.mem_append_right _ hmem)
  not_endsOpen hends := h.not_endsOpen hends.member

theorem unclosed {c' : Container} {opener : Lexeme} {next : Token}
    (h : LeavesCloser c [container c' opener ds none next]) : LeavesCloser c ds where
  shallow hmem := h.shallow <| by
    rw [expectations_container_unclosed]
    exact List.mem_append_left _ hmem
  not_endsOpen hends := h.not_endsOpen hends.unclosed

end LeavesCloser

/-- Whether a row that is read can be read in front of a closer `x`, told again, if it leaves that to
a container around it. -/
def Retellable (eof : Token) (c : Container) (x : Lexeme) (more : List Lexeme) (e : List Container)
    (slot : Slot) (ds : List Draft) : Prop :=
  LeavesCloser c ds → closesAny e x.kind = true →
    ∃ ds', Read eof e slot (x :: more) ds' ∧ Retold ds ds'

/-- What stands in front of a row can be read in front of it when the row is told again, if it can
be read in front of the closer. -/
theorem Retellable.front {ps : List Draft} (ih : Retellable eof c x more e slot ps)
    (h : Retold ds ds') (hps : Read eof e slot (lexemesList ds ++ behind) ps)
    (hleaves : ds = [] → LeavesCloser c ps) (hcloses : closesAny e x.kind = true) :
    ∃ ps', Read eof e slot (lexemesList ds' ++ x :: more) ps' ∧ Retold ps ps' := by
  cases ds with
  | nil =>
    obtain rfl := List.map_eq_nil_iff.mp h.faces
    exact ih (hleaves rfl) hcloses
  | cons d ds =>
    refine ⟨ps, hps.of_head? ?_, .refl ps⟩
    rw [h.lexemes_eq, head?_lexemesList_cons, head?_lexemesList_cons]

variable {b : Bool} {d first : Draft} {rest : List Draft}

theorem retellable_invalid {l : Lexeme} (hx : x.kind = c.closer) (hl : l.kind.startsValue = false)
    (hc : closesAny e l.kind = false) : Retellable eof c x more e .value [invalid l] := by
  refine fun _ _ => ⟨_, .invalid hl hc ?_, .refl _⟩
  intro y hy
  obtain rfl := Option.some.inj hy
  exact isSignedNumber_of_ne (ne_of_closer hx rfl)

theorem retellable_tooDeep {opener : Lexeme} {run : List Lexeme} :
    Retellable eof c x more e .value [tooDeep opener run] := by
  intro hleaves
  refine absurd ?_ hleaves.shallow
  simp [expectations, tooDeep, unexpected, ParseError.ofToken]

/-- A container without its closer leaves the closer of another sort to what is around it. -/
theorem retellable_unclosed {c' : Container} {opener : Lexeme} {next : Token}
    (hx : x.kind = c.closer) (ho : opener.kind = c'.opener) (he : e.length < Container.maxDepth)
    (ih : Retellable eof c x more (c' :: e) (.list c' true) ds) :
    Retellable eof c x more e .value [container c' opener ds none next] := by
  intro hleaves hcloses
  obtain ⟨ds', hread, hretold⟩ := ih hleaves.unclosed
    (by rw [closesAny_cons, hcloses, Bool.or_true])
  refine ⟨_, .unclosed ho he ?_ hread, hretold.unclosed⟩
  intro y hy
  obtain rfl := Option.some.inj hy
  refine ⟨hcloses, fun hsame => hleaves.not_endsOpen ?_⟩
  obtain rfl : c' = c := by
    rw [hx] at hsame
    revert hsame
    cases c <;> cases c' <;> decide
  exact endsOpen_unclosed

theorem retellable_nil {c' : Container} : Retellable eof c x more e (.list c' b) [] := by
  refine fun _ hcloses => ⟨[], .nil ?_, .refl _⟩
  intro y hy
  obtain rfl := Option.some.inj hy
  exact hcloses

theorem retellable_item (hfirst : d.firstLexeme.kind ≠ .comma)
    (hd : Read eof e .value (lexemesList ds ++ behind) [d])
    (ihd : Retellable eof c x more e .value [d])
    (ih : Retellable eof c x more e (.list .array false) ds) :
    Retellable eof c x more e (.list .array b) (d :: ds) := by
  intro hleaves hcloses
  obtain ⟨ds', hread, hretold⟩ := ih hleaves.tail hcloses
  obtain ⟨row, hrow, hsame⟩ := ihd.front hretold hd (fun h => h ▸ hleaves) hcloses
  obtain ⟨d', rfl, hface⟩ := hsame.exists_single
  exact ⟨_, .item (by rwa [firstLexeme_eq_of_face hface]) hrow hread, .cons hsame hretold⟩

theorem retellable_member {key colon : Lexeme} {v : Draft} (hx : x.kind = c.closer)
    (hk : (isKey key.kind || isQuotable key.kind) = true) (hc : colon.kind = .colon)
    (hfirst : v.firstLexeme.kind ≠ .comma)
    (hnext : v.firstLexeme.kind.isKeyStart = true →
      ∀ h ∈ (lexemesList ds ++ behind).head?, h.kind ≠ .colon)
    (hv : Read eof e .value (lexemesList ds ++ behind) [v])
    (ihv : Retellable eof c x more e .value [v])
    (ih : Retellable eof c x more e (.list .object false) ds) :
    Retellable eof c x more e (.list .object b) (member key colon [v] none :: ds) := by
  intro hleaves hcloses
  obtain ⟨ds', hread, hretold⟩ := ih hleaves.tail hcloses
  obtain ⟨row, hrow, hsame⟩ := ihv.front hretold hv
    (fun h => LeavesCloser.member (h ▸ hleaves)) hcloses
  obtain ⟨v', rfl, hface⟩ := hsame.exists_single
  have hlexeme := firstLexeme_eq_of_face hface
  refine ⟨_, .member hk hc (by rwa [hlexeme]) ?_ hrow hread, .cons (hsame.member rfl) hretold⟩
  rw [hlexeme]
  exact fun hkey => hretold.forall_head? (ne_of_closer hx rfl) (hnext hkey)

theorem retellable_memberAlone {key colon : Lexeme} {next : Token}
    (hk : (isKey key.kind || isQuotable key.kind) = true) (hc : colon.kind = .colon)
    (hnext : beginsMember ds = true) (ih : Retellable eof c x more e (.list .object false) ds) :
    Retellable eof c x more e (.list .object b)
      (member key colon [] (missing .value colon.token next) :: ds) := by
  intro hleaves hcloses
  obtain ⟨ds', hread, hretold⟩ := ih hleaves.tail hcloses
  exact ⟨_, .memberAlone hk hc (by rwa [beginsMember_eq_of_face hretold.head_face]) hread,
    .cons (.member (.refl []) rfl) hretold⟩

theorem retellable_incomplete {key : Lexeme} {next : Token} (hk : isKey key.kind = true)
    (hnext : ∀ h ∈ (lexemesList ds ++ behind).head?, canResume e h.kind = true)
    (ih : Retellable eof c x more e (.list .object false) ds) :
    Retellable eof c x more e (.list .object b) (incomplete key next :: ds) := by
  intro hleaves hcloses
  obtain ⟨ds', hread, hretold⟩ := ih hleaves.tail hcloses
  refine ⟨_, .incomplete hk (hretold.forall_head? (canResume_of_closesAny hcloses) hnext) hread,
    .cons (Retold.node (.refl _) ?_) hretold⟩
  unfold colonNote
  split <;> rfl

theorem retellable_incompleteSkipped {key : Lexeme} (hk : isKey key.kind = true)
    (hcolon : startsWithColon (first :: rest) = false)
    (hs : Read eof e .skipped (lexemesList ds ++ behind) (first :: rest))
    (hnext : ∀ h ∈ (lexemesList ds ++ behind).head?, canResume e h.kind = true)
    (ihs : Retellable eof c x more e .skipped (first :: rest))
    (ih : Retellable eof c x more e (.list .object false) ds) :
    Retellable eof c x more e (.list .object b)
      (incomplete key first.firstToken :: plain .error first rest :: ds) := by
  intro hleaves hcloses
  obtain ⟨ds', hread, hretold⟩ := ih hleaves.tail.tail hcloses
  obtain ⟨row, hrow, hsame⟩ := ihs.front hretold hs
    (fun h => LeavesCloser.node (h ▸ hleaves.tail)) hcloses
  obtain ⟨first', rest', rfl, hface, -⟩ := hsame.exists_cons
  have htoken : first'.firstToken = first.firstToken :=
    congrArg Lexeme.token (firstLexeme_eq_of_face hface)
  refine ⟨_, .incompleteSkipped hk (by rwa [startsWithColon_eq_of_face hsame.head_face]) hrow
    (hretold.forall_head? (canResume_of_closesAny hcloses) hnext) hread, ?_⟩
  rw [htoken]
  exact .cons (.refl _) (.cons (.node hsame rfl) hretold)

theorem retellable_junk (hs : Read eof e .skipped (lexemesList ds ++ behind) (first :: rest))
    (hq : first.isQuotableToken = true → startsWithColon rest = false)
    (hnext : ∀ h ∈ (lexemesList ds ++ behind).head?, canResume e h.kind = true)
    (ihs : Retellable eof c x more e .skipped (first :: rest))
    (ih : Retellable eof c x more e (.list .object false) ds) :
    Retellable eof c x more e (.list .object b) (junk first rest :: ds) := by
  intro hleaves hcloses
  obtain ⟨ds', hread, hretold⟩ := ih hleaves.tail hcloses
  obtain ⟨row, hrow, hsame⟩ := ihs.front hretold hs
    (fun h => LeavesCloser.node (h ▸ hleaves)) hcloses
  obtain ⟨first', rest', rfl, hface, hrest⟩ := hsame.exists_cons
  have htoken : first'.firstToken = first.firstToken :=
    congrArg Lexeme.token (firstLexeme_eq_of_face hface)
  refine ⟨_, .junk hrow ?_ (hretold.forall_head? (canResume_of_closesAny hcloses) hnext) hread,
    .cons ?_ hretold⟩
  · rw [isQuotableToken_eq_of_face hface, startsWithColon_eq_of_face (head?_map_face hrest)]
    exact hq
  · rw [junk, junk, htoken]
    exact .node hsame rfl

theorem retellable_skippedToken {l : Lexeme} (hx : x.kind = c.closer)
    (hl : resumesMembers (leaf l) = false) (ho : l.kind.isOpener = false)
    (hc : closesAny e l.kind = false)
    (hnext : l.kind = .colon → ∀ h ∈ (lexemesList ds ++ behind).head?, h.kind.isScalar = false)
    (ih : Retellable eof c x more e .skipped ds) :
    Retellable eof c x more e .skipped (leaf l :: ds) := by
  intro hleaves hcloses
  obtain ⟨ds', hread, hretold⟩ := ih hleaves.tail hcloses
  have hscalar : x.kind.isScalar = false := by
    rw [hx]
    cases c <;> rfl
  exact ⟨_, .skippedToken hl ho hc (fun h => hretold.forall_head? hscalar (hnext h)) hread,
    .cons (.refl _) hretold⟩

theorem retellable_skippedValue (ho : d.firstLexeme.kind.isOpener = true)
    (hd : Read eof e .value (lexemesList ds ++ behind) [d])
    (ihd : Retellable eof c x more e .value [d]) (ih : Retellable eof c x more e .skipped ds) :
    Retellable eof c x more e .skipped (d :: ds) := by
  intro hleaves hcloses
  obtain ⟨ds', hread, hretold⟩ := ih hleaves.tail hcloses
  obtain ⟨row, hrow, hsame⟩ := ihd.front hretold hd (fun h => h ▸ hleaves) hcloses
  obtain ⟨d', rfl, hface⟩ := hsame.exists_single
  exact ⟨_, .skippedValue (by rwa [firstLexeme_eq_of_face hface]) hrow hread, .cons hsame hretold⟩

/-- A row that leaves a closer to what is around it can be read in front of the closer. -/
theorem exists_read_closer (h : Read eof e slot behind ds) (hx : x.kind = c.closer)
    (more : List Lexeme) : Retellable eof c x more e slot ds := by
  induction h with
  | scalar hl => exact fun _ _ => ⟨_, .scalar hl, .refl _⟩
  | invalid hl hc _ => exact retellable_invalid hx hl hc
  | signed h => exact fun _ _ => ⟨_, .signed h, .refl _⟩
  | tooDeep => exact retellable_tooDeep
  | closed ho hc he hds _ => exact fun _ _ => ⟨_, .closed ho hc he (hds.of_head? rfl), .refl _⟩
  | unclosed ho he _ _ ih => exact retellable_unclosed hx ho he ih
  | nil => exact retellable_nil
  | comma hl _ ih =>
    intro hleaves hcloses
    obtain ⟨ds', hread, hretold⟩ := ih hleaves.tail hcloses
    exact ⟨_, .comma hl hread, .cons (.refl _) hretold⟩
  | stray hl _ ih =>
    intro hleaves hcloses
    obtain ⟨ds', hread, hretold⟩ := ih hleaves.tail hcloses
    exact ⟨_, .stray hl hread, .cons (.refl _) hretold⟩
  | item hfirst hd _ ihd ih => exact retellable_item hfirst hd ihd ih
  | member hk hc hfirst hnext hv _ ihv ih =>
    exact retellable_member hx hk hc hfirst hnext hv ihv ih
  | memberAlone hk hc hnext _ ih => exact retellable_memberAlone hk hc hnext ih
  | incomplete hk hnext _ ih => exact retellable_incomplete hk hnext ih
  | incompleteSkipped hk hcolon hs hnext _ ihs ih =>
    exact retellable_incompleteSkipped hk hcolon hs hnext ihs ih
  | junk hs hq hnext _ ihs ih => exact retellable_junk hs hq hnext ihs ih
  | skippedNil => exact fun _ _ => ⟨[], .skippedNil, .refl _⟩
  | skippedToken hl ho hc hnext _ ih => exact retellable_skippedToken hx hl ho hc hnext ih
  | skippedScalar hc hl _ ih =>
    intro hleaves hcloses
    obtain ⟨ds', hread, hretold⟩ := ih hleaves.tail.tail hcloses
    exact ⟨_, .skippedScalar hc hl hread, .cons (.refl _) (.cons (.refl _) hretold)⟩
  | skippedValue ho hd _ ihd ih => exact retellable_skippedValue ho hd ihd ih

end

/-! ## Closers put in -/

/-- Whether a row is another one with the closer of a container put in behind some lexemes, and
with the mistake gone that it was missing. -/
structure Inserted (c : Container) (x : Lexeme) (place : List Lexeme) (ds ds' : List Draft) :
    Prop where
  faces : ds'.map face = ds.map face
  split : ∃ back, lexemesList ds = place ++ back ∧ lexemesList ds' = place ++ x :: back
  perm : (expectations ds).Perm (c.expectedCloser :: expectations ds')

section
variable {c c' : Container} {x : Lexeme} {place : List Lexeme} {ds ds' : List Draft} {d d' : Draft}

theorem Marked.place_ne_nil (h : Marked (.unclosed c) place ds) : place ≠ [] := by
  induction h with
  | here h =>
    obtain ⟨rfl, -⟩ := h
    obtain ⟨ls, hls⟩ := exists_lexemes_eq_cons _
    rw [hls]
    exact List.cons_ne_nil _ _
  | inside _ ih => exact ih
  | behind _ ih => exact fun h => ih (List.append_eq_nil_iff.mp h).2

namespace Inserted

theorem head (h : Inserted c x place [d] [d']) (ds : List Draft) :
    Inserted c x place (d :: ds) (d' :: ds) where
  faces := congrArg₂ List.cons (List.cons.inj h.faces).1 rfl
  split := by
    obtain ⟨back, hold, hnew⟩ := h.split
    rw [lexemesList_singleton] at hold hnew
    exact ⟨back ++ lexemesList ds, by rw [lexemesList_cons, hold, List.append_assoc],
      by rw [lexemesList_cons, hnew, List.append_assoc, List.cons_append]⟩
  perm := by
    rw [expectations_cons, expectations_cons d']
    exact h.perm.append_right _

theorem tail (h : Inserted c x place ds ds') (d : Draft) :
    Inserted c x (d.lexemes ++ place) (d :: ds) (d :: ds') where
  faces := congrArg (d.face :: ·) h.faces
  split := by
    obtain ⟨back, hold, hnew⟩ := h.split
    exact ⟨back, by rw [lexemesList_cons, hold, List.append_assoc],
      by rw [lexemesList_cons, hnew, List.append_assoc]⟩
  perm := by
    rw [expectations_cons, expectations_cons d ds']
    exact (h.perm.append_left _).trans List.perm_middle

theorem exists_cons {row : List Draft} (h : Inserted c x place (d :: ds) row) :
    ∃ d' ds', row = d' :: ds' ∧ d'.face = d.face ∧ ds'.map face = ds.map face := by
  obtain ⟨d', ds', hrow, hface, hrest⟩ := List.map_eq_cons_iff.mp h.faces
  exact ⟨d', ds', hrow, hface, hrest⟩

theorem exists_single {row : List Draft} (h : Inserted c x place [d] row) :
    ∃ d', row = [d'] ∧ d'.face = d.face := by
  obtain ⟨d', ds', rfl, hface, hrest⟩ := h.exists_cons
  exact ⟨d', by rw [List.map_eq_nil_iff.mp hrest], hface⟩

theorem head?_eq (h : Inserted c x place ds ds') (hplace : place ≠ []) (behind : List Lexeme) :
    (lexemesList ds' ++ behind).head? = (lexemesList ds ++ behind).head? := by
  obtain ⟨back, hold, hnew⟩ := h.split
  obtain ⟨l, ls, rfl⟩ := List.exists_cons_of_ne_nil hplace
  rw [hold, hnew]
  rfl

theorem node {kind : NodeKind} {before after : Option ParseError} {first first' : Draft}
    {rest rest' : List Draft} (h : Inserted c x place (first :: rest) (first' :: rest')) :
    Inserted c x place [.node kind before first rest after] [.node kind before first' rest' after]
    where
  faces := by
    have hface := firstLexeme_eq_of_face (List.cons.inj h.faces).1
    simp [face, hface]
  split := by
    rw [lexemesList_singleton, lexemesList_singleton]
    exact h.split
  perm := by
    rw [expectations_node, expectations_node]
    exact ((h.perm.append_left _).append_right _).trans (List.perm_middle.append_right _)

theorem member {key colon : Lexeme} {note : Option ParseError} (h : Inserted c x place ds ds') :
    Inserted c x (key :: colon :: place) [member key colon ds note] [member key colon ds' note]
    where
  faces := by
    unfold Draft.member
    split <;> rfl
  split := by
    obtain ⟨back, hold, hnew⟩ := h.split
    rw [lexemesList_singleton, lexemesList_singleton, lexemes_member, lexemes_member, hold, hnew]
    exact ⟨back, rfl, rfl⟩
  perm := by
    obtain ⟨front, hfront⟩ := expectations_member key
    rw [hfront, hfront]
    exact ((h.perm.append_left _).append_right _).trans (List.perm_middle.append_right _)

theorem closed {opener closer : Lexeme} {next : Token} (h : Inserted c x place ds ds') :
    Inserted c x (opener :: place) [container c' opener ds (some closer) next]
      [container c' opener ds' (some closer) next] where
  faces := rfl
  split := by
    obtain ⟨back, hold, hnew⟩ := h.split
    rw [lexemesList_singleton, lexemesList_singleton, lexemes_container, lexemes_container, hold,
      hnew]
    exact ⟨back ++ [closer], by simp, by simp⟩
  perm := by
    rw [expectations_container_closed, expectations_container_closed]
    exact h.perm

theorem unclosed {opener : Lexeme} {next : Token} (h : Inserted c x place ds ds') :
    Inserted c x (opener :: place) [container c' opener ds none next]
      [container c' opener ds' none next] where
  faces := rfl
  split := by
    obtain ⟨back, hold, hnew⟩ := h.split
    rw [lexemesList_singleton, lexemesList_singleton, lexemes_container, lexemes_container, hold,
      hnew]
    exact ⟨back, by simp, by simp⟩
  perm := by
    rw [expectations_container_unclosed, expectations_container_unclosed]
    exact h.perm.append_right _

theorem ofRetold {opener : Lexeme} {next next' : Token} (h : Retold ds ds') :
    Inserted c x (opener :: lexemesList ds) [container c opener ds none next]
      [container c opener ds' (some x) next'] where
  faces := rfl
  split := by
    rw [lexemesList_singleton, lexemesList_singleton, lexemes_container, lexemes_container,
      h.lexemes_eq]
    exact ⟨[], by simp, by simp⟩
  perm := by
    rw [expectations_container_unclosed, expectations_container_closed, h.expectations_eq]
    exact List.perm_append_singleton _ _

end Inserted

/-- The places behind the containers of a kind that lack their closers, where no container further
in lacks the same closer. -/
def Mark.innermost (c : Container) : Mark where
  holds d place := place = d.lexemes ∧ .nestingLimit ∉ expectations [d] ∧
    ∃ before first rest note, d = .node c.nodeKind before first rest (some note) ∧
      ¬ Marked (.unclosed c) place (first :: rest)
  isInner_of_holds := by
    rintro d place ⟨-, -, before, first, rest, note, rfl, -⟩
    cases c <;> rfl

theorem Marked.unclosed (h : Marked (.innermost c) place ds) : Marked (.unclosed c) place ds := by
  refine h.mono fun d place hd => ?_
  obtain ⟨hplace, -, before, first, rest, note, hnode, -⟩ := hd
  exact ⟨hplace, before, first, rest, note, hnode⟩

/-- Where a container lacks its closer, an innermost one does. -/
theorem Marked.innermost (hshallow : .nestingLimit ∉ expectations ds)
    (h : Marked (.unclosed c) place ds) : Marked (.innermost c) place ds := by
  induction hsize : sizeOf ds using Nat.strongRecOn generalizing place ds with
  | ind n ih =>
    subst hsize
    cases h with
    | @here d ds place h =>
      obtain ⟨rfl, before, first, rest, note, rfl⟩ := h
      rw [expectations_cons, List.mem_append, not_or] at hshallow
      by_cases hinner : Marked (.unclosed c)
          (Draft.node c.nodeKind before first rest (some note)).lexemes (first :: rest)
      · have hparts := hshallow.1
        rw [expectations_node, List.mem_append, List.mem_append, not_or, not_or] at hparts
        exact .inside (ih _ (by simp only [List.cons.sizeOf_spec, Draft.node.sizeOf_spec]; omega)
          hparts.1.2 hinner rfl)
      · exact .here ⟨rfl, hshallow.1, before, first, rest, note, rfl, hinner⟩
    | inside h =>
      rw [expectations_cons, expectations_node, List.mem_append, List.mem_append, List.mem_append,
        not_or, not_or, not_or] at hshallow
      exact .inside (ih _ (by simp only [List.cons.sizeOf_spec, Draft.node.sizeOf_spec]; omega)
        hshallow.1.1.2 h rfl)
    | behind h =>
      rw [expectations_cons, List.mem_append, not_or] at hshallow
      exact .behind (ih _ (by simp only [List.cons.sizeOf_spec]; omega) hshallow.2 h rfl)

variable {eof : Token} {e : List Container} {behind : List Lexeme}

/-- An innermost container that lacks its closer takes it. -/
theorem exists_read_innermost {inner : Draft} (hx : x.kind = c.closer)
    (h : (Mark.innermost c).holds inner place)
    (hread : Read eof e .value behind [plain .value inner []]) :
    ∃ v, Read eof e .value behind [v] ∧ Inserted c x place [plain .value inner []] [v] := by
  obtain ⟨rfl, hshallow, before, first, rest, note, rfl, hinner⟩ := h
  obtain ⟨_, _, _, hnode, -⟩ | ⟨opener, ds, hnode, ho, he, -, hds⟩ := hread.container_cases rfl
  · exact absurd (Draft.node.inj hnode).2.2.2.2 nofun
  have hlexemes : (containerNode c opener ds none (missing c.expectedCloser
      (lastTokenFrom opener.token (wrap c.listKind ds)) (nextOf eof behind))).lexemes =
        opener :: lexemesList ds := by
    rw [lexemes_containerNode, Option.toList_none, List.append_nil]
  have hopen : ¬ EndsOpen c ds := by
    obtain ⟨-, -, rfl, rfl, -⟩ := Draft.node.inj hnode
    rw [hnode, hlexemes] at hinner
    exact fun hopen => hinner (hopen.in_parts c opener none)
  have hinside : .nestingLimit ∉ expectations ds := by
    intro hmem
    apply hshallow
    rw [hnode, ← expectations_plain .value _ [], ← container_unclosed,
      expectations_container_unclosed]
    exact List.mem_append_left _ hmem
  obtain ⟨ds', hread, hretold⟩ := exists_read_closer hds hx behind ⟨hinside, hopen⟩
    (by rw [closesAny_cons, hx, beq_self_eq_true, Bool.true_or])
  rw [hnode, hlexemes, ← container_unclosed]
  exact ⟨_, .closed ho hx he hread, .ofRetold hretold⟩

/-- The closer of a container that lacks it can be put in, and nothing else that the row tells
changes. -/
theorem amends_inserted (hx : x.kind = c.closer) :
    Amends 0 eof (.innermost c) (Inserted c x) where
  value h hread := by
    obtain ⟨v, hv, hinserted⟩ := exists_read_innermost hx h hread
    rw [List.map_id'' Lexeme.shift_zero]
    exact ⟨v, hv, hinserted⟩
  first h := by
    obtain ⟨d', hd', hface⟩ := h.exists_single
    obtain rfl := (List.cons.inj hd').1
    exact .inl hface
  head h ds := by
    rw [shiftRow_zero]
    exact h.head ds
  behind h d := h.tail d
  inside h _ := by
    rw [ParseError.map_shift_zero]
    exact h.node
  member h _ _ := h.member
  container h _ _ closer _ := by
    cases closer with
    | none => exact h.unclosed
    | some closer =>
      rw [Option.map_some, Lexeme.shift_zero]
      exact h.closed
  item hmarked hfirst hd hds h := by
    rw [List.map_id'' Lexeme.shift_zero] at hds ⊢
    have hhead := h.head?_eq hmarked.unclosed.place_ne_nil
    exact ⟨_, .item hfirst (hd.of_head? (hhead _)) hds, h.tail _⟩

end

/-! ## Documents -/

/-- Where a container of a document lacks its closer, the closer can be put in, and nothing else
that the document tells changes. -/
theorem exists_documentDrafts_inserted {eof : Token} {c : Container} {x : Lexeme}
    {whole place : List Lexeme} (hshallow : .nestingLimit ∉ expectations (documentDrafts eof whole))
    (hx : x.kind = c.closer) (hmarked : Marked (.unclosed c) place (documentDrafts eof whole)) :
    ∃ back, whole = place ++ back ∧ (expectations (documentDrafts eof whole)).Perm
      (c.expectedCloser :: expectations (documentDrafts eof (place ++ x :: back))) := by
  obtain ⟨ds', hinserted, hdrafts⟩ :=
    (amends_inserted hx).exists_documentDrafts (hmarked.innermost hshallow)
  obtain ⟨back, hold, hnew⟩ := hinserted.split
  rw [Token.shift_zero, hnew] at hdrafts
  exact ⟨back, (lexemes_documentDrafts eof whole).symm.trans hold, by
    rw [hdrafts]
    exact hinserted.perm⟩

end Maml.Draft
