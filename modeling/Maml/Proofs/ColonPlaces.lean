import Maml.Proofs.BareKeys
import Maml.Proofs.Exchange

/-! Colons put in behind keys.

A colon is put in behind a key that has none, and what is behind the key is shifted.

1. The key is that of a member then, and the members in front of it stay as they are
   (`exists_read_colon`).
2. So it is with the object that they are in (`exists_hasColonPut`), and with the document
   (`exists_documentDrafts_colon`). -/
namespace Maml.Draft

/-! ## Members whose keys get a colon -/

section
variable {k : Nat} {eof : Token} {e : List Container} {b : Bool} {behind : List Lexeme}
  {key colon : Lexeme} {next : Token} {front back : List Draft}

/-- Whether a key without a colon can be that of a member, with the members in front of it as they
are, and what is behind it shifted. -/
def CanHaveColon (k : Nat) (eof : Token) (e : List Container) (b : Bool) (behind : List Lexeme)
    (key colon : Lexeme) (front back : List Draft) : Prop :=
  ∃ value note rest, Read (eof.shift k) e (.list .object b) (behind.map (Lexeme.shift k))
      (front ++ member key colon value note :: rest) ∧
    lexemesList value ++ lexemesList rest = (lexemesList back).map (Lexeme.shift k)

/-- Behind a colon whatever is there is read as a value and other members. -/
theorem canHaveColon_of_read (hc : colon.kind = .colon) (hk : isKey key.kind = true)
    (h : Read eof e (.list .object b) behind (incomplete key next :: back)) :
    CanHaveColon k eof e b behind key colon [] back := by
  have hkey : (isKey key.kind || isQuotable key.kind) = true := by rw [hk, Bool.true_or]
  obtain ⟨hopener, hcloser, -⟩ := not_isBracket_of_isKey _ hkey
  let behind' := behind.map (Lexeme.shift k)
  -- the pieces behind the key do not change with the colon
  obtain ⟨row, hrow⟩ : ∃ row,
      pieces (eof.shift k) e (lexemesList (shiftRow k back) ++ behind') = (row, behind') := by
    have hshifted : (pieces (eof.shift k) e (key.shift k ::
        (lexemesList (shiftRow k back) ++ behind'))).2 = behind' := (reread_of_read (h.shift k)).1
    rw [pieces_token (l := key.shift k) hopener (ReadAs.closesAny_eq_false hcloser)] at hshifted
    exact ⟨_, Prod.ext rfl hshifted⟩
  have hlexemes := lexemes_pieces (eof.shift k) e (lexemesList (shiftRow k back) ++ behind')
  have hare := (isPiece_arePieces (eof.shift k)).2 e
    (key :: colon :: (lexemesList (shiftRow k back) ++ behind'))
  rw [pieces_member hkey hc, hrow] at hare
  rw [hrow] at hlexemes
  have hread := read_members b hare
  have hmembers := lexemesList_members (nextOf (eof.shift k) behind') b
    (leaf key :: leaf colon :: row)
  rw [members_member hkey hc] at hread hmembers
  refine ⟨_, _, _, hread, ?_⟩
  rw [lexemesList_cons, lexemes_member] at hmembers
  rw [← lexemesList_shiftRow, ← List.append_cancel_right hlexemes]
  exact (List.cons.inj (List.cons.inj hmembers).2).2

theorem sameHead_of_firstLexeme {d d' : Draft} (h : d'.firstLexeme = d.firstLexeme)
    (front back back' : List Draft) (behind behind' : List Lexeme) :
    SameHead (front ++ d :: back) (front ++ d' :: back') behind behind' := by
  obtain ⟨ls, hls⟩ := exists_lexemes_eq_cons d
  obtain ⟨ls', hls'⟩ := exists_lexemes_eq_cons d'
  cases front with
  | nil =>
    refine ⟨d.firstLexeme, ls ++ (lexemesList back ++ behind),
      ls' ++ (lexemesList back' ++ behind'), ?_, ?_⟩
    · simp [hls]
    · simp [hls', h]
  | cons f front =>
    obtain ⟨ms, hms⟩ := exists_lexemes_eq_cons f
    refine ⟨f.firstLexeme, ms ++ (lexemesList (front ++ d :: back) ++ behind),
      ms ++ (lexemesList (front ++ d' :: back') ++ behind'), ?_, ?_⟩
    · simp [hms]
    · simp [hms]

theorem member_ne_incomplete (key' colon : Lexeme) (value : List Draft) (note : Option ParseError) :
    member key' colon value note ≠ incomplete key next := by
  unfold Draft.member
  split <;> exact fun h => NodeKind.noConfusion (Draft.node.inj h).1

/-- What is read in front of a row whose key can have a colon sees the same next lexeme, so it stays
if it can stand there. -/
theorem CanHaveColon.append {b' : Bool} (next : Token) (ds : List Draft)
    (h : CanHaveColon k eof e b' behind key colon front back)
    (hread : ∀ {value note rest},
      SameHead (front ++ incomplete key next :: back) (front ++ member key colon value note :: rest)
        behind (behind.map (Lexeme.shift k)) →
      Read (eof.shift k) e (.list .object b') (behind.map (Lexeme.shift k))
        (front ++ member key colon value note :: rest) →
      Read (eof.shift k) e (.list .object b) (behind.map (Lexeme.shift k))
        (ds ++ (front ++ member key colon value note :: rest))) :
    CanHaveColon k eof e b behind key colon (ds ++ front) back := by
  obtain ⟨value, note, rest, hrow, hrest⟩ := h
  have hfirst : (member key colon value note).firstLexeme = (incomplete key next).firstLexeme :=
    firstLexeme_member ..
  have hsame := sameHead_of_firstLexeme hfirst front back rest behind
    (behind.map (Lexeme.shift k))
  exact ⟨value, note, rest, List.append_assoc .. ▸ hread hsame hrow, hrest⟩

/-- A key can have a colon, and what is in front of it stays as it is. -/
theorem exists_read_colon (hc : colon.kind = .colon) (hk : isKey key.kind = true) {slot : Slot}
    {ds : List Draft} (h : Read eof e slot behind ds) (hslot : slot = .list .object b)
    (hds : ds = front ++ incomplete key next :: back) :
    CanHaveColon k eof e b behind key colon front back := by
  induction h generalizing front b with
  | scalar | invalid | signed | tooDeep | closed | unclosed => exact absurd hslot nofun
  | skippedNil | skippedToken | skippedScalar | skippedValue => exact absurd hslot nofun
  | item => exact absurd (Slot.list.inj hslot).1 nofun
  | nil => exact absurd hds (by simp)
  | comma hl _ ih =>
    obtain ⟨rfl, rfl⟩ := Slot.list.inj hslot
    obtain ⟨-, h⟩ | ⟨front, rfl, rfl⟩ := List.cons_eq_append_iff.mp hds
    · exact absurd (List.cons.inj h).1 nofun
    · exact (ih rfl rfl).append next [_] fun _ hrow => .comma hl hrow
  | stray hl _ ih =>
    obtain ⟨rfl, rfl⟩ := Slot.list.inj hslot
    obtain ⟨-, h⟩ | ⟨front, rfl, rfl⟩ := List.cons_eq_append_iff.mp hds
    · exact absurd (Draft.node.inj (List.cons.inj h).1).1 nofun
    · exact (ih rfl rfl).append next [_] fun _ hrow => .stray hl hrow
  | member hk' hc' hfirst hnext hv _ _ ih =>
    obtain ⟨-, h⟩ | ⟨front, rfl, rfl⟩ := List.cons_eq_append_iff.mp hds
    · exact absurd (List.cons.inj h).1.symm (member_ne_incomplete _ _ _ _)
    exact (ih rfl rfl).append next [_] fun hsame hrow =>
      .member hk' hc' hfirst (fun hkey => hsame.forall_head? (hnext hkey)) (hsame.read hv) hrow
  | memberAlone hk' hc' hnext _ ih =>
    obtain ⟨-, h⟩ | ⟨front, rfl, rfl⟩ := List.cons_eq_append_iff.mp hds
    · exact absurd (List.cons.inj h).1.symm (member_ne_incomplete _ _ _ _)
    -- no member begins with a key alone
    obtain _ | ⟨g, front⟩ := front
    · exact absurd hnext Bool.false_ne_true
    refine (ih rfl rfl).append next [_] fun hsame hrow => ?_
    have halone := Read.memberAlone (b := b) hk' hc' (by cases g <;> exact hnext) hrow
    rwa [hsame.nextOf_eq] at halone
  | incomplete hk' hnext hread ih =>
    obtain ⟨rfl, h⟩ | ⟨front, rfl, rfl⟩ := List.cons_eq_append_iff.mp hds
    · have hbare := Read.incomplete (b := b) hk' hnext hread
      rw [← h] at hbare
      exact canHaveColon_of_read hc hk hbare
    refine (ih rfl rfl).append next [_] fun hsame hrow => ?_
    have hincomplete := Read.incomplete (b := b) hk' (hsame.forall_head? hnext) hrow
    rwa [hsame.nextOf_eq] at hincomplete
  | incompleteSkipped hk' hcolon hs hnext hread _ ih =>
    obtain ⟨rfl, h⟩ | ⟨front, rfl, hrow⟩ := List.cons_eq_append_iff.mp hds
    · have hbare := Read.incompleteSkipped (b := b) hk' hcolon hs hnext hread
      rw [← h] at hbare
      exact canHaveColon_of_read hc hk hbare
    obtain ⟨-, h⟩ | ⟨front, rfl, rfl⟩ := List.cons_eq_append_iff.mp hrow
    · exact absurd (Draft.node.inj (List.cons.inj h).1).1 nofun
    exact (ih rfl rfl).append next [_, _] fun hsame hrow =>
      .incompleteSkipped hk' hcolon (hsame.read hs) (hsame.forall_head? hnext) hrow
  | junk hs hq hnext _ _ ih =>
    obtain ⟨-, h⟩ | ⟨front, rfl, rfl⟩ := List.cons_eq_append_iff.mp hds
    · exact absurd (Draft.node.inj (List.cons.inj h).1).1 nofun
    exact (ih rfl rfl).append next [_] fun hsame hrow =>
      .junk (hsame.read hs) hq (hsame.forall_head? hnext) hrow

theorem eq_of_containerNode_eq {c c' : Container} {opener opener' : Lexeme} {ds ds' : List Draft}
    {closer closer' : Option Lexeme} {after after' : Option ParseError} (hds' : ds' ≠ [])
    (h : containerNode c opener ds closer after = containerNode c' opener' ds' closer' after') :
    c = c' ∧ ds = ds' := by
  obtain ⟨hkind, -, -, hparts, -⟩ := Draft.node.inj h
  obtain ⟨d', ds', rfl⟩ := List.exists_cons_of_ne_nil hds'
  refine ⟨by cases c <;> cases c' <;> first | rfl | exact NodeKind.noConfusion hkind, ?_⟩
  cases ds with
  | nil =>
    cases closer with
    | none => exact absurd hparts nofun
    | some l => exact absurd (List.cons.inj hparts).1 nofun
  | cons d ds =>
    obtain ⟨-, -, rfl, rfl, -⟩ := Draft.node.inj (List.cons.inj hparts).1
    rfl

/-! ## Objects whose keys get a colon -/

/-- Whether an object is another one with a colon behind a key that has none. -/
def HasColonPut (k : Nat) (key colon : Lexeme) (next : Token) (v v' : Draft) : Prop :=
  ∃ opener front back closer after after' value note rest,
    v = plain .value (containerNode .object opener (front ++ incomplete key next :: back) closer
      after) [] ∧
    v' = plain .value (containerNode .object opener (front ++ member key colon value note :: rest)
      (closer.map (Lexeme.shift k)) after') [] ∧
    lexemesList value ++ lexemesList rest = (lexemesList back).map (Lexeme.shift k)

theorem HasColonPut.replaces {v v' : Draft} (h : HasColonPut k key colon next v v') :
    Replaces k key [key, colon] v v' := by
  obtain ⟨opener, front, back, closer, after, after', value, note, rest, rfl, rfl, hrest⟩ := h
  refine ⟨⟨rfl, rfl⟩, .inl rfl, opener :: lexemesList front, lexemesList back ++ closer.toList, ?_,
    ?_⟩
  · rw [lexemes_plain, lexemes_containerNode, lexemesList_append, lexemesList_cons]
    simp [incomplete]
  · rw [lexemes_plain, lexemes_containerNode, lexemesList_append, lexemesList_cons, lexemes_member,
      List.map_append, ← hrest, ← Option.toList_map]
    simp

theorem HasColonPut.errors {v v' : Draft} (h : HasColonPut k key colon next v v')
    (hkey : key.kind ≠ .unterminatedString) : ∃ front back back',
      v.errors = front ++ colonError key next :: back ∧ v'.errors = front ++ back' := by
  obtain ⟨opener, front, back, closer, after, after', value, note, rest, rfl, rfl, -⟩ := h
  refine ⟨errorsList front, errorsList back ++ after.toList,
    (member key colon value note).errors ++ errorsList rest ++ after'.toList, ?_, ?_⟩
  · rw [errors_plain, errors_containerNode, errorsList_append, errorsList_cons,
      errors_incomplete hkey]
    simp
  · rw [errors_plain, errors_containerNode, errorsList_append, errorsList_cons]
    simp

theorem exists_hasColonPut (hc : colon.kind = .colon) (hk : isKey key.kind = true) {inner : Draft}
    {place : List Lexeme} (hinner : (Mark.bareKey key next).holds inner place)
    (h : Read eof e .value behind [plain .value inner []]) :
    ∃ v', Read (eof.shift k) e .value (behind.map (Lexeme.shift k)) [v'] ∧
      HasColonPut k key colon next (plain .value inner []) v' := by
  obtain ⟨opener', front, back, closer', after, hinner⟩ := hinner
  have hne : front ++ incomplete key next :: back ≠ [] := by simp
  have hkind : inner.face.1 = some Container.object.nodeKind := by
    rw [hinner]
    rfl
  obtain ⟨opener, closer, ds, hnode, ho, hc', he, hds⟩ | ⟨opener, ds, hnode, ho, he, hends, hds⟩ :=
    h.container_cases hkind
  · obtain ⟨-, rfl⟩ := eq_of_containerNode_eq hne (hnode.symm.trans hinner)
    obtain ⟨value, note, rest, hread, hrest⟩ := exists_read_colon hc hk hds rfl rfl
    have hclosed : Read (eof.shift k) e .value (behind.map (Lexeme.shift k))
        [container .object opener (front ++ member key colon value note :: rest)
          (some (closer.shift k)) (closer.shift k).token] := .closed ho hc' he hread
    rw [hnode]
    exact ⟨_, hclosed, opener, front, back, some closer, none, none, value, note, rest, rfl, rfl,
      hrest⟩
  · obtain ⟨-, rfl⟩ := eq_of_containerNode_eq hne (hnode.symm.trans hinner)
    obtain ⟨value, note, rest, hread, hrest⟩ := exists_read_colon hc hk hds rfl rfl
    have hunclosed := Read.unclosed ho he (forall_head?_shift k
      (P := fun kind => closesAny e kind = true ∧ kind ≠ Container.object.closer) hends) hread
    rw [container_unclosed] at hunclosed
    rw [hnode]
    exact ⟨_, hunclosed, opener, front, back, none, _, _, value, note, rest, rfl, rfl, hrest⟩

theorem exists_documentDrafts_colon {whole : List Lexeme} {place : List Lexeme}
    (hc : colon.kind = .colon) (hk : isKey key.kind = true)
    (hstop : colon.token.span.stop = key.token.span.stop + k)
    (hmarked : Marked (.bareKey key next) place (documentDrafts eof whole)) :
    ∃ front back, whole = front ++ key :: back ∧
      Exchanged k (HasColonPut k key colon next) (documentDrafts eof whole)
        (documentDrafts (eof.shift k) (front ++ ([key, colon] ++ back.map (Lexeme.shift k)))) := by
  refine exists_documentDrafts_exchanged (fun _ _ => HasColonPut.replaces) ?_ (by simp)
    (fun hinner hread => exists_hasColonPut hc hk hinner hread) hmarked
  intro l hl
  obtain rfl := Option.some.inj hl
  exact hstop

theorem Exchanged.exists_errors_colon (hkey : key.kind ≠ .unterminatedString) {ds ds' : List Draft}
    (h : Exchanged k (HasColonPut k key colon next) ds ds') : ∃ front back back',
      errorsList ds = front ++ colonError key next :: back ∧ errorsList ds' = front ++ back' := by
  obtain ⟨front, back, back', hold, hnew, -⟩ := h.errors (T := fun _ _ => True)
    (fun _ _ _ _ => trivial) fun v v' hput => by
      obtain ⟨front, back, back', hold, hnew⟩ := hput.errors hkey
      exact ⟨front, back, back', hold, hnew, trivial⟩
  exact ⟨front, back, back', hold, hnew⟩

/-- Somewhere in what is exchanged the key has a colon. -/
theorem Exchanged.exists_keyValue (hk : isKey key.kind = true) {ds ds' : List Draft}
    (h : Exchanged k (HasColonPut k key colon next) ds ds') :
    ∃ value note, ¬ EveryNode (· ≠ keyValue key (leaf colon) ⟨value, note, []⟩) ds' := by
  induction h with
  | here h =>
    obtain ⟨opener, front, back, closer, after, after', value, note, rest, rfl, rfl, -⟩ := h
    refine ⟨value, note, fun h => ?_⟩
    -- the member is in the list between the braces
    have hobject := (everyNode_node_iff.mp (everyNode_cons_iff.mp h).1).2
    have hlist := (everyNode_cons_iff.mp (everyNode_node_iff.mp hobject).2).2
    rw [member_of_isKey hk] at hlist
    have hmembers : EveryNode (· ≠ keyValue key (leaf colon) ⟨value, note, []⟩)
        (front ++ keyValue key (leaf colon) ⟨value, note, []⟩ :: rest) := by
      generalize front ++ keyValue key (leaf colon) ⟨value, note, []⟩ :: rest = row at hlist ⊢
      cases row with
      | nil => exact everyNode_nil
      | cons => exact (everyNode_node_iff.mp (everyNode_cons_iff.mp hlist).1).2
    have hmember := (everyNode_cons_iff.mp (everyNode_append_iff.mp hmembers).2).1
    exact (everyNode_node_iff.mp hmember).1 rfl
  | inside _ ih =>
    obtain ⟨value, note, h⟩ := ih
    exact ⟨value, note, fun hall => h (everyNode_node_iff.mp (everyNode_cons_iff.mp hall).1).2⟩
  | behind _ ih =>
    obtain ⟨value, note, h⟩ := ih
    exact ⟨value, note, fun hall => h (everyNode_cons_iff.mp hall).2⟩

end

end Maml.Draft
