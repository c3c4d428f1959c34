import Maml.Proofs.Offsets

/-! Rows that are amended at a marked place.

A value somewhere in a row is amended: something is put into it or taken out of it, or another
value comes in its place. What stands in front of it stays as it is then, and what stands behind it
is shifted.

1. A relation between a place, the row before and the row after `Amends` rows if it holds of the
   values themselves that are marked, and goes on from a row to whatever encloses it.
2. Then all rules around the value hold as before: whatever a rule makes of rows that can be amended
   can be amended (`amendable_member` and so on), so the amended row can be read where the row was
   (`Amends.exists_read`).
3. So it is with documents (`Amends.exists_documentDrafts`). -/
namespace Maml.Draft

/-! ## What the rules see -/

/-- Whether a value begins as another one does, or with a number or a reserved word where the other
begins with a token that is no bracket. -/
def BeginsLike (d d' : Draft) : Prop :=
  d'.face = d.face ∨ d.firstLexeme.kind.isOpener = false ∧
    d'.firstLexeme.kind.isScalar = true ∧ d'.firstLexeme.kind.isKeyStart = false

theorem BeginsLike.ne_comma {d d' : Draft} (h : BeginsLike d d')
    (hd : d.firstLexeme.kind ≠ .comma) : d'.firstLexeme.kind ≠ .comma := by
  rcases h with hface | ⟨-, hscalar, -⟩
  · rwa [firstLexeme_eq_of_face hface]
  · intro hcomma
    rw [hcomma] at hscalar
    exact absurd hscalar Bool.false_ne_true

theorem BeginsLike.isKeyStart {d d' : Draft} (h : BeginsLike d d')
    (hd' : d'.firstLexeme.kind.isKeyStart = true) : d.firstLexeme.kind.isKeyStart = true := by
  rcases h with hface | ⟨-, -, hkey⟩
  · rwa [firstLexeme_eq_of_face hface] at hd'
  · exact absurd (hkey.symm.trans hd') Bool.false_ne_true

theorem BeginsLike.begins {d d' : Draft} (h : BeginsLike d d')
    (hd : beginsDocument d.firstLexeme.kind = true) :
    beginsDocument d'.firstLexeme.kind = true := by
  rcases h with hface | ⟨-, hscalar, -⟩
  · rwa [firstLexeme_eq_of_face hface]
  · rw [beginsDocument, TokenKind.startsValue, hscalar, Bool.or_true]
    rfl

theorem BeginsLike.face_eq {d d' : Draft} (h : BeginsLike d d')
    (hd : d.firstLexeme.kind.isOpener = true) : d'.face = d.face :=
  h.resolve_right fun h => absurd (h.1.symm.trans hd) Bool.false_ne_true

/-- Whether two rows in a slot look alike to the rules in front of them: these look at the first
draft of a row of members, and of skipped pieces also whether a colon is the next one. -/
def Slot.Sees : Slot → List Draft → List Draft → Prop
  | .list .object _, ds, ds' => ds'.head?.map face = ds.head?.map face
  | .skipped, ds, ds' => ds'.head?.map face = ds.head?.map face ∧
      startsWithColon ds'.tail = startsWithColon ds.tail
  | _, _, _ => True

theorem sees_list {c : Container} {b : Bool} {ds ds' : List Draft}
    (h : ds'.head?.map face = ds.head?.map face) : (Slot.list c b).Sees ds ds' := by
  cases c with
  | object => exact h
  | array => trivial

/-! ## Amended rows -/

/-- Whether a relation between a place, a row and another row amends the values that are marked,
with what is behind them shifted by `k` bytes. -/
structure Amends (k : Nat) (eof : Token) (m : Mark)
    (R : List Lexeme → List Draft → List Draft → Prop) : Prop where
  /-- A value that is marked can be amended. -/
  value {e behind place inner} (h : m.holds inner place)
    (hread : Read eof e .value behind [plain .value inner []]) :
    ∃ v, Read (eof.shift k) e .value (behind.map (Lexeme.shift k)) [v] ∧
      R place [plain .value inner []] [v]
  first {place d d'} (h : R place [d] [d']) : BeginsLike d d'
  /-- The rest of a row is shifted behind its amended draft. -/
  head {place d d'} (h : R place [d] [d']) (ds : List Draft) :
    R place (d :: ds) (d' :: shiftRow k ds)
  behind {place ds ds'} (h : R place ds ds') (d : Draft) :
    R (d.lexemes ++ place) (d :: ds) (d :: ds')
  inside {place kind before first first' rest rest' after}
    (h : R place (first :: rest) (first' :: rest')) (hface : first'.face = first.face) :
    R place [node kind before first rest after]
      [node kind before first' rest' (after.map (ParseError.shift k))]
  member {place v v'} (h : R place [v] [v']) (key colon : Lexeme) :
    R (key :: colon :: place) [member key colon [v] none] [member key colon [v'] none]
  container {place ds ds'} (h : R place ds ds') (c : Container) (opener : Lexeme)
    (closer : Option Lexeme) (next : Token) :
    R (opener :: place) [container c opener ds closer next]
      [container c opener ds' (closer.map (Lexeme.shift k)) (next.shift k)]
  /-- An item stays in front of amended items, or is amended with them. -/
  item {e b behind place d ds ds'} (hmarked : Marked m place ds)
    (hfirst : d.firstLexeme.kind ≠ .comma)
    (hd : Read eof e .value (lexemesList ds ++ behind) [d])
    (hds : Read (eof.shift k) e (.list .array false) (behind.map (Lexeme.shift k)) ds')
    (h : R place ds ds') :
    ∃ row, Read (eof.shift k) e (.list .array b) (behind.map (Lexeme.shift k)) row ∧
      R (d.lexemes ++ place) (d :: ds) row

theorem Marked.ne_nil {m : Mark} {place : List Lexeme} {ds : List Draft} (h : Marked m place ds) :
    ds ≠ [] := by
  rintro rfl
  exact not_marked_nil h

/-! ## Rows that begin alike -/

/-- Whether two rows, each in front of other lexemes, begin with the same lexeme. -/
def SameHead (ds ds' : List Draft) (behind behind' : List Lexeme) : Prop :=
  ∃ l ls ls', lexemesList ds ++ behind = l :: ls ∧ lexemesList ds' ++ behind' = l :: ls'

namespace SameHead

variable {eof eof' : Token} {ds ds' : List Draft} {behind behind' : List Lexeme}

theorem of_face (hne : ds ≠ []) (h : ds'.head?.map face = ds.head?.map face)
    (behind behind' : List Lexeme) : SameHead ds ds' behind behind' := by
  obtain ⟨d, ds, rfl⟩ := List.exists_cons_of_ne_nil hne
  obtain ⟨d', hd', hface⟩ := Option.map_eq_some_iff.mp h
  obtain ⟨ds', rfl⟩ := List.head?_eq_some_iff.mp hd'
  obtain ⟨ls, hls⟩ := exists_lexemes_eq_cons d
  obtain ⟨ls', hls'⟩ := exists_lexemes_eq_cons d'
  rw [firstLexeme_eq_of_face hface] at hls'
  exact ⟨_, _, _, by rw [lexemesList_cons, hls]; rfl, by rw [lexemesList_cons, hls']; rfl⟩

/-- What is read in front of the one row is read in front of the other. -/
theorem read {e : List Container} {slot : Slot} {row : List Draft}
    (h : SameHead ds ds' behind behind') (hrow : Read eof e slot (lexemesList ds ++ behind) row) :
    Read eof' e slot (lexemesList ds' ++ behind') row := by
  obtain ⟨l, ls, ls', hold, hnew⟩ := h
  rw [hold] at hrow
  rw [hnew]
  exact hrow.of_cons

theorem nextOf_eq (h : SameHead ds ds' behind behind') :
    nextOf eof' (lexemesList ds' ++ behind') = nextOf eof (lexemesList ds ++ behind) := by
  obtain ⟨l, ls, ls', hold, hnew⟩ := h
  rw [hold, hnew, nextOf_cons, nextOf_cons]

theorem forall_head? {P : Lexeme → Prop} (h : SameHead ds ds' behind behind')
    (hds : ∀ l ∈ (lexemesList ds ++ behind).head?, P l) :
    ∀ l ∈ (lexemesList ds' ++ behind').head?, P l := by
  obtain ⟨l, ls, ls', hold, hnew⟩ := h
  rw [hold] at hds
  rwa [hnew]

end SameHead

/-! ## Rules around an amended row -/

section
variable {k : Nat} {eof : Token} {m : Mark} {R : List Lexeme → List Draft → List Draft → Prop}
  {e : List Container} {slot : Slot} {b : Bool} {place behind : List Lexeme} {d first : Draft}
  {ds rest : List Draft}

/-- Whether a row can be read where another one stands that is amended at a place. -/
def CanAmend (k : Nat) (R : List Lexeme → List Draft → List Draft → Prop) (eof : Token)
    (e : List Container) (slot : Slot) (behind place : List Lexeme) (ds : List Draft) : Prop :=
  ∃ ds', Read (eof.shift k) e slot (behind.map (Lexeme.shift k)) ds' ∧ R place ds ds' ∧
    slot.Sees ds ds'

/-- Whether a row can be amended wherever it is marked. -/
def Amendable (k : Nat) (R : List Lexeme → List Draft → List Draft → Prop) (m : Mark) (eof : Token)
    (e : List Container) (slot : Slot) (behind : List Lexeme) (ds : List Draft) : Prop :=
  ∀ {place : List Lexeme}, Marked m place ds → CanAmend k R eof e slot behind place ds

theorem CanAmend.exists_value (h : CanAmend k R eof e .value (lexemesList ds ++ behind) place [d]) :
    ∃ d', Read (eof.shift k) e .value
        (lexemesList (shiftRow k ds) ++ behind.map (Lexeme.shift k)) [d'] ∧ R place [d] [d'] := by
  obtain ⟨row, hread, hamended, -⟩ := h
  obtain ⟨d', rfl⟩ := hread.exists_single
  rw [← append_shiftRow] at hread
  exact ⟨d', hread, hamended⟩

theorem CanAmend.exists_skipped
    (h : CanAmend k R eof e .skipped (lexemesList ds ++ behind) place (first :: rest)) :
    ∃ first' rest', Read (eof.shift k) e .skipped
        (lexemesList (shiftRow k ds) ++ behind.map (Lexeme.shift k)) (first' :: rest') ∧
      R place (first :: rest) (first' :: rest') ∧ first'.face = first.face ∧
        startsWithColon rest' = startsWithColon rest := by
  obtain ⟨row, hread, hamended, hface, hcolon⟩ := h
  obtain ⟨first', hfirst, hsame⟩ := Option.map_eq_some_iff.mp hface
  obtain ⟨rest', rfl⟩ := List.head?_eq_some_iff.mp hfirst
  rw [← append_shiftRow] at hread
  exact ⟨first', rest', hread, hamended, hsame, hcolon⟩

/-- What is in front of an amended row in an object sees the lexeme that it saw. -/
theorem Amendable.exists_members (h : Amendable k R m eof e (.list .object b) behind ds)
    (hmarked : Marked m place ds) : ∃ ds',
      Read (eof.shift k) e (.list .object b) (behind.map (Lexeme.shift k)) ds' ∧ R place ds ds' ∧
        ds'.head?.map face = ds.head?.map face ∧
          SameHead ds ds' behind (behind.map (Lexeme.shift k)) := by
  obtain ⟨ds', hread, hamended, hface⟩ := h hmarked
  exact ⟨ds', hread, hamended, hface, .of_face hmarked.ne_nil hface _ _⟩

theorem Amendable.exists_behind_skipped (h : Amendable k R m eof e .skipped behind ds)
    (hmarked : Marked m place ds) : ∃ ds',
      Read (eof.shift k) e .skipped (behind.map (Lexeme.shift k)) ds' ∧ R place ds ds' ∧
        startsWithColon ds' = startsWithColon ds ∧
          SameHead ds ds' behind (behind.map (Lexeme.shift k)) := by
  obtain ⟨ds', hread, hamended, hface, -⟩ := h hmarked
  exact ⟨ds', hread, hamended, startsWithColon_eq_of_face hface, .of_face hmarked.ne_nil hface _ _⟩

theorem canResume_shift (k : Nat)
    (h : ∀ l ∈ (lexemesList ds ++ behind).head?, canResume e l.kind = true) :
    ∀ l ∈ (lexemesList (shiftRow k ds) ++ behind.map (Lexeme.shift k)).head?,
      canResume e l.kind = true := by
  rw [append_shiftRow]
  exact forall_head?_shift k (P := fun kind => canResume e kind = true) h

/-- A row is amended in its first draft, or behind that. -/
theorem amendable_cons
    (hfront : ∀ {place}, Marked m place [d] → CanAmend k R eof e slot behind place (d :: ds))
    (hback : ∀ {place}, Marked m place ds →
      CanAmend k R eof e slot behind (d.lexemes ++ place) (d :: ds)) :
    Amendable k R m eof e slot behind (d :: ds) := by
  intro place hmarked
  rcases marked_cons.mp hmarked with h | ⟨more, rfl, h⟩
  · exact hfront h
  · exact hback h

variable (hR : Amends k eof m R)

include hR

theorem canAmend_here {inner : Draft} (hread : Read eof e .value behind [plain .value inner []])
    (h : m.holds inner place) : CanAmend k R eof e .value behind place [plain .value inner []] := by
  obtain ⟨v, hv, hamended⟩ := hR.value h hread
  exact ⟨[v], hv, hamended, trivial⟩

theorem amendable_closed {c : Container} {opener closer : Lexeme} (ho : opener.kind = c.opener)
    (hc : closer.kind = c.closer) (he : e.length < Container.maxDepth)
    (hds : Read eof (c :: e) (.list c true) (closer :: behind) ds)
    (ih : Amendable k R m eof (c :: e) (.list c true) (closer :: behind) ds) :
    Amendable k R m eof e .value behind [container c opener ds (some closer) closer.token] := by
  intro place hmarked
  rw [container_closed] at hmarked
  rcases marked_containerNode.mp hmarked with hm | ⟨more, rfl, hm⟩
  · exact canAmend_here hR (.closed ho hc he hds) hm
  · obtain ⟨ds', hread, hamended, -⟩ := ih hm
    have hclosed : Read (eof.shift k) e .value (behind.map (Lexeme.shift k))
        [Draft.container c opener ds' (some (closer.shift k)) (closer.shift k).token] :=
      .closed ho hc he hread
    exact ⟨_, hclosed, hR.container hamended c opener (some closer) closer.token, trivial⟩

theorem amendable_unclosed {c : Container} {opener : Lexeme} (ho : opener.kind = c.opener)
    (he : e.length < Container.maxDepth)
    (hends : ∀ h ∈ behind.head?, closesAny e h.kind = true ∧ h.kind ≠ c.closer)
    (hds : Read eof (c :: e) (.list c true) behind ds)
    (ih : Amendable k R m eof (c :: e) (.list c true) behind ds) :
    Amendable k R m eof e .value behind [container c opener ds none (nextOf eof behind)] := by
  intro place hmarked
  rw [container_unclosed] at hmarked
  rcases marked_containerNode.mp hmarked with hm | ⟨more, rfl, hm⟩
  · rw [container_unclosed]
    exact canAmend_here hR (container_unclosed .. ▸ Read.unclosed ho he hends hds) hm
  · obtain ⟨ds', hread, hamended, -⟩ := ih hm
    have hunclosed := Read.unclosed ho he (forall_head?_shift k
      (P := fun kind => closesAny e kind = true ∧ kind ≠ c.closer) hends) hread
    rw [nextOf_shift] at hunclosed
    exact ⟨_, hunclosed, hR.container hamended c opener none _, trivial⟩

theorem amendable_item (hfirst : d.firstLexeme.kind ≠ .comma)
    (hd : Read eof e .value (lexemesList ds ++ behind) [d])
    (hds : Read eof e (.list .array false) behind ds)
    (ihd : Amendable k R m eof e .value (lexemesList ds ++ behind) [d])
    (ih : Amendable k R m eof e (.list .array false) behind ds) :
    Amendable k R m eof e (.list .array b) behind (d :: ds) := by
  apply amendable_cons
  · intro place hm
    obtain ⟨d', hread, hamended⟩ := (ihd hm).exists_value
    exact ⟨_, .item ((hR.first hamended).ne_comma hfirst) hread (hds.shift k),
      hR.head hamended _, trivial⟩
  · intro place hm
    obtain ⟨ds', hread, hamended, -⟩ := ih hm
    obtain ⟨row, hrow, hamended⟩ := hR.item hm hfirst hd hread hamended
    exact ⟨row, hrow, hamended, trivial⟩

theorem amendable_member {key colon : Lexeme} {v : Draft}
    (hk : (isKey key.kind || isQuotable key.kind) = true) (hc : colon.kind = .colon)
    (hfirst : v.firstLexeme.kind ≠ .comma)
    (hnext : v.firstLexeme.kind.isKeyStart = true →
      ∀ h ∈ (lexemesList ds ++ behind).head?, h.kind ≠ .colon)
    (hv : Read eof e .value (lexemesList ds ++ behind) [v])
    (hds : Read eof e (.list .object false) behind ds)
    (ihv : Amendable k R m eof e .value (lexemesList ds ++ behind) [v])
    (ih : Amendable k R m eof e (.list .object false) behind ds) :
    Amendable k R m eof e (.list .object b) behind (member key colon [v] none :: ds) := by
  apply amendable_cons
  · intro place hm
    obtain ⟨more, rfl, hinner⟩ := marked_member.mp hm
    obtain ⟨v', hread, hamended⟩ := (ihv hinner).exists_value
    have hbegins := hR.first hamended
    refine ⟨_, .member hk hc (hbegins.ne_comma hfirst) ?_ hread (hds.shift k),
      hR.head (hR.member hamended key colon) ds, ?_⟩
    · rw [append_shiftRow]
      exact fun h => forall_head?_shift k (P := (· ≠ .colon)) (hnext (hbegins.isKeyStart h))
    · unfold Draft.member
      split <;> exact rfl
  · intro place hm
    obtain ⟨ds', hread, hamended, -, hsame⟩ := ih.exists_members hm
    have hmember := Read.member (b := b) hk hc hfirst (fun h => hsame.forall_head? (hnext h))
      (hsame.read hv) hread
    exact ⟨_, hmember, hR.behind hamended _, rfl⟩

theorem amendable_memberAlone {key colon : Lexeme}
    (hk : (isKey key.kind || isQuotable key.kind) = true) (hc : colon.kind = .colon)
    (hnext : beginsMember ds = true) (ih : Amendable k R m eof e (.list .object false) behind ds) :
    Amendable k R m eof e (.list .object b) behind (member key colon []
      (missing .value colon.token (nextOf eof (lexemesList ds ++ behind))) :: ds) := by
  apply amendable_cons
  · intro place hm
    obtain ⟨more, -, hm⟩ := marked_member.mp hm
    exact absurd hm not_marked_nil
  · intro place hm
    obtain ⟨ds', hread, hamended, hface, hsame⟩ := ih.exists_members hm
    have halone := Read.memberAlone (b := b) hk hc (by rwa [beginsMember_eq_of_face hface]) hread
    rw [hsame.nextOf_eq] at halone
    exact ⟨_, halone, hR.behind hamended _, rfl⟩

theorem amendable_incomplete {key : Lexeme} (hk : isKey key.kind = true)
    (hnext : ∀ h ∈ (lexemesList ds ++ behind).head?, canResume e h.kind = true)
    (ih : Amendable k R m eof e (.list .object false) behind ds) :
    Amendable k R m eof e (.list .object b) behind
      (incomplete key (nextOf eof (lexemesList ds ++ behind)) :: ds) := by
  apply amendable_cons
  · intro place hm
    exact absurd ((marked_node rfl).mp ((marked_node rfl).mp hm)) (not_marked_leaf _)
  · intro place hm
    obtain ⟨ds', hread, hamended, -, hsame⟩ := ih.exists_members hm
    have hincomplete := Read.incomplete (b := b) hk (hsame.forall_head? hnext) hread
    rw [hsame.nextOf_eq] at hincomplete
    exact ⟨_, hincomplete, hR.behind hamended _, rfl⟩

theorem amendable_incompleteSkipped {key : Lexeme} (hk : isKey key.kind = true)
    (hcolon : startsWithColon (first :: rest) = false)
    (hs : Read eof e .skipped (lexemesList ds ++ behind) (first :: rest))
    (hnext : ∀ h ∈ (lexemesList ds ++ behind).head?, canResume e h.kind = true)
    (hds : Read eof e (.list .object false) behind ds)
    (ihs : Amendable k R m eof e .skipped (lexemesList ds ++ behind) (first :: rest))
    (ih : Amendable k R m eof e (.list .object false) behind ds) :
    Amendable k R m eof e (.list .object b) behind
      (incomplete key first.firstToken :: plain .error first rest :: ds) := by
  apply amendable_cons
  · intro place hm
    exact absurd ((marked_node rfl).mp ((marked_node rfl).mp hm)) (not_marked_leaf _)
  intro place hm
  rcases marked_cons.mp hm with herror | ⟨more, rfl, hlist⟩
  · obtain ⟨first', rest', hread, hamended, hface, -⟩ :=
      (ihs ((marked_node rfl).mp herror)).exists_skipped
    have hskipped := Read.incompleteSkipped (b := b) hk
      ((startsWithColon_eq_of_face (by simp [hface])).trans hcolon) hread
      (canResume_shift k hnext) (hds.shift k)
    rw [firstToken, firstLexeme_eq_of_face hface] at hskipped
    exact ⟨_, hskipped, hR.behind (hR.head (hR.inside hamended hface) ds) _, rfl⟩
  · obtain ⟨ds', hread, hamended, -, hsame⟩ := ih.exists_members hlist
    have hskipped := Read.incompleteSkipped (b := b) hk hcolon (hsame.read hs)
      (hsame.forall_head? hnext) hread
    exact ⟨_, hskipped, hR.behind (hR.behind hamended _) _, rfl⟩

theorem amendable_junk
    (hs : Read eof e .skipped (lexemesList ds ++ behind) (first :: rest))
    (hq : first.isQuotableToken = true → startsWithColon rest = false)
    (hnext : ∀ h ∈ (lexemesList ds ++ behind).head?, canResume e h.kind = true)
    (hds : Read eof e (.list .object false) behind ds)
    (ihs : Amendable k R m eof e .skipped (lexemesList ds ++ behind) (first :: rest))
    (ih : Amendable k R m eof e (.list .object false) behind ds) :
    Amendable k R m eof e (.list .object b) behind (junk first rest :: ds) := by
  apply amendable_cons
  · intro place hm
    obtain ⟨first', rest', hread, hamended, hface, hcolon⟩ :=
      (ihs ((marked_node rfl).mp hm)).exists_skipped
    have hfirst := firstLexeme_eq_of_face hface
    have htoken : first'.firstToken = first.firstToken := congrArg Lexeme.token hfirst
    have hjunk := Read.junk (b := b) hread
      (by rwa [isQuotableToken_eq_of_face hface, hcolon]) (canResume_shift k hnext) (hds.shift k)
    have hnode : R place [Draft.junk first rest] [Draft.junk first' rest'] := by
      rw [Draft.junk, Draft.junk, htoken]
      exact hR.inside hamended hface
    exact ⟨_, hjunk, hR.head hnode ds, congrArg (fun l => some (some NodeKind.error, l)) hfirst⟩
  · intro place hm
    obtain ⟨ds', hread, hamended, -, hsame⟩ := ih.exists_members hm
    have hjunk := Read.junk (b := b) (hsame.read hs) hq (hsame.forall_head? hnext) hread
    exact ⟨_, hjunk, hR.behind hamended _, rfl⟩

theorem amendable_skippedToken {l : Lexeme} (hl : resumesMembers (leaf l) = false)
    (ho : l.kind.isOpener = false) (hc : closesAny e l.kind = false)
    (hnext : l.kind = .colon → ∀ h ∈ (lexemesList ds ++ behind).head?, h.kind.isScalar = false)
    (ih : Amendable k R m eof e .skipped behind ds) :
    Amendable k R m eof e .skipped behind (leaf l :: ds) := by
  apply amendable_cons
  · intro place hm
    exact absurd hm (not_marked_leaf _)
  · intro place hm
    obtain ⟨ds', hread, hamended, hcolon, hsame⟩ := ih.exists_behind_skipped hm
    exact ⟨_, .skippedToken hl ho hc (fun h => hsame.forall_head? (hnext h)) hread,
      hR.behind hamended _, rfl, hcolon⟩

theorem amendable_skippedScalar {colon l : Lexeme} (hc : colon.kind = .colon)
    (hl : l.kind.isScalar = true) (ih : Amendable k R m eof e .skipped behind ds) :
    Amendable k R m eof e .skipped behind (leaf colon :: plain .value (leaf l) [] :: ds) := by
  apply amendable_cons
  · intro place hm
    exact absurd hm (not_marked_leaf _)
  intro place hm
  rcases marked_cons.mp hm with hvalue | ⟨more, rfl, hrest⟩
  · exact absurd ((marked_node rfl).mp hvalue) (not_marked_leaf _)
  · obtain ⟨ds', hread, hamended, -⟩ := ih hrest
    exact ⟨_, .skippedScalar hc hl hread, hR.behind (hR.behind hamended _) _, rfl, rfl⟩

theorem amendable_skippedValue (ho : d.firstLexeme.kind.isOpener = true)
    (hd : Read eof e .value (lexemesList ds ++ behind) [d])
    (hds : Read eof e .skipped behind ds)
    (ihd : Amendable k R m eof e .value (lexemesList ds ++ behind) [d])
    (ih : Amendable k R m eof e .skipped behind ds) :
    Amendable k R m eof e .skipped behind (d :: ds) := by
  apply amendable_cons
  · intro place hm
    obtain ⟨d', hread, hamended⟩ := (ihd hm).exists_value
    have hface := (hR.first hamended).face_eq ho
    exact ⟨_, .skippedValue (by rwa [firstLexeme_eq_of_face hface]) hread (hds.shift k),
      hR.head hamended _, congrArg some hface, startsWithColon_shiftRow k _⟩
  · intro place hm
    obtain ⟨ds', hread, hamended, hcolon, hsame⟩ := ih.exists_behind_skipped hm
    exact ⟨_, .skippedValue ho (hsame.read hd) hread, hR.behind hamended _, rfl, hcolon⟩

/-- A row that is read can be amended wherever it is marked. -/
theorem Amends.exists_read (h : Read eof e slot behind ds) :
    Amendable k R m eof e slot behind ds := by
  induction h with
  | scalar => exact fun hm => absurd ((marked_node rfl).mp hm) (not_marked_leaf _)
  | invalid hl hc hnext =>
    exact fun hm => canAmend_here hR (.invalid hl hc hnext)
      (holds_of_marked_value hm (not_marked_leaf _))
  | @signed _ _ plus number h =>
    exact fun hm => canAmend_here hR (.signed h)
      (holds_of_marked_value hm (not_marked_map_leaf [plus, number]))
  | @tooDeep _ _ opener run ho he hrun =>
    exact fun hm => canAmend_here hR (.tooDeep ho he hrun)
      (holds_of_marked_value hm (not_marked_map_leaf (opener :: run)))
  | closed ho hc he hds ih => exact amendable_closed hR ho hc he hds ih
  | unclosed ho he hends hds ih => exact amendable_unclosed hR ho he hends hds ih
  | nil => exact fun hm => absurd hm not_marked_nil
  | comma hl _ ih =>
    refine amendable_cons (fun hm => absurd hm (not_marked_leaf _)) fun hm => ?_
    obtain ⟨ds', hread, hamended, -⟩ := ih hm
    exact ⟨_, .comma hl hread, hR.behind hamended _, sees_list rfl⟩
  | stray hl _ ih =>
    refine amendable_cons (fun hm => absurd ((marked_node rfl).mp hm) (not_marked_leaf _))
      fun hm => ?_
    obtain ⟨ds', hread, hamended, -⟩ := ih hm
    exact ⟨_, .stray hl hread, hR.behind hamended _, sees_list rfl⟩
  | item hfirst hd hds ihd ih => exact amendable_item hR hfirst hd hds ihd ih
  | member hk hc hfirst hnext hv hds ihv ih =>
    exact amendable_member hR hk hc hfirst hnext hv hds ihv ih
  | memberAlone hk hc hnext _ ih => exact amendable_memberAlone hR hk hc hnext ih
  | incomplete hk hnext _ ih => exact amendable_incomplete hR hk hnext ih
  | incompleteSkipped hk hcolon hs hnext hds ihs ih =>
    exact amendable_incompleteSkipped hR hk hcolon hs hnext hds ihs ih
  | junk hs hq hnext hds ihs ih => exact amendable_junk hR hs hq hnext hds ihs ih
  | skippedNil => exact fun hm => absurd hm not_marked_nil
  | skippedToken hl ho hc hnext _ ih => exact amendable_skippedToken hR hl ho hc hnext ih
  | skippedScalar hc hl _ ih => exact amendable_skippedScalar hR hc hl ih
  | skippedValue ho hd hds ihd ih => exact amendable_skippedValue hR ho hd hds ihd ih

end

/-! ## Documents -/

section
variable {k : Nat} {eof : Token} {m : Mark} {R : List Lexeme → List Draft → List Draft → Prop}
  {place : List Lexeme}

theorem not_marked_trailing (ls : List Lexeme) : ¬ Marked m place (trailing ls) := by
  cases ls with
  | nil => exact not_marked_nil
  | cons l ls => exact fun h => not_marked_map_leaf (l :: ls) ((marked_node rfl).mp h)

theorem shift_trailing (k : Nat) (ls : List Lexeme) :
    shiftRow k (trailing ls) = trailing (ls.map (Lexeme.shift k)) := by
  cases ls with
  | nil => rfl
  | cons l ls =>
    have hlast := lastTokenFrom_shiftRow k (ls.map leaf) l.token
    rw [shiftRow_map_leaf] at hlast
    rw [List.map_cons, trailing, trailing, trailingError, trailingError, Lexeme.token_shift, hlast,
      ← shiftRow_map_leaf]
    rfl

/-- A document is what is read of its lexemes when it is amended where it is marked. -/
theorem Amends.exists_documentDrafts {whole : List Lexeme} (hR : Amends k eof m R)
    (hmarked : Marked m place (documentDrafts eof whole)) : ∃ ds',
      R place (documentDrafts eof whole) ds' ∧
        documentDrafts (eof.shift k) (lexemesList ds') = ds' := by
  have hread := readDocument_documentDrafts eof whole
  generalize documentDrafts eof whole = ds at hmarked hread ⊢
  cases hread with
  | nothing => exact absurd hmarked (not_marked_trailing _)
  | @value d ls hbegins hd =>
    rcases marked_cons.mp hmarked with hm | ⟨more, -, hm⟩
    · obtain ⟨row, hread, hamended, -⟩ := hR.exists_read hd hm
      obtain ⟨d', rfl⟩ := hread.exists_single
      refine ⟨_, hR.head hamended (trailing ls), ?_⟩
      rw [shift_trailing]
      exact documentDrafts_of_readDocument
        (.value ((hR.first hamended).begins hbegins) hread)
    · exact absurd hm (not_marked_trailing _)

end

end Maml.Draft
