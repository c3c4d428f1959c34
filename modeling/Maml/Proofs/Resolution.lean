import Maml.Proofs.Regrouping
import Maml.Proofs.Shape

/-! Which container a closer goes to.

`Resolved e behind ds` says how the brackets of a row pair up, if the containers `e` are
open around it, innermost first, and the lexemes `behind` come after it.

1. A token of the row closes no container around it, unless it was skipped as a whole
   together with an opener.
2. A container of the row has its closer, or it ends at the end of input or in front of a
   closer of another kind that a container further out waits for.

Pairing brackets makes such rows (`resolved_pieceAt_pieces`), and regrouping keeps them
(`resolved_of_regrouped`). -/
namespace Maml.Draft

/-- How the brackets of a row pair up. -/
inductive Resolved : List Container → List Lexeme → List Draft → Prop where
  | nil {e behind} : Resolved e behind []
  | token {e behind l ds} (hl : closesAny e l.kind = false) (hds : Resolved e behind ds) :
      Resolved e behind (leaf l :: ds)
  | tooDeep {e behind before opener after ds} {run : List Lexeme}
      (ho : opener.kind.isOpener = true) (hds : Resolved e behind ds) :
      Resolved e behind (node .invalidValue before (leaf opener) (run.map leaf) after :: ds)
  | closed {e behind c opener inner closer after ds} (ho : opener.kind = c.opener)
      (hc : closer.kind = c.closer)
      (hinner : Resolved (c :: e) (closer :: (lexemesList ds ++ behind)) inner)
      (hds : Resolved e behind ds) :
      Resolved e behind (containerNode c opener inner (some closer) after :: ds)
  | unclosed {e behind c opener inner after ds} (ho : opener.kind = c.opener)
      (hnext : ∀ l ∈ (lexemesList ds ++ behind).head?,
        closesAny e l.kind = true ∧ l.kind ≠ c.closer)
      (hinner : Resolved (c :: e) (lexemesList ds ++ behind) inner)
      (hds : Resolved e behind ds) :
      Resolved e behind (containerNode c opener inner none after :: ds)
  | group {e behind kind before first rest after ds} (hk : NodeKind.isContainer kind = false)
      (hparts : Resolved e (lexemesList ds ++ behind) (first :: rest))
      (hds : Resolved e behind ds) :
      Resolved e behind (node kind before first rest after :: ds)

/-! ## Rows -/

theorem resolved_cons {e : List Container} {behind : List Lexeme} {d : Draft} {ds : List Draft} :
    Resolved e behind (d :: ds) ↔
      Resolved e (lexemesList ds ++ behind) [d] ∧ Resolved e behind ds := by
  constructor
  · intro h
    cases h with
    | token hl hds => exact ⟨.token hl .nil, hds⟩
    | tooDeep ho hds => exact ⟨.tooDeep ho .nil, hds⟩
    | closed ho hc hinner hds => exact ⟨.closed ho hc hinner .nil, hds⟩
    | unclosed ho hnext hinner hds => exact ⟨.unclosed ho hnext hinner .nil, hds⟩
    | group hk hparts hds => exact ⟨.group hk hparts .nil, hds⟩
  · rintro ⟨h, hds⟩
    cases h with
    | token hl => exact .token hl hds
    | tooDeep ho => exact .tooDeep ho hds
    | closed ho hc hinner => exact .closed ho hc hinner hds
    | unclosed ho hnext hinner => exact .unclosed ho hnext hinner hds
    | group hk hparts => exact .group hk hparts hds

theorem resolved_append {e : List Container} {behind : List Lexeme} {ds es : List Draft} :
    Resolved e behind (ds ++ es) ↔
      Resolved e (lexemesList es ++ behind) ds ∧ Resolved e behind es := by
  induction ds with
  | nil => simp [Resolved.nil]
  | cons d ds ih =>
    have hcons : Resolved e (lexemesList es ++ behind) (d :: ds) ↔
        Resolved e (lexemesList ds ++ (lexemesList es ++ behind)) [d] ∧
          Resolved e (lexemesList es ++ behind) ds := resolved_cons
    rw [List.cons_append, resolved_cons, hcons, ih, lexemesList_append, List.append_assoc,
      and_assoc]

/-- Regrouping does not change how brackets pair up. -/
theorem resolved_of_regrouped {ds es : List Draft} (h : Regrouped ds es) {e : List Container}
    {behind : List Lexeme} (hds : Resolved e behind ds) : Resolved e behind es := by
  induction h with
  | nil => exact hds
  | keep d h ih =>
    rw [resolved_cons] at hds ⊢
    rw [lexemesList_of_regrouped h]
    exact ⟨hds.1, ih hds.2⟩
  | group hk h ih =>
    obtain ⟨hparts, hes⟩ := resolved_append.mp (ih hds)
    exact .group hk hparts hes

/-! ## Pieces -/

theorem closesAny_cons (c : Container) (e : List Container) (kind : TokenKind) :
    closesAny (c :: e) kind = (c.closer == kind || closesAny e kind) :=
  List.any_cons

theorem closesAny_of_ne {e : List Container} {c : Container} {kind : TokenKind}
    (h : closesAny (c :: e) kind = true) (hne : kind ≠ c.closer) : closesAny e kind = true := by
  rw [closesAny_cons, beq_false_of_ne hne.symm] at h
  exact h

theorem resolved_tooDeep {e : List Container} {behind : List Lexeme} {opener : Lexeme}
    (ho : opener.kind.isOpener = true) (run : List Lexeme) :
    Resolved e behind [tooDeep opener run] :=
  .group rfl (.tooDeep ho .nil) .nil

theorem resolved_close {e : List Container} {eof : Token} {c : Container} {opener : Lexeme}
    {ds : List Draft} {rest : List Lexeme} (ho : opener.kind = c.opener)
    (hds : Resolved (c :: e) rest ds) (hrest : ∀ l ∈ rest.head?, closesAny (c :: e) l.kind = true) :
    Resolved e (close eof c opener ds rest).2 [(close eof c opener ds rest).1] := by
  have hinner (stop : Token) : Resolved (c :: e) rest (contents c stop ds) :=
    resolved_of_regrouped (regrouped_contents c stop ds) hds
  cases rest with
  | nil =>
    rw [close]
    exact .group rfl (.unclosed ho (by simp) (hinner eof) .nil) .nil
  | cons l ls =>
    rw [close]
    split
    · rename_i hl
      exact .group rfl (.closed ho (by simpa using hl) (hinner l.token) .nil) .nil
    · rename_i hl
      have hne : l.kind ≠ c.closer := by simpa using hl
      have hclose : closesAny e l.kind = true := closesAny_of_ne (hrest l rfl) hne
      exact .group rfl (.unclosed ho (by simp [hclose, hne]) (hinner l.token) .nil) .nil

/-- Pairing brackets goes on up to a closer that a container further out waits for. -/
theorem resolved_pieceAt_pieces (eof : Token) :
    (∀ e l ls, closesAny e l.kind = false →
      Resolved e (pieceAt eof e l ls).2 [(pieceAt eof e l ls).1]) ∧
    ∀ e ls, Resolved e (pieces eof e ls).2 (pieces eof e ls).1 ∧
      ∀ l ∈ (pieces eof e ls).2.head?, closesAny e l.kind = true := by
  apply pieceAt_pieces_induction eof
  case token =>
    intro e l ls ho hl
    rw [pieceAt_of_opens?_eq_none ho]
    exact .token hl .nil
  case nested =>
    intro e l ls c ho he ih _
    rw [pieceAt_of_opens?_eq_some ho, if_pos he]
    exact resolved_close (Container.opens?_eq_some.mp ho) ih.1 ih.2
  case deep =>
    intro e l ls c ho he _
    rw [pieceAt_of_opens?_eq_some ho, if_neg (by omega)]
    exact resolved_tooDeep (isOpener_of_opens? ho) _
  case nil =>
    intro e
    rw [pieces_nil]
    exact ⟨.nil, by simp⟩
  case cons =>
    intro e l ls hpiece hmore
    rw [pieces_cons]
    split
    · rename_i hl
      exact ⟨.nil, by simpa using hl⟩
    · rename_i hl
      have hl : closesAny e l.kind = false := by simpa using hl
      have hone := hpiece hl
      refine ⟨resolved_cons.mpr ⟨?_, hmore.1⟩, hmore.2⟩
      rwa [lexemes_pieces]

theorem resolved_pieceAt (eof : Token) {e : List Container} {l : Lexeme}
    (hl : closesAny e l.kind = false) (ls : List Lexeme) :
    Resolved e (pieceAt eof e l ls).2 [(pieceAt eof e l ls).1] :=
  (resolved_pieceAt_pieces eof).1 e l ls hl

end Maml.Draft

namespace Maml

open Draft

/-- The brackets of a document's value are paired up; there is nothing around it. -/
theorem resolved_documentDrafts (eof : Token) (ls : List Lexeme) :
    (∃ d rest, documentDrafts eof ls = d :: trailing rest ∧ Resolved [] rest [d]) ∨
      documentDrafts eof ls = trailing ls := by
  unfold documentDrafts
  split
  · exact .inr rfl
  · rename_i l ls
    split
    · refine .inl ⟨_, _, rfl, ?_⟩
      exact resolved_of_regrouped (regrouped_asValue _ .nil) (resolved_pieceAt eof rfl ls)
    · exact .inr rfl

end Maml
