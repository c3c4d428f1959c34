import Maml.Proofs.Closers
import Maml.Proofs.Moving

/-! Pieces read elsewhere.

1. What holds of every node of a row holds of every node of the pieces of which it is made
   (`everyNode_of_regrouped`, `everyNode_of_close`).
2. A piece with nothing nested too deep in it is read alike at another place, in fewer
   containers and in front of something else, if that ends the same containers
   (`pieceAlike_rowAlike`). -/
namespace Maml.Draft

/-! ## Every node of the pieces -/

section
variable {P : Draft → Prop}

/-- What holds of every node of a row holds of every node of its pieces. -/
theorem everyNode_of_regrouped {ds es : List Draft} (h : Regrouped ds es)
    (hes : EveryNode P es) : EveryNode P ds := by
  induction h with
  | nil => exact everyNode_nil
  | keep d h ih =>
    obtain ⟨hd, hes⟩ := everyNode_cons_iff.mp hes
    exact everyNode_cons hd (ih hes)
  | group hk h ih =>
    obtain ⟨hnode, hes⟩ := everyNode_cons_iff.mp hes
    exact ih (everyNode_append_iff.mpr ⟨(everyNode_node_iff.mp hnode).2, hes⟩)

theorem exists_close (eof : Token) (c : Container) (opener : Lexeme) (ds : List Draft)
    (rest : List Lexeme) : ∃ stop closer after, (close eof c opener ds rest).1 =
      plain .value (containerNode c opener (contents c stop ds) closer after) [] := by
  unfold close
  split
  · split <;> exact ⟨_, _, _, rfl⟩
  · exact ⟨_, _, _, rfl⟩

/-- What holds of every node of a container holds of every node of the pieces in it. -/
theorem everyNode_of_close {eof : Token} {c : Container} {opener : Lexeme} {ds : List Draft}
    {rest : List Lexeme} (h : EveryNode P [(close eof c opener ds rest).1]) : EveryNode P ds := by
  obtain ⟨stop, closer, after, hclose⟩ := exists_close eof c opener ds rest
  rw [hclose] at h
  have hparts := (everyNode_cons_iff.mp (everyNode_node_iff.mp (everyNode_node_iff.mp h).2).2).2
  have hlist := (everyNode_append_iff.mp hparts).1
  refine everyNode_of_regrouped (regrouped_contents c stop ds) ?_
  cases hcontents : contents c stop ds with
  | nil => exact everyNode_nil
  | cons d ds' =>
    rw [hcontents] at hlist
    exact (everyNode_node_iff.mp hlist).2

end

/-! ## Reading alike -/

def Shallow (ds : List Draft) : Prop := EveryNode (fun d => d.tree.isTooDeep = false) ds

theorem not_shallow_tooDeep {opener : Lexeme} {run : List Lexeme}
    (ho : opener.kind.isOpener = true) : ¬ Shallow [tooDeep opener run] := by
  intro h
  have hinvalid := (everyNode_node_iff.mp (everyNode_node_iff.mp h).2).1
  rw [isTooDeep_node none (run.map leaf) _ ho] at hinvalid
  exact absurd hinvalid Bool.false_ne_true.symm

/-- What is behind a row, `rest` in the containers `e` and `tail` in the containers `f`: nothing, or
a token of the same kind that ends the row if it does so in `e`. -/
inductive EndsAlike (e f : List Container) : List Lexeme → List Lexeme → Prop where
  | nothing {rest} : EndsAlike e f rest []
  | token {r t rest tail} (hkind : t.kind = r.kind)
      (hcloses : closesAny e r.kind = true → closesAny f r.kind = true) :
      EndsAlike e f (r :: rest) (t :: tail)

/-- Lexemes that differ only in where they stand, by a number of bytes. -/
def SameButMoved (k : Nat) (ls' ls : List Lexeme) : Prop :=
  ls'.map (Lexeme.moved k) = ls.map (Lexeme.moved 0)

theorem kind_of_moved {k : Nat} {l l' : Lexeme} (h : l'.moved k = l.moved 0) :
    l'.kind = l.kind := by
  rw [← Lexeme.kind_moved k l', h, Lexeme.kind_moved]

theorem SameButMoved.exists_append {k : Nat} {ls' ls ms : List Lexeme}
    (h : SameButMoved k ls' (ls ++ ms)) :
    ∃ ls₁ ls₂, ls' = ls₁ ++ ls₂ ∧ SameButMoved k ls₁ ls ∧ SameButMoved k ls₂ ms := by
  rw [SameButMoved, List.map_append] at h
  exact List.map_eq_append_iff.mp h

theorem SameButMoved.exists_cons {k : Nat} {ls' ls : List Lexeme} {l : Lexeme}
    (h : SameButMoved k ls' (l :: ls)) :
    ∃ l₁ ls₂, ls' = l₁ :: ls₂ ∧ l₁.moved k = l.moved 0 ∧ SameButMoved k ls₂ ls := by
  rw [SameButMoved, List.map_cons] at h
  exact List.map_eq_cons_iff.mp h

theorem sameButMoved_cons {k : Nat} {l l' : Lexeme} {ls ls' : List Lexeme} :
    SameButMoved k (l' :: ls') (l :: ls) ↔ l'.moved k = l.moved 0 ∧ SameButMoved k ls' ls :=
  List.cons_eq_cons

theorem sameButMoved_nil {k : Nat} {ls' : List Lexeme} : SameButMoved k ls' [] ↔ ls' = [] :=
  List.map_eq_nil_iff

section
variable (eof eof' : Token) (k : Nat)

/-- Whether a piece is read alike at another place, in the innermost of its containers, and in front
of something else. -/
def PieceAlike (e : List Container) (l : Lexeme) (ls : List Lexeme) : Prop :=
  ∀ f outer l' ms tail, e = f ++ outer →
    SameButMoved k (l' :: ms) (pieceAt eof e l ls).1.lexemes →
    Shallow [(pieceAt eof e l ls).1] → EndsAlike e f (pieceAt eof e l ls).2 tail →
    ∃ d, pieceAt eof' f l' (ms ++ tail) = (d, tail) ∧
      d.moved k = (pieceAt eof e l ls).1.moved 0

def RowAlike (e : List Container) (ls : List Lexeme) : Prop :=
  ∀ f outer ms tail, e = f ++ outer →
    SameButMoved k ms (lexemesList (pieces eof e ls).1) →
    Shallow (pieces eof e ls).1 → EndsAlike e f (pieces eof e ls).2 tail →
    ∃ ds, pieces eof' f (ms ++ tail) = (ds, tail) ∧
      movedRow k ds = movedRow 0 (pieces eof e ls).1

end

section
variable {eof eof' : Token} {k : Nat} {e : List Container}

theorem closesAny_append (f outer : List Container) (kind : TokenKind) :
    closesAny (f ++ outer) kind = (closesAny f kind || closesAny outer kind) :=
  List.any_append

/-- What ends a container without its closer ends its row of pieces. -/
theorem EndsAlike.enclosed {f : List Container} {c : Container} {rest tail : List Lexeme}
    (h : EndsAlike e f rest tail) (hends : ∀ r ∈ rest.head?, closesAny (c :: e) r.kind = true)
    (hne : ∀ r ∈ rest.head?, r.kind ≠ c.closer) :
    EndsAlike (c :: e) (c :: f) rest tail ∧ ∀ t ∈ tail.head?, t.kind ≠ c.closer := by
  cases h with
  | nothing => exact ⟨.nothing, by simp⟩
  | @token r t rest tail hkind hcloses =>
    have hother : r.kind ≠ c.closer := hne r rfl
    have hclose := hcloses (closesAny_of_ne (hends r rfl) hother)
    refine ⟨.token hkind fun _ => ?_, ?_⟩
    · rw [closesAny_cons, hclose, Bool.or_true]
    · intro t' ht'
      obtain rfl : t = t' := by simpa using ht'
      rwa [hkind]

theorem close_closer {c : Container} {opener closer : Lexeme} (hc : closer.kind = c.closer)
    (ds : List Draft) (rest : List Lexeme) : close eof c opener ds (closer :: rest) =
      (container c opener (contents c closer.token ds) (some closer) closer.token, rest) := by
  rw [close, if_pos (by rw [hc, beq_self_eq_true])]

theorem close_other (eof : Token) {c : Container} {rest : List Lexeme}
    (h : ∀ r ∈ rest.head?, r.kind ≠ c.closer) (opener : Lexeme) (ds : List Draft) :
    ∃ next, close eof c opener ds rest =
      (container c opener (contents c next ds) none next, rest) := by
  cases rest with
  | nil => exact ⟨eof, rfl⟩
  | cons r rest =>
    have hr : r.kind ≠ c.closer := h r rfl
    exact ⟨r.token, by rw [close, if_neg (by simp [hr])]⟩

theorem firstLexeme_of_lexemes {d : Draft} {l : Lexeme} {ls : List Lexeme}
    (h : d.lexemes = l :: ls) : d.firstLexeme = l := by
  obtain ⟨ms, hms⟩ := exists_lexemes_eq_cons d
  rw [hms] at h
  exact (List.cons.inj h).1

theorem exists_lexemes_pieceAt (eof : Token) (e : List Container) (l : Lexeme) (ls : List Lexeme) :
    ∃ ms, (pieceAt eof e l ls).1.lexemes = l :: ms := by
  have hall := lexemes_pieceAt eof e l ls
  obtain ⟨ms, hms⟩ := exists_lexemes_eq_cons (pieceAt eof e l ls).1
  rw [hms] at hall
  exact ⟨ms, by rw [hms, (List.cons.inj hall).1]⟩

theorem pieceAlike_nested {l : Lexeme} {ls : List Lexeme} {c : Container}
    (ho : l.kind.opens? = some c) (he : e.length < Container.maxDepth)
    (hrow : RowAlike eof eof' k (c :: e) ls) : PieceAlike eof eof' k e l ls := by
  intro f outer l' ms tail hf
  have hends := ((resolved_pieceAt_pieces eof).2 (c :: e) ls).2
  have hinner := fun us tail' => hrow (c :: f) outer us tail' (by rw [hf, List.cons_append])
  rw [pieceAt_of_opens?_eq_some ho, if_pos he]
  generalize pieces eof (c :: e) ls = inner at hends hinner ⊢
  obtain ⟨ds, rest⟩ := inner
  simp only at hends hinner ⊢
  intro hsame hshallow htail
  have hinside : Shallow ds := everyNode_of_close hshallow
  have hdepth : f.length < Container.maxDepth := by
    rw [hf, List.length_append] at he
    omega
  have hpiece (us : List Lexeme) (hl : l'.moved k = l.moved 0) : pieceAt eof' f l' us =
      close eof' c l' (pieces eof' (c :: f) us).1 (pieces eof' (c :: f) us).2 := by
    rw [pieceAt_of_opens?_eq_some (by rw [kind_of_moved hl, ho]), if_pos hdepth]
  by_cases hown : ∃ r rest', rest = r :: rest' ∧ r.kind = c.closer
  · -- the closer is among the lexemes of the piece
    obtain ⟨r, rest, rfl, hr⟩ := hown
    rw [close_closer hr] at hsame ⊢
    rw [lexemes_container, lexemesList_contents, List.cons_append, Option.toList_some,
      sameButMoved_cons] at hsame
    obtain ⟨us, vs, rfl, hus, hvs⟩ := hsame.2.exists_append
    obtain ⟨r', vs, rfl, hr', hvs⟩ := hvs.exists_cons
    obtain rfl := sameButMoved_nil.mp hvs
    have hclose : closesAny (c :: f) r.kind = true := by
      rw [closesAny_cons, hr, beq_self_eq_true, Bool.true_or]
    obtain ⟨ds', hds', hmoved⟩ := hinner us (r' :: tail) hus hinside
      (.token (kind_of_moved hr') fun _ => hclose)
    rw [List.append_assoc, List.singleton_append, hpiece _ hsame.1, hds',
      close_closer (by rw [kind_of_moved hr', hr])]
    exact ⟨_, rfl, moved_container_contents hsame.1 hmoved (by simp [hr']) c _ _ r.token _⟩
  · -- whatever is behind the piece ends it
    have hne : ∀ r ∈ rest.head?, r.kind ≠ c.closer := by
      intro r hr hkind
      obtain ⟨rest', hrest⟩ := List.head?_eq_some_iff.mp hr
      exact hown ⟨r, rest', hrest, hkind⟩
    obtain ⟨next, hclose⟩ := close_other eof hne l ds
    rw [hclose] at hsame htail ⊢
    rw [lexemes_container, lexemesList_contents, Option.toList_none, List.append_nil,
      sameButMoved_cons] at hsame
    obtain ⟨hbehind, hne'⟩ := htail.enclosed hends hne
    obtain ⟨ds', hds', hmoved⟩ := hinner ms tail hsame.2 hinside hbehind
    obtain ⟨next', hclose'⟩ := close_other eof' hne' l' ds'
    rw [hpiece _ hsame.1, hds', hclose']
    exact ⟨_, rfl, moved_container_contents hsame.1 hmoved rfl c _ _ _ _⟩

theorem endsAlike_append {f : List Container} {rest vs tail : List Lexeme}
    (hvs : SameButMoved k vs (lexemesList (pieces eof e rest).1))
    (htail : EndsAlike e f (pieces eof e rest).2 tail) : EndsAlike e f rest (vs ++ tail) := by
  cases rest with
  | nil =>
    rw [pieces_nil] at hvs htail
    obtain rfl := sameButMoved_nil.mp hvs
    exact htail
  | cons r rest =>
    rw [pieces_cons] at hvs htail
    by_cases hr : closesAny e r.kind = true
    · rw [if_pos hr] at hvs htail
      obtain rfl := sameButMoved_nil.mp hvs
      exact htail
    · obtain ⟨ms, hms⟩ := exists_lexemes_pieceAt eof e r rest
      rw [if_neg hr, lexemesList_cons, hms] at hvs
      obtain ⟨v, vs, rfl, hv, -⟩ := hvs.exists_cons
      exact .token (kind_of_moved hv) fun h => absurd h hr

theorem rowAlike_cons {l : Lexeme} {ls : List Lexeme} (hpiece : PieceAlike eof eof' k e l ls)
    (hmore : RowAlike eof eof' k e (pieceAt eof e l ls).2) : RowAlike eof eof' k e (l :: ls) := by
  intro f outer ms tail hf
  rw [pieces_cons]
  by_cases hl : closesAny e l.kind = true
  · -- nothing is read
    rw [if_pos hl]
    intro hsame _ htail
    obtain rfl := sameButMoved_nil.mp hsame
    refine ⟨[], ?_, rfl⟩
    cases htail with
    | nothing => exact pieces_nil eof' f
    | token hkind hcloses =>
      rw [List.nil_append, pieces_cons, if_pos (by rw [hkind]; exact hcloses hl)]
  · rw [if_neg hl]
    intro hsame hshallow htail
    obtain ⟨hone, hrow⟩ := everyNode_cons_iff.mp hshallow
    rw [lexemesList_cons] at hsame
    obtain ⟨us, vs, rfl, hus, hvs⟩ := hsame.exists_append
    obtain ⟨ls', hls'⟩ := exists_lexemes_pieceAt eof e l ls
    have hfirst := hls' ▸ hus
    obtain ⟨l', us, rfl, hl', -⟩ := hfirst.exists_cons
    have hopen : ¬ closesAny f l'.kind = true := by
      rw [hf, closesAny_append, Bool.or_eq_true, not_or] at hl
      rw [kind_of_moved hl']
      exact hl.1
    obtain ⟨d, hd, hdmoved⟩ :=
      hpiece f outer l' us (vs ++ tail) hf hus hone (endsAlike_append hvs htail)
    obtain ⟨ds, hds, hdsmoved⟩ := hmore f outer vs tail hf hvs hrow htail
    rw [List.append_assoc, List.cons_append, pieces_cons, if_neg hopen, hd]
    simp only [hds]
    exact ⟨d :: ds, rfl, by rw [movedRow_cons, hdmoved, hdsmoved]; rfl⟩

/-- What is read as one piece, or as a row of pieces, with nothing nested too deep in it, is read
alike elsewhere. -/
theorem pieceAlike_rowAlike (eof eof' : Token) (k : Nat) :
    (∀ e l ls, PieceAlike eof eof' k e l ls) ∧ ∀ e ls, RowAlike eof eof' k e ls := by
  apply pieceAt_pieces_induction eof
  case token =>
    intro e l ls ho f outer l' ms tail hf
    rw [pieceAt_of_opens?_eq_none ho]
    intro hsame _ _
    obtain ⟨hl, hms⟩ := sameButMoved_cons.mp hsame
    obtain rfl := sameButMoved_nil.mp hms
    rw [List.nil_append, pieceAt_of_opens?_eq_none (by rw [kind_of_moved hl, ho])]
    exact ⟨_, rfl, congrArg leaf hl⟩
  case nested => exact fun e l ls c ho he ih => pieceAlike_nested ho he ih
  case deep =>
    intro e l ls c ho he f outer l' ms tail hf
    rw [pieceAt_of_opens?_eq_some ho, if_neg (by omega)]
    intro _ hshallow _
    exact absurd hshallow (not_shallow_tooDeep (isOpener_of_opens? ho))
  case nil =>
    intro e f outer ms tail hf
    rw [pieces_nil]
    intro hsame _ htail
    obtain rfl := sameButMoved_nil.mp hsame
    obtain rfl : tail = [] := by cases htail; rfl
    exact ⟨[], pieces_nil eof' f, rfl⟩
  case cons => exact fun e l ls hpiece hmore => rowAlike_cons hpiece hmore

end

end Maml.Draft
