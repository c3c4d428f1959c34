import Maml.Draft.Members

/-! How brackets pair up.

A closer belongs to the innermost open container it can close, and containers
inside that one end there without a closer of their own. A closer that no open
container can take is a token like any other. Containers nested deeper than
`Container.maxDepth` are not looked into.

`pieceAt` reads one piece, `pieces` reads pieces up to a closer of an open
container or the end of the input. Both answer what is left, which is never
longer than what they were given. -/
namespace Maml.Draft

/-- How many brackets are open behind a token, if `depth` are open in front of it. -/
def depthAfter (depth : Nat) (kind : TokenKind) : Nat :=
  if kind.isOpener then depth + 1 else if kind.isCloser then depth - 1 else depth

/-- The tokens up to the point where as many brackets were closed as opened, starting with
`depth` open ones, and the tokens behind. -/
def balancedRun (depth : Nat) : List Lexeme → List Lexeme × List Lexeme
  | [] => ([], [])
  | l :: ls =>
    if depth = 0 then
      ([], l :: ls)
    else
      let run := balancedRun (depthAfter depth l.kind) ls
      (l :: run.1, run.2)

theorem length_balancedRun_le (depth : Nat) (ls : List Lexeme) :
    (balancedRun depth ls).2.length ≤ ls.length := by
  induction ls generalizing depth with
  | nil => simp [balancedRun]
  | cons l ls ih =>
    unfold balancedRun
    split
    · exact Nat.le_refl _
    · exact Nat.le_trans (ih _) (Nat.le_succ _)

/-- What a container contains, from the pieces between its brackets. -/
def contents (c : Container) (stop : Token) (ds : List Draft) : List Draft :=
  match c with
  | .object => members stop true ds
  | .array => items true ds

/-- The container behind which `rest` is left once it has taken its closer. -/
def close (eof : Token) (c : Container) (opener : Lexeme) (ds : List Draft)
    (rest : List Lexeme) : Draft × List Lexeme :=
  match rest with
  | l :: ls =>
    if l.kind == c.closer then
      (container c opener (contents c l.token ds) (some l) l.token, ls)
    else
      -- a container further out is closed, and this one ends with it
      (container c opener (contents c l.token ds) none l.token, l :: ls)
  | [] => (container c opener (contents c eof ds) none eof, [])

theorem length_close_le (eof : Token) (c : Container) (opener : Lexeme) (ds : List Draft)
    (rest : List Lexeme) : (close eof c opener ds rest).2.length ≤ rest.length := by
  unfold close
  split
  · split
    · exact Nat.le_succ _
    · exact Nat.le_refl _
  · exact Nat.le_refl _

/-- Whether a token closes one of the containers around it. -/
def closesAny (enclosing : List Container) (kind : TokenKind) : Bool :=
  enclosing.any (·.closer == kind)

mutual

/-- The piece that begins with a lexeme, and what is left behind it. -/
def pieceAux (eof : Token) (enclosing : List Container) (l : Lexeme) (ls : List Lexeme) :
    { r : Draft × List Lexeme // r.2.length ≤ ls.length } :=
  match l.kind.opens? with
  | none => ⟨(leaf l, ls), Nat.le_refl _⟩
  | some c =>
    if enclosing.length < Container.maxDepth then
      let inner := piecesAux eof (c :: enclosing) ls
      ⟨close eof c l inner.1.1 inner.1.2,
        Nat.le_trans (length_close_le eof c l inner.1.1 inner.1.2) inner.2⟩
    else
      ⟨(tooDeep l (balancedRun 1 ls).1, (balancedRun 1 ls).2), length_balancedRun_le 1 ls⟩
termination_by 2 * ls.length + 1

/-- The pieces up to a closer of an open container or the end, and what is left behind them. -/
def piecesAux (eof : Token) (enclosing : List Container) (ls : List Lexeme) :
    { r : List Draft × List Lexeme // r.2.length ≤ ls.length } :=
  match ls with
  | [] => ⟨([], []), Nat.le_refl _⟩
  | l :: ls =>
    if closesAny enclosing l.kind then
      -- the closer is left to the container it belongs to
      ⟨([], l :: ls), Nat.le_refl _⟩
    else
      have ⟨one, hone⟩ := pieceAux eof enclosing l ls
      have ⟨more, hmore⟩ := piecesAux eof enclosing one.2
      ⟨(one.1 :: more.1, more.2), Nat.le_trans hmore (Nat.le_trans hone (Nat.le_succ _))⟩
termination_by 2 * ls.length
decreasing_by
  · simp only [List.length_cons]
    omega
  · simp only [List.length_cons]
    omega

end

/-- The piece that begins with a lexeme, and what is left behind it: a token that opens no
container stands for itself. -/
def pieceAt (eof : Token) (enclosing : List Container) (l : Lexeme) (ls : List Lexeme) :
    Draft × List Lexeme :=
  (pieceAux eof enclosing l ls).1

/-- The pieces up to a closer of an open container or the end, and what is left behind them. -/
def pieces (eof : Token) (enclosing : List Container) (ls : List Lexeme) :
    List Draft × List Lexeme :=
  (piecesAux eof enclosing ls).1

theorem length_pieceAt_le (eof : Token) (enclosing : List Container) (l : Lexeme)
    (ls : List Lexeme) : (pieceAt eof enclosing l ls).2.length ≤ ls.length :=
  (pieceAux eof enclosing l ls).2

theorem pieceAt_of_opens?_eq_none {eof : Token} {enclosing : List Container} {l : Lexeme}
    {ls : List Lexeme} (h : l.kind.opens? = none) :
    pieceAt eof enclosing l ls = (leaf l, ls) := by
  rw [pieceAt, pieceAux]
  split
  · rfl
  · simp_all

theorem pieceAt_of_opens?_eq_some {eof : Token} {enclosing : List Container} {l : Lexeme}
    {ls : List Lexeme} {c : Container} (h : l.kind.opens? = some c) :
    pieceAt eof enclosing l ls =
      if enclosing.length < Container.maxDepth then
        close eof c l (pieces eof (c :: enclosing) ls).1 (pieces eof (c :: enclosing) ls).2
      else
        (tooDeep l (balancedRun 1 ls).1, (balancedRun 1 ls).2) := by
  rw [pieceAt, pieceAux]
  split
  · simp_all
  · rename_i c' h'
    obtain rfl : c = c' := by simpa [h] using h'
    split <;> rfl

@[simp] theorem pieces_nil (eof : Token) (enclosing : List Container) :
    pieces eof enclosing [] = ([], []) := by
  rw [pieces, piecesAux]

theorem pieces_cons (eof : Token) (enclosing : List Container) (l : Lexeme) (ls : List Lexeme) :
    pieces eof enclosing (l :: ls) =
      if closesAny enclosing l.kind then
        ([], l :: ls)
      else
        let one := pieceAt eof enclosing l ls
        let more := pieces eof enclosing one.2
        (one.1 :: more.1, more.2) := by
  rw [pieces, piecesAux]
  split <;> rfl

/-- What is true of a piece as soon as it is true of the pieces in it, and of a row of pieces as
soon as it is true of the first and of those behind it, is true of all. -/
theorem pieceAt_pieces_induction (eof : Token) {P : List Container → Lexeme → List Lexeme → Prop}
    {Q : List Container → List Lexeme → Prop}
    (token : ∀ e l ls, l.kind.opens? = none → P e l ls)
    (nested : ∀ e l ls c, l.kind.opens? = some c → e.length < Container.maxDepth →
      Q (c :: e) ls → P e l ls)
    (deep : ∀ e l ls c, l.kind.opens? = some c → Container.maxDepth ≤ e.length → P e l ls)
    (nil : ∀ e, Q e [])
    (cons : ∀ e l ls, P e l ls → Q e (pieceAt eof e l ls).2 → Q e (l :: ls)) :
    (∀ e l ls, P e l ls) ∧ ∀ e ls, Q e ls := by
  -- a row of `m` lexemes comes before a piece with `m` behind its first one, and that before a
  -- row of `m + 1`
  have hall : ∀ n e, (∀ l ls, 2 * ls.length + 1 ≤ n → P e l ls) ∧
      (∀ ls, 2 * ls.length ≤ n → Q e ls) := by
    intro n
    induction n with
    | zero =>
      intro e
      refine ⟨fun l ls h => absurd h (by omega), ?_⟩
      intro ls h
      obtain rfl : ls = [] := List.eq_nil_of_length_eq_zero (by omega)
      exact nil e
    | succ n ih =>
      intro e
      refine ⟨fun l ls h => ?_, fun ls h => ?_⟩
      · cases ho : l.kind.opens? with
        | none => exact token e l ls ho
        | some c =>
          by_cases he : e.length < Container.maxDepth
          · exact nested e l ls c ho he ((ih (c :: e)).2 ls (by omega))
          · exact deep e l ls c ho (by omega)
      · cases ls with
        | nil => exact nil e
        | cons l ls =>
          rw [List.length_cons] at h
          have hlen := length_pieceAt_le eof e l ls
          exact cons e l ls ((ih e).1 l ls (by omega)) ((ih e).2 _ (by omega))
  exact ⟨fun e l ls => (hall _ e).1 l ls (Nat.le_refl _), fun e ls => (hall _ e).2 ls (Nat.le_refl _)⟩

end Maml.Draft
