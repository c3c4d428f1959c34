import Maml.Proofs.Shape
import Maml.Proofs.Taking

/-! The pieces in front of a reader, and what it sees of them.

1. `Ahead` says which pieces are in front of a reader and what is left behind them. The
   pieces that the pairing of brackets makes are always in front of it (`ahead_pieces`).
2. A container ends exactly where there is no piece (`atContainerEnd_reader`).
3. Every other test of a reader shows in the first piece, or in the first two
   (`startsValue_next_reader`, `atMemberResume_reader`, `atMissingValue_reader`). -/
namespace Maml.Reader

open Draft

/-! ## Kinds of tokens -/

/-- A test that no opener passes fails of what opens a container. -/
theorem eq_false_of_opens? (test : TokenKind → Bool) (htest : ∀ c : Container, test c.opener = false)
    {kind : TokenKind} {c : Container} (ho : kind.opens? = some c) : test kind = false := by
  rw [Container.opens?_eq_some.mp ho]
  exact htest c

/-- A test that neither the end of the input nor a closer passes fails where no piece is. -/
theorem eq_false_nextOf (z : Ending) (test : TokenKind → Bool) (hend : test .eof = false)
    (htest : ∀ c : Container, test c.closer = false) {e : List Container} {rest : List Lexeme}
    (h : ∀ l ∈ rest.head?, closesAny e l.kind = true) : test (nextOf z.eof rest).kind = false := by
  cases rest with
  | nil =>
    rw [nextOf, z.kind_eof]
    exact hend
  | cons l ls =>
    obtain ⟨c, _, hc⟩ := List.any_eq_true.mp (h l rfl)
    have hl : l.token.kind = c.closer := (beq_iff_eq.mp hc).symm
    rw [nextOf, hl]
    exact htest c

/-! ## Pieces ahead -/

/-- The pieces in front of a reader inside containers, and what is left behind them. -/
inductive Ahead (eof : Token) (e : List Container) : List Lexeme → List Draft → List Lexeme → Prop where
  | done {ls} (h : ∀ l ∈ ls.head?, closesAny e l.kind = true) : Ahead eof e ls [] ls
  | token {l ls ds rest} (hc : closesAny e l.kind = false) (ho : l.kind.opens? = none)
      (h : Ahead eof e ls ds rest) : Ahead eof e (l :: ls) (leaf l :: ds) rest
  | value {c l ls first ds rest} (hc : closesAny e l.kind = false) (ho : l.kind.opens? = some c)
      (hpiece : (pieceAt eof e l ls).1 = plain .value first [])
      (h : Ahead eof e (pieceAt eof e l ls).2 ds rest) :
      Ahead eof e (l :: ls) (plain .value first [] :: ds) rest

theorem Ahead.eq_of_nil {eof : Token} {e : List Container} {ls rest : List Lexeme}
    (h : Ahead eof e ls [] rest) : ls = rest := by
  cases h
  rfl

theorem Ahead.closes_of_nil {eof : Token} {e : List Container} {ls rest : List Lexeme}
    (h : Ahead eof e ls [] rest) : ∀ l ∈ rest.head?, closesAny e l.kind = true := by
  cases h with
  | done h => exact h

theorem exists_plain_pieceAt (eof : Token) (e : List Container) {c : Container} {l : Lexeme}
    (ls : List Lexeme) (ho : l.kind.opens? = some c) :
    ∃ first, (pieceAt eof e l ls).1 = plain .value first [] := by
  have hshaped := shaped_pieceAt eof e l ls
  revert hshaped
  rw [pieceAt_of_opens?_eq_some ho]
  split
  · unfold close container
    split <;> try split
    all_goals exact fun _ => ⟨_, rfl⟩
  · exact fun _ => ⟨_, rfl⟩

/-- The pairing of brackets cuts what is in front of a reader into these pieces. -/
theorem ahead_pieces (eof : Token) (e : List Container) (ls : List Lexeme) :
    Ahead eof e ls (pieces eof e ls).1 (pieces eof e ls).2 := by
  -- the pieces inside a container are not looked into, so nothing is said of a single piece
  refine (pieceAt_pieces_induction eof (P := fun _ _ _ => True)
    (Q := fun e ls => Ahead eof e ls (pieces eof e ls).1 (pieces eof e ls).2)
    (fun _ _ _ _ => trivial) (fun _ _ _ _ _ _ _ => trivial) (fun _ _ _ _ _ _ => trivial)
    (fun e => ?_) fun e l ls _ hmore => ?_).2 e ls
  · rw [pieces_nil]
    exact .done (by simp)
  · rw [pieces_cons]
    split
    · rename_i hc
      exact .done (by simpa using hc)
    · rename_i hc
      cases ho : l.kind.opens? with
      | none =>
        rw [pieceAt_of_opens?_eq_none ho] at hmore ⊢
        exact .token (by simpa using hc) ho hmore
      | some c =>
        obtain ⟨first, hfirst⟩ := exists_plain_pieceAt eof e ls ho
        show Ahead eof e (l :: ls) ((pieceAt eof e l ls).1 :: _) _
        rw [hfirst]
        exact .value (by simpa using hc) ho hfirst hmore

theorem Ahead.cons_cases {eof : Token} {e : List Container} {ls rest : List Lexeme} {d : Draft}
    {ds : List Draft} (h : Ahead eof e ls (d :: ds) rest) :
    (∃ l ls', ls = l :: ls' ∧ d = leaf l ∧ l.kind.opens? = none ∧ Ahead eof e ls' ds rest) ∨
      (∃ c l ls' first, ls = l :: ls' ∧ l.kind.opens? = some c ∧ (pieceAt eof e l ls').1 = d ∧
        d = plain .value first [] ∧ Ahead eof e (pieceAt eof e l ls').2 ds rest) := by
  cases h with
  | token hc ho h => exact .inl ⟨_, _, rfl, rfl, ho, h⟩
  | value hc ho hpiece h => exact .inr ⟨_, _, _, _, rfl, ho, hpiece, rfl, h⟩

theorem Ahead.leaf_cases {eof : Token} {e : List Container} {ls rest : List Lexeme} {l : Lexeme}
    {ds : List Draft} (h : Ahead eof e ls (leaf l :: ds) rest) :
    ∃ ls', ls = l :: ls' ∧ l.kind.opens? = none ∧ Ahead eof e ls' ds rest := by
  cases h with
  | token hc ho h => exact ⟨_, rfl, ho, h⟩

variable {z : Ending} {p : Point} {nodes : List (NodeKind × List Tree)} {roots : List Tree}
  {errors : List ParseError} {ds : List Draft} {rest : List Lexeme}

/-! ## What a reader sees -/

theorem next_reader_of_ahead (hv : p.Valid) (h : Ahead z.eof p.enclosing p.lexemes ds rest) :
    (p.reader z nodes roots errors).next = nextToken (nextOf z.eof rest) ds := by
  rw [next_reader hv]
  generalize p.lexemes = ls at h
  cases h with
  | done => rfl
  | token => rfl
  | @value c l ls first ds rest hc ho hpiece h =>
    have hfirst : (pieceAt z.eof p.enclosing l ls).1.firstToken = l.token := by
      have hlexemes := lexemes_pieceAt z.eof p.enclosing l ls
      obtain ⟨ms, hms⟩ := exists_lexemes_eq_cons (pieceAt z.eof p.enclosing l ls).1
      rw [hms, List.cons_append] at hlexemes
      rw [firstToken, (List.cons.inj hlexemes).1]
    rw [hpiece] at hfirst
    exact hfirst.symm

theorem atContainerEnd_reader (hv : p.Valid) (h : Ahead z.eof p.enclosing p.lexemes ds rest) :
    (p.reader z nodes roots errors).atContainerEnd = ds.isEmpty := by
  have hnext : (p.reader z nodes roots errors).next = nextOf z.eof p.lexemes := next_reader hv
  have hne : ∀ l ls, p.lexemes = l :: ls → (l.kind == .eof) = false := by
    intro l ls hp
    exact beq_false_of_ne (hv l (by rw [hp]; exact List.mem_cons_self)).2
  rw [atContainerEnd, hnext]
  show ((nextOf z.eof p.lexemes).kind == .eof ||
    closesAny p.enclosing (nextOf z.eof p.lexemes).kind) = _
  generalize hls : p.lexemes = ls at h
  cases h with
  | done h =>
    cases rest with
    | nil => simp [nextOf, z.kind_eof]
    | cons l ls =>
      have hl : closesAny p.enclosing l.token.kind = true := h l rfl
      simp [nextOf, hl]
  | @token l ls ds rest hc ho h =>
    have hl : (l.token.kind == .eof) = false := hne l ls hls
    have hc : closesAny p.enclosing l.token.kind = false := hc
    simp [nextOf, hl, hc]
  | @value c l ls first ds rest hc ho hpiece h =>
    have hl : (l.token.kind == .eof) = false := hne l ls hls
    have hc : closesAny p.enclosing l.token.kind = false := hc
    simp [nextOf, hl, hc]

theorem next_reader_beq {d : Draft} (hv : p.Valid)
    (h : Ahead z.eof p.enclosing p.lexemes (d :: ds) rest) {kind : TokenKind}
    (hkind : kind.opens? = none) :
    ((p.reader z nodes roots errors).next.kind == kind) = d.isToken kind := by
  rcases h.cons_cases with ⟨l, ls, hp, rfl, _, _⟩ | ⟨c, l, ls, first, hp, ho, _, rfl, _⟩
  · rw [next_of_cons hv hp]
    rfl
  · rw [next_of_cons hv hp]
    apply beq_false_of_ne
    intro heq
    have ho : l.token.kind.opens? = some c := ho
    rw [heq, hkind] at ho
    simp at ho

theorem isSignedNumber_nextOf {e : List Container} {l : Lexeme} {ls : List Lexeme}
    (h : Ahead z.eof e ls ds rest)
    (hds : ∀ number ds', ds = leaf number :: ds' → isSignedNumber l.token number.token = false) :
    isSignedNumber l.token (nextOf z.eof ls) = false := by
  cases h with
  | done h =>
    exact isSignedNumber_of_ne (beq_eq_false_iff_ne.mp
      (eq_false_nextOf z (· == .number) rfl (by decide) h))
  | token => exact hds _ _ rfl
  | value hc ho =>
    exact isSignedNumber_of_ne (beq_eq_false_iff_ne.mp
      (eq_false_of_opens? (· == .number) (by decide) ho))

theorem nextOf_beq_colon {e : List Container} {ls : List Lexeme} (h : Ahead z.eof e ls ds rest) :
    ((nextOf z.eof ls).kind == .colon) = startsWithColon ds := by
  cases h with
  | done h => exact eq_false_nextOf z (· == .colon) rfl (by decide) h
  | token => rfl
  | value hc ho => exact eq_false_of_opens? (· == .colon) (by decide) ho

theorem startsValue_next_reader (hv : p.Valid) (h : Ahead z.eof p.enclosing p.lexemes ds rest) :
    (p.reader z nodes roots errors).next.kind.startsValue = ds.head?.any startsValue := by
  cases ds with
  | nil =>
    show _ = false
    rw [next_reader_of_ahead hv h, nextToken]
    exact eq_false_nextOf z TokenKind.startsValue rfl (by decide) h.closes_of_nil
  | cons d ds =>
    rcases h.cons_cases with ⟨l, ls, hp, rfl, ho, _⟩ | ⟨c, l, ls, first, hp, ho, _, rfl, _⟩
    · rw [next_of_cons hv hp]
      show (l.kind.isOpener || l.kind.isScalar) = l.kind.isScalar
      rw [not_isOpener_of_opens? ho, Bool.false_or]
    · have ho : l.token.kind.isOpener = true := isOpener_of_opens? ho
      rw [next_of_cons hv hp, TokenKind.startsValue, ho]
      rfl

theorem isKey_next_reader {d : Draft} (hv : p.Valid)
    (h : Ahead z.eof p.enclosing p.lexemes (d :: ds) rest) :
    isKey (p.reader z nodes roots errors).next.kind = d.isKeyToken := by
  rcases h.cons_cases with ⟨l, ls, hp, rfl, _, _⟩ | ⟨c, l, ls, first, hp, ho, _, rfl, _⟩
  · rw [next_of_cons hv hp]
    rfl
  · rw [next_of_cons hv hp]
    exact eq_false_of_opens? isKey (by decide) ho

/-- Whether skipping ends shows in the first piece. -/
theorem atMemberResume_reader (hv : p.Valid) (h : Ahead z.eof p.enclosing p.lexemes ds rest) :
    (p.reader z nodes roots errors).atMemberResume = ds.head?.all resumesMembers := by
  cases ds with
  | nil =>
    rw [atMemberResume, atContainerEnd_reader hv h]
    exact Bool.or_true _
  | cons d ds =>
    rw [atMemberResume, isKey_next_reader hv h, next_reader_beq hv h rfl,
      atContainerEnd_reader hv h]
    show (_ || false) = d.resumesMembers
    rw [Bool.or_false]
    cases d <;> rfl

/-- Whether the value behind a colon is missing shows in the first two pieces. -/
theorem atMissingValue_reader (hv : p.Valid) (h : Ahead z.eof p.enclosing p.lexemes ds rest) :
    (p.reader z nodes roots errors).atMissingValue = valueMissing ds := by
  cases ds with
  | nil =>
    rw [atMissingValue, atContainerEnd_reader hv h]
    exact Bool.or_true _
  | cons d ds =>
    rw [atMissingValue, atContainerEnd_reader hv h, next_reader_beq hv h rfl, atNextKey]
    rcases h.cons_cases with
      ⟨l, ls, hp, rfl, _, hahead⟩ | ⟨c, l, ls, first, hp, ho, _, rfl, _⟩
    · -- a token: with a colon behind it, it is the key of the next member
      rw [next_of_cons hv hp, second_reader hv hp, nextOf_beq_colon hahead]
      exact (Bool.or_false _).trans (Bool.or_comm _ _)
    · have hkey : l.token.kind.isKeyStart = false :=
        eq_false_of_opens? TokenKind.isKeyStart (by decide) ho
      rw [next_of_cons hv hp, hkey]
      rfl

theorem isQuotable_next_reader {d : Draft} (hv : p.Valid)
    (h : Ahead z.eof p.enclosing p.lexemes (d :: ds) rest) :
    (isQuotable (p.reader z nodes roots errors).next.kind &&
      (p.reader z nodes roots errors).second.kind == .colon) =
      (d.isQuotableToken && startsWithColon ds) := by
  rcases h.cons_cases with ⟨l, ls, hp, rfl, _, hahead⟩ | ⟨c, l, ls, first, hp, ho, _, rfl, _⟩
  · rw [next_of_cons hv hp, second_reader hv hp, nextOf_beq_colon hahead]
    rfl
  · have hquote : isQuotable l.token.kind = false := eq_false_of_opens? isQuotable (by decide) ho
    rw [next_of_cons hv hp, hquote]
    rfl

end Maml.Reader
