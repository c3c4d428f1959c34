import Maml.Proofs.Marked
import Maml.Proofs.Moving

/-! Reading at other offsets.

A row of drafts is shifted with its tokens and its notes. The rules of reading look at offsets only
to see whether a sign stands directly in front of a number, so they derive the shifted row from the
shifted lexemes (`Read.shift`). Its lexemes, mistakes and trees are those of the row
(`lexemesList_shiftRow`, `errorsList_shiftRow`, `trees_shiftRow`). -/
namespace Maml

def Lexeme.shift (k : Nat) (l : Lexeme) : Lexeme := ⟨l.trivia.map (Token.shift k), l.token.shift k⟩

def ParseError.shift (k : Nat) (e : ParseError) : ParseError := { e with range := e.range.shift k }

@[simp] theorem Lexeme.kind_shift (k : Nat) (l : Lexeme) : (l.shift k).kind = l.kind := rfl

@[simp] theorem Lexeme.token_shift (k : Nat) (l : Lexeme) : (l.shift k).token = l.token.shift k :=
  rfl

theorem Lexeme.tokens_shift (k : Nat) (l : Lexeme) :
    (l.shift k).tokens = l.tokens.map (Token.shift k) := by
  rw [tokens, tokens, List.map_append]
  rfl

@[simp] theorem ParseError.shift_zero (e : ParseError) : e.shift 0 = e := rfl

@[simp] theorem ParseError.map_shift_zero (e : Option ParseError) :
    e.map (ParseError.shift 0) = e := by
  cases e <;> rfl

@[simp] theorem Lexeme.shift_zero (l : Lexeme) : l.shift 0 = l := by
  rw [shift, List.map_id'' Token.shift_zero]
  rfl

theorem Span.cover_shift (k : Nat) (s t : Span) :
    (s.shift k).cover (t.shift k) = (s.cover t).shift k := by
  simp only [cover, shift, Nat.add_min_add_right, Nat.add_max_add_right]

namespace Draft

mutual

def shift (k : Nat) : Draft → Draft
  | leaf l => leaf (l.shift k)
  | node kind before first rest after =>
    node kind (before.map (ParseError.shift k)) (first.shift k) (shiftRow k rest)
      (after.map (ParseError.shift k))

def shiftRow (k : Nat) : List Draft → List Draft
  | [] => []
  | d :: ds => d.shift k :: shiftRow k ds

end

mutual

@[simp] theorem shift_zero : ∀ d : Draft, d.shift 0 = d
  | leaf l => congrArg leaf l.shift_zero
  | node kind before first rest after => by
    rw [shift, shift_zero first, shiftRow_zero rest, ParseError.map_shift_zero,
      ParseError.map_shift_zero]

@[simp] theorem shiftRow_zero : ∀ ds : List Draft, shiftRow 0 ds = ds
  | [] => rfl
  | d :: ds => by rw [shiftRow, shift_zero d, shiftRow_zero ds]

end

section
variable (k : Nat)

@[simp] theorem shift_leaf (l : Lexeme) : (leaf l).shift k = leaf (l.shift k) := rfl

@[simp] theorem shift_node (kind : NodeKind) (before after : Option ParseError) (first : Draft)
    (rest : List Draft) : (node kind before first rest after).shift k =
      node kind (before.map (ParseError.shift k)) (first.shift k) (shiftRow k rest)
        (after.map (ParseError.shift k)) := rfl

@[simp] theorem shift_plain (kind : NodeKind) (first : Draft) (rest : List Draft) :
    (plain kind first rest).shift k = plain kind (first.shift k) (shiftRow k rest) := rfl

@[simp] theorem shiftRow_nil : shiftRow k [] = [] := rfl

@[simp] theorem shiftRow_cons (d : Draft) (ds : List Draft) :
    shiftRow k (d :: ds) = d.shift k :: shiftRow k ds := rfl

@[simp] theorem shiftRow_append (ds es : List Draft) :
    shiftRow k (ds ++ es) = shiftRow k ds ++ shiftRow k es := by
  induction ds with
  | nil => rfl
  | cons d ds ih => rw [List.cons_append, shiftRow_cons, ih, shiftRow_cons, List.cons_append]

@[simp] theorem shiftRow_map_leaf (ls : List Lexeme) :
    shiftRow k (ls.map leaf) = (ls.map (Lexeme.shift k)).map leaf := by
  induction ls with
  | nil => rfl
  | cons l ls ih => rw [List.map_cons, shiftRow_cons, ih]; rfl

@[simp] theorem shiftRow_wrap (kind : NodeKind) (ds : List Draft) :
    shiftRow k (wrap kind ds) = wrap kind (shiftRow k ds) := by
  cases ds <;> rfl

@[simp] theorem firstLexeme_shift (d : Draft) :
    (d.shift k).firstLexeme = d.firstLexeme.shift k := by
  induction d using firstLexeme.induct with
  | case1 l => rfl
  | case2 kind before first rest after ih => exact ih

@[simp] theorem firstToken_shift (d : Draft) : (d.shift k).firstToken = d.firstToken.shift k := by
  rw [firstToken, firstLexeme_shift]
  rfl

/-! ## What a shifted row consists of -/

mutual

theorem lexemes_shift : ∀ d : Draft, (d.shift k).lexemes = d.lexemes.map (Lexeme.shift k)
  | leaf l => rfl
  | node kind before first rest after => by
    rw [shift_node, lexemes_node, lexemes_node, List.map_append, lexemes_shift first,
      lexemesList_shiftRow rest]

theorem lexemesList_shiftRow : ∀ ds : List Draft,
    lexemesList (shiftRow k ds) = (lexemesList ds).map (Lexeme.shift k)
  | [] => rfl
  | d :: ds => by
    rw [shiftRow_cons, lexemesList_cons, lexemesList_cons, List.map_append, lexemes_shift d,
      lexemesList_shiftRow ds]

end

mutual

theorem lastToken_shift : ∀ d : Draft, (d.shift k).lastToken = d.lastToken.shift k
  | leaf l => rfl
  | node kind before first rest after => by
    rw [shift_node, lastToken, lastToken, lastToken_shift first, lastTokenFrom_shiftRow rest]

theorem lastTokenFrom_shiftRow : ∀ (ds : List Draft) (t : Token),
    lastTokenFrom (t.shift k) (shiftRow k ds) = (lastTokenFrom t ds).shift k
  | [], _ => rfl
  | d :: ds, _ => by
    rw [shiftRow_cons, lastTokenFrom, lastTokenFrom, lastToken_shift d, lastTokenFrom_shiftRow ds]

end

mutual

theorem errors_shift : ∀ d : Draft, (d.shift k).errors = d.errors.map (ParseError.shift k)
  | leaf l => rfl
  | node kind before first rest after => by
    rw [shift_node, errors_node, errors_node, errors_shift first, errorsList_shiftRow rest,
      Option.toList_map, Option.toList_map, List.map_append, List.map_append, List.map_append]

theorem errorsList_shiftRow : ∀ ds : List Draft,
    errorsList (shiftRow k ds) = (errorsList ds).map (ParseError.shift k)
  | [] => rfl
  | d :: ds => by
    rw [shiftRow_cons, errorsList_cons, errorsList_cons, List.map_append, errors_shift d,
      errorsList_shiftRow ds]

end

theorem map_tokenLeaf_trivia_shift (d : Draft) :
    (d.shift k).trivia.map tokenLeaf = d.trivia.map tokenLeaf := by
  rw [trivia, trivia, firstLexeme_shift, Lexeme.shift, List.map_map]
  rfl

mutual

theorem tree_shift : ∀ d : Draft, (d.shift k).tree = d.tree
  | leaf l => rfl
  | node kind before first rest after => by
    rw [shift_node, tree, tree, tree_shift first, trees_shiftRow rest]

theorem trees_shiftRow : ∀ ds : List Draft, trees (shiftRow k ds) = trees ds
  | [] => rfl
  | d :: ds => by
    rw [shiftRow_cons, trees, trees, map_tokenLeaf_trivia_shift, tree_shift d, trees_shiftRow ds]

end

/-! ## Nodes -/

theorem shift_missing (expected : Expected) (previous next : Token) :
    (missing expected previous next).map (ParseError.shift k) =
      missing expected (previous.shift k) (next.shift k) := rfl

theorem shift_signed (plus number : Lexeme) :
    (signed plus number).shift k = signed (plus.shift k) (number.shift k) := by
  rw [signed, signed, Lexeme.token_shift, Lexeme.token_shift]
  rw [show (plus.token.shift k).span.cover (number.token.shift k).span =
    (plus.token.span.cover number.token.span).shift k from Span.cover_shift k _ _]
  rfl

theorem shift_tooDeep (opener : Lexeme) (run : List Lexeme) :
    (tooDeep opener run).shift k = tooDeep (opener.shift k) (run.map (Lexeme.shift k)) := by
  have hlast := lastTokenFrom_shiftRow k (run.map leaf) opener.token
  rw [shiftRow_map_leaf] at hlast
  rw [tooDeep, tooDeep, Lexeme.token_shift, hlast, ← shiftRow_map_leaf]
  rfl

theorem shift_container (c : Container) (opener : Lexeme) (ds : List Draft)
    (closer : Option Lexeme) (next : Token) : (container c opener ds closer next).shift k =
      container c (opener.shift k) (shiftRow k ds) (closer.map (Lexeme.shift k)) (next.shift k) := by
  have hlast := lastTokenFrom_shiftRow k (wrap c.listKind ds) opener.token
  rw [shiftRow_wrap] at hlast
  cases closer with
  | some l =>
    rw [Option.map_some, container_closed, container_closed]
    simp [containerNode]
  | none =>
    rw [Option.map_none, container_unclosed, container_unclosed, Lexeme.token_shift, hlast,
      ← shift_missing]
    simp [containerNode]

theorem shift_keyNote (key : Lexeme) :
    (keyNote key).map (ParseError.shift k) = keyNote (key.shift k) := by
  unfold keyNote
  rw [Lexeme.kind_shift]
  split <;> rfl

theorem shift_member (key colon : Lexeme) (value : List Draft) (note : Option ParseError) :
    (member key colon value note).shift k = member (key.shift k) (colon.shift k) (shiftRow k value)
      (note.map (ParseError.shift k)) := by
  unfold member
  rw [Lexeme.kind_shift]
  split
  · rw [keyValue, shift_node, shift_keyNote]
    rfl
  · rfl

theorem shift_incomplete (key : Lexeme) (next : Token) :
    (incomplete key next).shift k = incomplete (key.shift k) (next.shift k) := by
  have hcolon : (colonNote key next).map (ParseError.shift k) =
      colonNote (key.shift k) (next.shift k) := by
    unfold colonNote
    rw [Lexeme.kind_shift]
    split <;> rfl
  rw [incomplete, shift_node, shift_keyNote, hcolon]
  rfl

theorem shift_junk (first : Draft) (rest : List Draft) :
    (junk first rest).shift k = junk (first.shift k) (shiftRow k rest) := by
  rw [junk, junk, firstToken_shift]
  rfl

/-! ## Tests -/

@[simp] theorem startsWithColon_shiftRow (ds : List Draft) :
    startsWithColon (shiftRow k ds) = startsWithColon ds := by
  rcases ds with _ | ⟨d, ds⟩
  · rfl
  · cases d <;> rfl

@[simp] theorem isQuotableToken_shift (d : Draft) :
    (d.shift k).isQuotableToken = d.isQuotableToken := by
  cases d <;> rfl

theorem beginsMember_shiftRow (ds : List Draft) :
    beginsMember (shiftRow k ds) = beginsMember ds := by
  rcases ds with _ | ⟨_ | ⟨kind, before, first, rest, after⟩, ds⟩
  · rfl
  · rfl
  · show (kind == .keyValue && (first.shift k).firstLexeme.kind.isKeyStart) = _
    rw [firstLexeme_shift]
    rfl

theorem forall_head?_shift {P : TokenKind → Prop} {ls : List Lexeme}
    (h : ∀ l ∈ ls.head?, P l.kind) : ∀ l ∈ (ls.map (Lexeme.shift k)).head?, P l.kind := by
  cases ls with
  | nil => simp
  | cons l ls =>
    intro m hm
    obtain rfl := Option.some.inj hm
    exact h l rfl

theorem nextOf_shift (eof : Token) (ls : List Lexeme) :
    nextOf (eof.shift k) (ls.map (Lexeme.shift k)) = (nextOf eof ls).shift k := by
  cases ls <;> rfl

/-! ## Reading -/

theorem append_shiftRow (ds : List Draft) (behind : List Lexeme) :
    lexemesList (shiftRow k ds) ++ behind.map (Lexeme.shift k) =
      (lexemesList ds ++ behind).map (Lexeme.shift k) := by
  rw [lexemesList_shiftRow, List.map_append]

/-- Reading does not depend on where the lexemes stand. -/
theorem Read.shift {eof : Token} {e : List Container} {slot : Slot} {behind : List Lexeme}
    {ds : List Draft} (h : Read eof e slot behind ds) :
    Read (eof.shift k) e slot (behind.map (Lexeme.shift k)) (shiftRow k ds) := by
  have hhead {P : TokenKind → Prop} {ds : List Draft} {behind : List Lexeme}
      (h : ∀ l ∈ (lexemesList ds ++ behind).head?, P l.kind) :
      ∀ l ∈ (lexemesList (shiftRow k ds) ++ behind.map (Lexeme.shift k)).head?, P l.kind := by
    rw [append_shiftRow]
    exact forall_head?_shift k h
  induction h with
  | scalar hl => exact .scalar hl
  | @invalid e behind l hl hc hnext =>
    show Read _ e _ _ [Draft.invalid (l.shift k)]
    refine .invalid hl hc fun m hm => ?_
    cases behind with
    | nil => exact absurd hm nofun
    | cons n behind =>
      obtain rfl := Option.some.inj hm
      exact (isSignedNumber_shift k _ _).trans (hnext n rfl)
  | signed h =>
    rw [shiftRow_cons, shift_signed]
    exact .signed ((isSignedNumber_shift k _ _).trans h)
  | @tooDeep _ behind opener run ho he hrun =>
    rw [shiftRow_cons, shift_tooDeep]
    refine .tooDeep ho he ?_
    refine @balancedRun_map (.relaid (Lexeme.shift k) fun _ => rfl) behind _ 1 run hrun
      (fun _ _ => rfl) ?_
    rintro rfl
    rfl
  | closed ho hc he _ ih =>
    rw [shiftRow_cons, shift_container]
    exact .closed ho hc he ih
  | @unclosed e _ c _ _ ho he hends _ ih =>
    rw [shiftRow_cons, shift_container, ← nextOf_shift]
    exact .unclosed ho he (forall_head?_shift k
      (P := fun kind => closesAny e kind = true ∧ kind ≠ c.closer) hends) ih
  | nil hends => exact .nil (forall_head?_shift k (P := fun kind => closesAny _ kind = true) hends)
  | comma hl _ ih => exact .comma hl ih
  | @stray e c _ l ds hl _ ih =>
    show Read _ e _ _ (strayComma c.expectedElement (leaf (l.shift k)) :: shiftRow k ds)
    exact .stray hl ih
  | item hfirst _ _ ihd ih =>
    rw [← append_shiftRow] at ihd
    exact .item (by rwa [firstLexeme_shift]) ihd ih
  | member hk hc hfirst hnext _ _ ihv ih =>
    rw [← append_shiftRow] at ihv
    rw [shiftRow_cons, shift_member]
    refine .member hk hc (by rwa [firstLexeme_shift]) ?_ ihv ih
    rw [firstLexeme_shift]
    exact fun hkey => hhead (P := (· ≠ .colon)) (hnext hkey)
  | memberAlone hk hc hnext _ ih =>
    rw [shiftRow_cons, shift_member, shift_missing, ← nextOf_shift, ← append_shiftRow]
    exact .memberAlone hk hc (by rwa [beginsMember_shiftRow]) ih
  | incomplete hk hnext _ ih =>
    rw [shiftRow_cons, shift_incomplete, ← nextOf_shift, ← append_shiftRow]
    exact .incomplete hk (hhead (P := fun kind => canResume _ kind = true) hnext) ih
  | @incompleteSkipped _ _ _ _ first rest _ hk hcolon _ hnext _ ihs ih =>
    rw [← append_shiftRow] at ihs
    rw [shiftRow_cons, shiftRow_cons, shift_incomplete, ← firstToken_shift]
    exact .incompleteSkipped hk ((startsWithColon_shiftRow k (first :: rest)).trans hcolon) ihs
      (hhead (P := fun kind => canResume _ kind = true) hnext) ih
  | junk _ hq hnext _ ihs ih =>
    rw [← append_shiftRow] at ihs
    rw [shiftRow_cons, shift_junk]
    refine .junk ihs ?_ (hhead (P := fun kind => canResume _ kind = true) hnext) ih
    rwa [isQuotableToken_shift, startsWithColon_shiftRow]
  | skippedNil => exact .skippedNil
  | skippedToken hl ho hc hnext _ ih =>
    exact .skippedToken hl ho hc
      (fun hcolon => hhead (P := fun kind => kind.isScalar = false) (hnext hcolon)) ih
  | skippedScalar hc hl _ ih => exact .skippedScalar hc hl ih
  | skippedValue ho _ _ ihd ih =>
    rw [← append_shiftRow] at ihd
    exact .skippedValue (by rwa [firstLexeme_shift]) ihd ih

end

end Draft

end Maml
