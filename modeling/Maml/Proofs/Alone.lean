import Maml.Proofs.Elsewhere
import Maml.Proofs.Pieces
import Maml.Proofs.Spacing

/-! Values read alone.

1. Every value that is a container is one piece (`everyNode_pieceIfContainer`).
2. The lexemes of a part of a document are those of its text, moved
   (`Parse.exists_group_tokenize`).
3. So every value with nothing nested too deep in it is what its text alone is read as
   (`parse_value_alone`). -/
namespace Maml

open Draft

namespace Draft

/-! ## Containers are pieces -/

def isContainerNode : Draft → Bool
  | node kind .. => kind.isContainer
  | leaf _ => false

def isContainerValue : Draft → Bool
  | node .value _ first _ _ => first.isContainerNode
  | _ => false

theorem everyNode_regrouped {P : Draft → Prop} (hP : ∀ d : Draft, d.isContainerValue = false → P d)
    {ds es : List Draft} (h : Regrouped ds es) (hds : ∀ d ∈ ds, d.isContainerNode = false)
    (hevery : EveryNode P ds) : (∀ d ∈ es, d.isContainerNode = false) ∧ EveryNode P es := by
  induction h with
  | nil => exact ⟨hds, hevery⟩
  | keep d h ih =>
    obtain ⟨hd, hds⟩ := List.forall_mem_cons.mp hds
    obtain ⟨hone, hmore⟩ := everyNode_cons_iff.mp hevery
    obtain ⟨hes, hall⟩ := ih hds hmore
    exact ⟨List.forall_mem_cons.mpr ⟨hd, hes⟩, everyNode_cons hone hall⟩
  | @group ds kind before first rest after es hk h ih =>
    obtain ⟨hparts, hall⟩ := ih hds hevery
    rw [List.forall_mem_append] at hparts
    obtain ⟨hin, hes⟩ := everyNode_append_iff.mp hall
    have hvalue : (node kind before first rest after).isContainerValue = false := by
      unfold isContainerValue
      split
      · rename_i heq
        obtain ⟨-, -, rfl, -, -⟩ := node.inj heq
        exact hparts.1 first List.mem_cons_self
      · rfl
    exact ⟨List.forall_mem_cons.mpr ⟨hk, hparts.2⟩,
      everyNode_cons (everyNode_node (hP _ hvalue) hin) hes⟩

theorem not_isContainerNode_of_shaped {e : List Container} {d : Draft} (h : ShapedPiece e d) :
    d.isContainerNode = false := by
  cases d with
  | leaf => rfl
  | node =>
    obtain ⟨first, heq⟩ := exists_plain_of_shaped h
    rw [heq]
    rfl

def PieceIfContainer (eof : Token) (d : Draft) : Prop :=
  d.isContainerValue = true → ∃ e l ls, (pieceAt eof e l ls).1 = d

theorem pieceIfContainer_of_not {eof : Token} {d : Draft} (h : d.isContainerValue = false) :
    PieceIfContainer eof d := by
  intro hvalue
  rw [h] at hvalue
  exact absurd hvalue Bool.false_ne_true

theorem everyNode_pieceIfContainer_pieces (eof : Token) :
    (∀ e l ls, EveryNode (PieceIfContainer eof) [(pieceAt eof e l ls).1]) ∧
      ∀ e ls, EveryNode (PieceIfContainer eof) (pieces eof e ls).1 := by
  apply pieceAt_pieces_induction eof
  case token =>
    intro e l ls ho
    rw [pieceAt_of_opens?_eq_none ho]
    exact everyNode_leaf l
  case nested =>
    intro e l ls c ho he ih
    -- the value itself is the piece
    have hself : PieceIfContainer eof (pieceAt eof e l ls).1 := fun _ => ⟨e, l, ls, rfl⟩
    rw [pieceAt_of_opens?_eq_some ho, if_pos he] at hself ⊢
    obtain ⟨stop, closer, after, hclose⟩ :=
      exists_close eof c l (pieces eof (c :: e) ls).1 (pieces eof (c :: e) ls).2
    have hcontents := (everyNode_regrouped (fun _ => pieceIfContainer_of_not)
      (regrouped_contents c stop _) (fun d hd => not_isContainerNode_of_shaped
        ((shaped_pieceAt_pieces eof).2 (c :: e) ls d hd)) ih).2
    rw [hclose] at hself ⊢
    refine everyNode_node hself (everyNode_containerNode (pieceIfContainer_of_not ?_) ?_ hcontents)
    · cases c <;> rfl
    · intro d ds' _
      exact pieceIfContainer_of_not (by cases c <;> rfl)
  case deep =>
    intro e l ls c ho he
    rw [pieceAt_of_opens?_eq_some ho, if_neg (by omega)]
    exact everyNode_node (pieceIfContainer_of_not rfl)
      (everyNode_node (pieceIfContainer_of_not rfl) (everyNode_map_leaf (l :: _)))
  case nil =>
    intro e
    rw [pieces_nil]
    exact everyNode_nil
  case cons =>
    intro e l ls hpiece hmore
    rw [pieces_cons]
    split
    · exact everyNode_nil
    · exact everyNode_cons hpiece hmore

theorem everyNode_pieceIfContainer (eof : Token) (ls : List Lexeme) :
    EveryNode (PieceIfContainer eof) (documentDrafts eof ls) := by
  have htrailing (ls : List Lexeme) : EveryNode (PieceIfContainer eof) (trailing ls) := by
    cases ls with
    | nil => exact everyNode_nil
    | cons l ls =>
      exact everyNode_node (pieceIfContainer_of_not rfl) (everyNode_map_leaf (l :: ls))
  unfold documentDrafts
  split
  · exact everyNode_nil
  · rename_i l ls
    split
    · have hrow : ∀ d ∈ [(pieceAt eof [] l ls).1], d.isContainerNode = false := by
        simpa using not_isContainerNode_of_shaped (shaped_pieceAt eof [] l ls)
      have hvalue := (everyNode_regrouped (fun _ => pieceIfContainer_of_not)
        (regrouped_asValue _ .nil) hrow ((everyNode_pieceIfContainer_pieces eof).1 [] l ls)).2
      exact everyNode_cons hvalue (htrailing _)
    · exact htrailing _

theorem exists_pieceAt_of_token {eof : Token} {e : List Container} {l l' : Lexeme}
    (h : l'.token = l.token) (ls : List Lexeme) : ∃ d, pieceAt eof e l' ls =
      (d, (pieceAt eof e l ls).2) ∧ d.tree = (pieceAt eof e l ls).1.tree := by
  have hkind : l'.kind = l.kind := congrArg Token.kind h
  cases ho : l.kind.opens? with
  | none =>
    rw [pieceAt_of_opens?_eq_none ho, pieceAt_of_opens?_eq_none (by rw [hkind, ho])]
    exact ⟨_, rfl, congrArg tokenLeaf h⟩
  | some c =>
    rw [pieceAt_of_opens?_eq_some ho, pieceAt_of_opens?_eq_some (by rw [hkind, ho])]
    obtain ⟨trivia, t⟩ := l
    obtain ⟨trivia', t'⟩ := l'
    obtain rfl : t' = t := h
    split
    · unfold close
      split
      · split <;> exact ⟨_, rfl, rfl⟩
      · exact ⟨_, rfl, rfl⟩
    · exact ⟨_, rfl, rfl⟩

theorem exists_pieceAt_alone {eof : Token} {d : Draft} (h : PieceIfContainer eof d)
    (hvalue : d.isContainerValue = true) (hshallow : Shallow [d]) {k : Nat} {l : Lexeme}
    {ls : List Lexeme} (hsame : SameButMoved k (l :: ls) d.lexemes) (eof' : Token) :
    ∃ d', pieceAt eof' [] l ls = (d', []) ∧ d'.tree = d.tree := by
  obtain ⟨e, m, ms, rfl⟩ := h hvalue
  obtain ⟨d', hd', hmoved⟩ := (pieceAlike_rowAlike eof eof' k).1 e m ms [] e l ls [] rfl hsame
    hshallow .nothing
  rw [List.append_nil] at hd'
  exact ⟨d', hd', by rw [← tree_moved k, hmoved, tree_moved]⟩

end Draft

/-! ## Parts of a document -/

namespace Draft

/-- The lexemes of a draft without the trivia in front of it. -/
def bareLexemes (d : Draft) : List Lexeme := ⟨[], d.firstToken⟩ :: d.lexemes.tail

theorem lexemes_eq_cons_tail (d : Draft) : d.lexemes = d.firstLexeme :: d.lexemes.tail := by
  obtain ⟨ls, hls⟩ := exists_lexemes_eq_cons d
  rw [hls, List.tail_cons]

theorem tokens_lexemes (d : Draft) : d.lexemes.flatMap Lexeme.tokens =
    d.trivia ++ d.bareLexemes.flatMap Lexeme.tokens := by
  rw [lexemes_eq_cons_tail, List.flatMap_cons, Lexeme.tokens, List.append_assoc]
  rfl

theorem text_tree (d : Draft) :
    d.tree.text = (d.bareLexemes.flatMap Lexeme.tokens).flatMap Token.text := by
  have hleaves := leaves_tree d
  rw [tokens_lexemes, List.map_append] at hleaves
  rw [Tree.text_eq_flatMap_leaves, List.append_cancel_left hleaves, List.flatMap_map]
  rfl

theorem valid_bareLexemes {o : Nat} {d : Draft} (h : Placed o d.lexemes) :
    ∀ l ∈ d.bareLexemes, l.Valid := by
  have hvalid := h.2
  rw [lexemes_eq_cons_tail, List.forall_mem_cons] at hvalid
  exact List.forall_mem_cons.mpr ⟨⟨by simp, hvalid.1.2⟩, hvalid.2⟩

/-! ## Values alone -/

theorem exists_value_scalar {k : Nat} {l m : Lexeme} (hm : m.kind.isScalar = true)
    (htoken : l.token.shift k = m.token) (eof : Token) : ∃ d, pieceAt eof [] l [] = (d, []) ∧
      d.startsValue = true ∧ d.asValue.tree = (plain .value (leaf m) []).tree := by
  have hkind : (l.token.shift k).kind = m.token.kind := congrArg Token.kind htoken
  have hscalar : l.kind.isScalar = true := (congrArg TokenKind.isScalar hkind).trans hm
  have hopens : l.kind.opens? = none :=
    opens?_of_not_isOpener (not_isBracket_of_isScalar hscalar).1
  have hleaf : tokenLeaf l.token = tokenLeaf m.token := by rw [← tokenLeaf_shift k, htoken]
  refine ⟨leaf l, pieceAt_of_opens?_eq_none hopens, hscalar, ?_⟩
  rw [asValue, single, if_pos hscalar, plain, plain, tree, tree, tree, tree, hleaf]

theorem exists_value_container {eof : Token} {d : Draft} (h : PieceIfContainer eof d)
    (hvalue : d.isContainerValue = true) (hshallow : Shallow [d]) {k : Nat} {l : Lexeme}
    {ls : List Lexeme} (htoken : l.token.shift k = d.firstToken)
    (hls : SameButMoved k ls d.lexemes.tail) (eof' : Token) :
    ∃ d', pieceAt eof' [] l ls = (d', []) ∧ d'.startsValue = true ∧ d'.asValue.tree = d.tree := by
  -- with the trivia in front of it, the first lexeme is the same but moved
  have hsame : SameButMoved k (⟨d.trivia, l.token⟩ :: ls) d.lexemes := by
    rw [lexemes_eq_cons_tail, sameButMoved_cons, Lexeme.moved, htoken]
    exact ⟨rfl, hls⟩
  obtain ⟨d₁, hd₁, htree₁⟩ := exists_pieceAt_alone h hvalue hshallow hsame eof'
  obtain ⟨d', hd', htree'⟩ := @exists_pieceAt_of_token eof' [] ⟨d.trivia, l.token⟩ l rfl ls
  rw [hd₁] at hd' htree'
  have htree : d'.tree = d.tree := htree'.trans htree₁
  cases d' with
  | node => exact ⟨_, hd', rfl, htree⟩
  | leaf =>
    cases d with
    | leaf => exact absurd hvalue Bool.false_ne_true
    | node => exact absurd htree (by simp [tree, tokenLeaf])

end Draft

theorem tree_parse_of_pieceAt {text : Text} {l : Lexeme} {ls : List Lexeme} {t : Tree}
    (hgroup : Lexemes.group (tokenize text) = (l :: ls, [])) (htrivia : l.trivia = [])
    (hpiece : ∀ eof, ∃ d, pieceAt eof [] l ls = (d, []) ∧ d.startsValue = true ∧
      d.asValue.tree = t) : (parse text).tree = .node (.node .file) [t] := by
  rw [parse, Lexemes.ofTokens, takeWhile_tokenize, hgroup]
  generalize (List.find? _ (tokenize text)).getD _ = eof
  obtain ⟨d, hd, hvalue, htree⟩ := hpiece eof
  have hfirst : d.asValue.trivia = [] := by
    obtain ⟨ms, hms⟩ := exists_lexemes_pieceAt eof [] l ls
    rw [hd, ← lexemes_asValue] at hms
    rw [Draft.trivia, firstLexeme_of_lexemes hms, htrivia]
  simp only [Parse.ofLexemes, documentDrafts_of_pieceAt hd hvalue, trees, hfirst, htree,
    List.map_nil, List.nil_append, List.append_nil]

namespace Parse

theorem exists_shift_bareLexemes {source : Text} {x : Standing} (hx : x ∈ standings source) :
    ∃ k, (tokenize x.draft.tree.text).map (Token.shift k) =
      x.draft.bareLexemes.flatMap Lexeme.tokens := by
  obtain ⟨front, back, hlexemes, -⟩ := among_of_mem_standingsRow 0 [] _ x hx
  rw [lexemes_documentDrafts] at hlexemes
  have htokens := @Lexemes.tokens_ofTokens (tokenize source)
    (fun _ h => kind_ne_eof_of_mem_tokenize h) source.size
  rw [hlexemes, List.flatMap_append, List.flatMap_append, tokens_lexemes, ← List.append_assoc,
    List.append_assoc, List.append_assoc] at htokens
  rw [text_tree]
  exact exists_shift_tokenize htokens.symm

/-- The lexemes of a node's text are those of the node, moved. -/
theorem exists_group_tokenize {source : Text} {x : Standing} (hx : x ∈ standings source) :
    ∃ k l ls, Lexemes.group (tokenize x.draft.tree.text) = (l :: ls, []) ∧ l.trivia = [] ∧
      l.token.shift k = x.draft.firstToken ∧ SameButMoved k ls x.draft.lexemes.tail := by
  obtain ⟨k, hshift⟩ := exists_shift_bareLexemes hx
  obtain ⟨hlexemes, htrailing⟩ := Lexemes.group_map_shift k (tokenize x.draft.tree.text)
  have hnone : ∀ t ∈ ([] : List Token), t.isTrivia = true := List.forall_mem_nil _
  have hgroup := Lexemes.group_of_valid (valid_bareLexemes (isPlaced_of_mem_standings hx)) hnone
  rw [List.append_nil] at hgroup
  rw [hshift, hgroup] at hlexemes htrailing
  have hsame : SameButMoved k (Lexemes.group (tokenize x.draft.tree.text)).1
      x.draft.bareLexemes := hlexemes.symm
  obtain ⟨l, ls, hgroup, hl, hls⟩ := hsame.exists_cons
  obtain ⟨htrivia, htoken⟩ := Lexeme.mk.inj hl
  exact ⟨k, l, ls, Prod.ext hgroup (List.map_eq_nil_iff.mp htrailing.symm),
    List.map_eq_nil_iff.mp htrivia, htoken, hls⟩

end Parse

theorem value_cases {d : Draft} (h : Formed d) (hvalue : d.tree.isNodeOf .value = true)
    (hchild : ∃ t ∈ d.tree.children, t.isNodeOf .object = true ∨ t.isNodeOf .array = true ∨
      t.isTokenWith (·.isScalar) = true) :
    (∃ l, d = plain .value (leaf l) [] ∧ l.kind.isScalar = true) ∨ d.isContainerValue = true := by
  cases h with
  | @scalar l hl => exact .inl ⟨l, rfl, hl⟩
  | @value kind before first rest after hk =>
    obtain ⟨t, ht, hkind⟩ := hchild
    obtain rfl := List.mem_singleton.mp ht
    rw [isNodeOf_node, isNodeOf_node, beq_iff_eq, beq_iff_eq] at hkind
    rcases hkind with rfl | rfl | hscalar
    · exact .inr rfl
    · exact .inr rfl
    · exact absurd hscalar Bool.false_ne_true
  | @list e c => cases c <;> exact absurd hvalue Bool.false_ne_true
  | @closed e c => cases c <;> exact absurd hvalue Bool.false_ne_true
  | @unclosed e c => cases c <;> exact absurd hvalue Bool.false_ne_true
  | _ => exact absurd hvalue Bool.false_ne_true

theorem shallow_of_descendants {x : Standing}
    (h : ∀ p ∈ x.site.descendants, p.tree.isTooDeep = false) : Shallow [x.draft] := by
  rw [Shallow, everyNode_iff x.offset x.before, standingsRow_singleton]
  intro y hy
  have hsite : y.site ∈ x.site.descendants := by
    rw [Standing.site, Standing.site, ← map_site_standings]
    exact List.mem_map_of_mem hy
  exact h y.site hsite

/-- A value that is a container or a scalar, with nothing nested too deep in it, is what its text
alone is read as, whatever it contains and whatever ended it. -/
theorem parse_value_alone {source : Text} {s : Site} (hs : s ∈ (parse source).sites)
    (hvalue : s.tree.isNodeOf .value = true)
    (hchild : ∃ t ∈ s.tree.children, t.isNodeOf .object = true ∨ t.isNodeOf .array = true ∨
      t.isTokenWith (·.isScalar) = true)
    (hshallow : ∀ p ∈ s.descendants, p.tree.isTooDeep = false) :
    (parse s.tree.text).tree = .node (.node .file) [s.tree] := by
  rw [Parse.sites_parse, List.mem_cons, List.mem_map] at hs
  rcases hs with rfl | ⟨x, hx, rfl⟩
  · exact absurd hvalue Bool.false_ne_true
  change (parse x.draft.tree.text).tree = .node (.node .file) [x.draft.tree]
  obtain ⟨k, l, ls, hgroup, htrivia, htoken, hls⟩ := Parse.exists_group_tokenize hx
  refine tree_parse_of_pieceAt hgroup htrivia fun eof => ?_
  rcases value_cases (Parse.formed_of_mem_standings hx) hvalue hchild with
    ⟨m, hscalar, hm⟩ | hcontainer
  · rw [hscalar] at htoken hls ⊢
    obtain rfl := sameButMoved_nil.mp hls
    exact exists_value_scalar hm htoken eof
  · have hpiece := everyNode_pieceIfContainer _ _ 0 [] x hx
    exact exists_value_container hpiece hcontainer (shallow_of_descendants hshallow) htoken hls eof

/-- In `[{a "b]` the object has no closer and a string in it none either; its text is read as the
same object. -/
theorem parse_value_alone_open_object :
    ∃ s ∈ (parse ['[', '{', 'a', ' ', '"', 'b', ']']).sites, s.tree.isNodeOf .value = true ∧
      s.tree.text = ['{', 'a', ' ', '"', 'b'] ∧
      (parse ['{', 'a', ' ', '"', 'b']).tree = .node (.node .file) [s.tree] := by
  have hmem : (parse ['[', '{', 'a', ' ', '"', 'b', ']']).sites.get ⟨4, by decide +kernel⟩ ∈
      (parse ['[', '{', 'a', ' ', '"', 'b', ']']).sites := List.get_mem ..
  have htext : ((parse ['[', '{', 'a', ' ', '"', 'b', ']']).sites.get
      ⟨4, by decide +kernel⟩).tree.text = ['{', 'a', ' ', '"', 'b'] := by decide +kernel
  have hparse := parse_value_alone hmem (by decide +kernel) (by decide +kernel) (by decide +kernel)
  rw [htext] at hparse
  exact ⟨_, hmem, by decide +kernel, htext, hparse⟩

end Maml
