import Maml.Proofs.Placement
import Maml.Proofs.Shape

/-! What the tests for defects say of drafts.

1. A draft begins with its first token and covers at least that one
   (`firstTokenRange_siteOf`, `range_siteOf`, `isEmpty_range`).
2. The children of its tree that are not trivia are its parts (`filter_trees`). So its
   shape decides what is missing in it (`isUnclosed_containerNode`, `lacksValue_keyValue`,
   `isBareLiteralKey_tree`).
3. Its place in a row decides whether it counts as skipped tokens (`errorsAmong_row`,
   `errorsNotFollowing_row`). -/
namespace Maml.Draft

/-! ## Tokens and ranges -/

theorem firstLeaf?_tree (d : Draft) : d.tree.firstLeaf? = some (leafOf d.firstToken) := by
  induction d using firstLexeme.induct with
  | case1 l => rfl
  | case2 kind before first rest after ih => exact ih

theorem beginsWith_tree (test : TokenKind → Bool) (d : Draft) :
    d.tree.beginsWith test = test d.firstToken.kind := by
  rw [Tree.beginsWith, firstLeaf?_tree]
  rfl

theorem firstTokenRange_siteOf {o : Nat} {d : Draft} (h : Placed o d.lexemes)
    (b : List (Option Text)) : (siteOf o b d).firstTokenRange = d.firstToken.span := by
  rw [Site.firstTokenRange, tree_siteOf, firstLeaf?_tree, span_firstToken h]
  rfl

theorem range_siteOf {o : Nat} {d : Draft} (h : Placed o d.lexemes) (b : List (Option Text)) :
    (siteOf o b d).range = ⟨d.firstToken.span.start, d.lastToken.span.stop⟩ := by
  rw [Site.range, stop_siteOf, stop_lastToken h, span_firstToken h]
  rfl

theorem size_firstToken_pos {o : Nat} {d : Draft} (h : Placed o d.lexemes) :
    0 < d.firstToken.text.size := by
  obtain ⟨ls, hls⟩ := exists_lexemes_eq_cons d
  have ht := h.1
  rw [hls, List.flatMap_cons, Lexeme.tokens, List.append_assoc, tiled_append] at ht
  exact ht.2.2.1

theorem isEmpty_span_firstToken {o : Nat} {d : Draft} (h : Placed o d.lexemes) :
    d.firstToken.span.isEmpty = false := by
  have hpos := size_firstToken_pos h
  rw [span_firstToken h]
  simp only [Span.isEmpty, beq_eq_false_iff_ne]
  omega

theorem isEmpty_range {o : Nat} {d : Draft} (h : Placed o d.lexemes) :
    (⟨d.firstToken.span.start, d.lastToken.span.stop⟩ : Span).isEmpty = false := by
  have hpos := size_firstToken_pos h
  have hsize : Token.sizeList d.trivia + d.firstToken.text.size ≤ Lexeme.sizeList d.lexemes := by
    obtain ⟨ls, hls⟩ := exists_lexemes_eq_cons d
    rw [hls, Lexeme.sizeList, List.flatMap_cons, Lexeme.tokens, Token.sizeList_append,
      Token.sizeList_append, Token.sizeList_cons]
    show Token.sizeList d.firstLexeme.trivia + d.firstLexeme.token.text.size ≤ _
    omega
  rw [stop_lastToken h, span_firstToken h]
  simp only [Span.isEmpty, beq_eq_false_iff_ne]
  omega

/-! ## Kinds of parts -/

def isIncomplete : Draft → Bool
  | node .incompleteKeyValue .. => true
  | _ => false

theorem isNodeOf_error_tree (d : Draft) : d.tree.isNodeOf .error = d.isError := by
  cases d with
  | leaf => rfl
  | node kind => cases kind <;> rfl

theorem isNodeOf_incomplete_tree (d : Draft) :
    d.tree.isNodeOf .incompleteKeyValue = d.isIncomplete := by
  cases d with
  | leaf => rfl
  | node kind => cases kind <;> rfl

theorem isTokenOf_tree (kind : TokenKind) (d : Draft) : d.tree.isTokenOf kind = d.isToken kind := by
  cases d with
  | leaf l =>
    rw [Bool.eq_iff_iff]
    simp [tree, tokenLeaf, Tree.isTokenOf, isToken, Lexeme.kind]
  | node => rfl

theorem isQuotableToken_eq (d : Draft) :
    (d.tree.beginsWith isQuotable && !d.tree.isNode) = d.isQuotableToken := by
  cases d with
  | leaf l => simp [tree, tokenLeaf, Tree.beginsWith, Tree.firstLeaf?, Tree.isNode,
      isQuotableToken, Lexeme.kind]
  | node => simp [tree, Tree.isNode, isQuotableToken]

theorem isTrivia_tree {o : Nat} {d : Draft} (h : Placed o d.lexemes) : d.tree.isTrivia = false := by
  cases d with
  | leaf l => exact (h.2 l (by simp)).2
  | node => rfl

theorem forall_trivia_of_placed {o : Nat} {d : Draft} (h : Placed o d.lexemes) :
    ∀ t ∈ d.trivia, t.isTrivia = true := by
  obtain ⟨ls, hls⟩ := exists_lexemes_eq_cons d
  exact (h.2 d.firstLexeme (by rw [hls]; exact List.mem_cons_self)).1

/-! ## Parts of nodes -/

theorem getLast?_children (kind : NodeKind) (before after : Option ParseError) (first d : Draft)
    (rest : List Draft) :
    (node kind before first (rest ++ [d]) after).tree.children.getLast? = some d.tree := by
  have hchildren : (node kind before first (rest ++ [d]) after).tree.children =
      (first.tree :: trees rest ++ d.trivia.map tokenLeaf) ++ [d.tree] := by
    rw [tree, Tree.children, trees_append, trees, trees]
    simp
  rw [hchildren, List.getLast?_concat]

theorem isUnclosed_containerNode {c : Container} {opener : Lexeme} (ds : List Draft)
    {closer : Option Lexeme} (ho : opener.kind = c.opener) (hc : ∀ l ∈ closer, l.kind = c.closer)
    (after : Option ParseError) :
    (containerNode c opener ds closer after).tree.isUnclosed c = closer.isNone := by
  have hnode : (containerNode c opener ds closer after).tree.isNodeOf c.nodeKind = true := by
    simp [containerNode, tree, Tree.isNodeOf]
  rw [Tree.isUnclosed, hnode, Bool.true_and, containerNode]
  cases closer with
  | some l =>
    have hl : l.kind = c.closer := hc l rfl
    simp only [Option.map_some, Option.toList_some]
    rw [getLast?_children, Option.any_some, isTokenOf_tree, isToken, hl]
    simp
  | none =>
    -- the last part is the opener or the list, and neither is a closer
    simp only [Option.map_none, Option.toList_none, List.append_nil]
    cases ds with
    | nil =>
      have hne : (c.opener == c.closer) = false := by cases c <;> rfl
      have hlast : (node c.nodeKind none (leaf opener) [] after).tree.children.getLast? =
          some (leaf opener).tree := rfl
      rw [wrap, hlast, Option.any_some, isTokenOf_tree, isToken, ho, hne]
      rfl
    | cons d ds =>
      have hlast := getLast?_children c.nodeKind none after (leaf opener) (plain c.listKind d ds) []
      rw [wrap, ← List.nil_append [plain c.listKind d ds], hlast]
      rfl

theorem any_isNodeOf_trees (kind : NodeKind) (ds : List Draft) :
    (trees ds).any (·.isNodeOf kind) = ds.any (·.tree.isNodeOf kind) := by
  induction ds with
  | nil => rfl
  | cons d ds ih =>
    have htrivia : (d.trivia.map tokenLeaf).any (·.isNodeOf kind) = false := by
      rw [List.any_eq_false]
      intro t ht
      obtain ⟨u, _, rfl⟩ := List.mem_map.mp ht
      exact Bool.false_ne_true
    rw [trees, List.any_append, htrivia, Bool.false_or, List.any_cons, ih, List.any_cons]

theorem lacksValue_keyValue {e : List Container} {before after note : Option ParseError}
    {key colon : Lexeme} {value : List Draft} (hs : Shaped e (.behindColon colon note) value) :
    (node .keyValue before (plain .key (leaf key) []) (leaf colon :: value)
      after).tree.lacksValue = value.isEmpty := by
  rw [Tree.lacksValue, tree, Tree.children, List.any_cons, any_isNodeOf_trees]
  rcases shaped_behindColon hs with ⟨next, rfl, rfl⟩ | ⟨d, rfl, rfl, hd⟩
  · rfl
  · obtain ⟨first, rfl⟩ := exists_plain_of_shaped hd
    rfl

theorem filter_map_tokenLeaf {ts : List Token} (h : ∀ t ∈ ts, t.isTrivia = true) :
    (ts.map tokenLeaf).filter (!·.isTrivia) = [] := by
  rw [List.filter_eq_nil_iff]
  intro t ht
  obtain ⟨u, hu, rfl⟩ := List.mem_map.mp ht
  have hu : (tokenLeaf u).isTrivia = true := h u hu
  simp [hu]

theorem filter_trees {o : Nat} {ds : List Draft} (h : Placed o (lexemesList ds)) :
    (trees ds).filter (!·.isTrivia) = ds.map tree := by
  induction ds generalizing o with
  | nil => rfl
  | cons d ds ih =>
    rw [lexemesList_cons] at h
    obtain ⟨h₁, h₂⟩ := placed_append.mp h
    rw [trees, List.filter_append, filter_map_tokenLeaf (forall_trivia_of_placed h₁),
      List.nil_append, List.filter_cons, isTrivia_tree h₁, ih h₂]
    rfl

theorem significantChildren_tree {o : Nat} {kind : NodeKind} {before after : Option ParseError}
    {first : Draft} {rest : List Draft} (h : Placed o (first.lexemes ++ lexemesList rest)) :
    (node kind before first rest after).tree.significantChildren = (first :: rest).map tree := by
  obtain ⟨h₁, h₂⟩ := placed_append.mp h
  rw [tree, Tree.significantChildren, Tree.children, List.filter_cons, isTrivia_tree h₁,
    filter_trees h₂]
  rfl

theorem isBareLiteralKey_tree {o : Nat} {kind : NodeKind} {before after : Option ParseError}
    {first : Draft} {rest : List Draft} (h : Placed o (first.lexemes ++ lexemesList rest)) :
    (node kind before first rest after).tree.isBareLiteralKey =
      (first.isQuotableToken && rest.length == 1 && startsWithColon rest) := by
  rw [Tree.isBareLiteralKey, significantChildren_tree h]
  match rest with
  | [] => simp
  | [d] => simp [isQuotableToken_eq, isTokenOf_tree, startsWithColon]
  | d :: d' :: ds => simp

/-! ## Skipped tokens in a row -/

theorem errorsAmong_append (front rest : List Site) :
    Site.errorsAmong (front ++ rest) = Site.errorsAmong front ++ Site.errorsAmong rest :=
  List.filter_append ..

theorem errorsAmong_row_tokenLeaf (ts : List Token) (o : Nat) (b : List (Option Text)) :
    Site.errorsAmong (Site.row o b (ts.map tokenLeaf)) = [] := by
  induction ts generalizing o b with
  | nil => rfl
  | cons t ts ih => exact ih _ _

theorem errorsAmong_row (o : Nat) (b : List (Option Text)) (d : Draft) (ds : List Draft) :
    Site.errorsAmong (Site.row o b (trees (d :: ds))) =
      (if d.isError then [siteOf o b d] else []) ++
        Site.errorsAmong
          (Site.row (o + Lexeme.sizeList d.lexemes) (slotsBehind b d) (trees ds)) := by
  rw [row_trees_cons, errorsAmong_append, errorsAmong_row_tokenLeaf, List.nil_append,
    Site.errorsAmong, List.filter_cons, tree_siteOf, isNodeOf_error_tree]
  split <;> rfl

theorem errorsNotFollowing_append {front : List Site} (h : ∀ s ∈ front, s.tree.isTrivia = true)
    (follows : Bool) (rest : List Site) :
    Site.errorsNotFollowing follows (front ++ rest) = Site.errorsNotFollowing follows rest := by
  induction front with
  | nil => rfl
  | cons s front ih =>
    rw [List.cons_append, Site.errorsNotFollowing, if_pos (h s List.mem_cons_self)]
    exact ih fun t ht => h t (List.mem_cons_of_mem _ ht)

/-- A list begins with its first element; a key without a colon takes what is skipped behind it. -/
theorem errorsNotFollowing_row {o : Nat} {d : Draft} (hd : Placed o d.lexemes) (follows : Bool)
    (b : List (Option Text)) (ds : List Draft) :
    Site.errorsNotFollowing follows (Site.row o b (trees (d :: ds))) =
      (if d.isError && !follows then [siteOf o b d] else []) ++
        Site.errorsNotFollowing d.isIncomplete
          (Site.row (o + Lexeme.sizeList d.lexemes) (slotsBehind b d) (trees ds)) := by
  have htrivia := isTrivia_of_mem_row (forall_trivia_of_placed hd) o b
  have hskip : (d.isError = true → d.isIncomplete = false) := by
    cases d with
    | leaf => simp [isError]
    | node kind => cases kind <;> simp [isError, isIncomplete]
  rw [row_trees_cons, errorsNotFollowing_append htrivia, Site.errorsNotFollowing, tree_siteOf,
    if_neg (by simp [isTrivia_tree hd]), isNodeOf_error_tree, isNodeOf_incomplete_tree]
  split
  · rename_i h
    rw [hskip (Bool.and_eq_true_iff.mp h).1]
    rfl
  · rfl

end Maml.Draft
