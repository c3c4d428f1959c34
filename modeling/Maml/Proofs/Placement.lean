import Maml.Defect
import Maml.Proofs.Lossless

/-! Where the parts of a document's tree stand.

1. The tokens of a text tile it: none is empty, and each starts where the one in
   front of it ends (`tiled_tokenize`). Every lexeme has trivia in front of one
   significant token (`valid_group`).
2. So a row of drafts covers as many bytes as its tokens (`sizeList_trees`), and a
   draft starts and ends where its first and last significant tokens do
   (`span_firstToken`, `stop_lastToken`).
3. A row of trees in its places is the first draft, behind its trivia, and the
   rest of the row (`row_trees_cons`); a node holds the row of its parts
   (`row_trees_parts`). -/
namespace Maml

/-! ## Tokens -/

def Token.sizeList : List Token → Nat
  | [] => 0
  | t :: ts => t.text.size + sizeList ts

namespace Token

@[simp] theorem sizeList_nil : sizeList [] = 0 := rfl

@[simp] theorem sizeList_cons (t : Token) (ts : List Token) :
    sizeList (t :: ts) = t.text.size + sizeList ts := rfl

@[simp] theorem sizeList_append (ts us : List Token) :
    sizeList (ts ++ us) = sizeList ts + sizeList us := by
  induction ts with
  | nil => simp
  | cons t ts ih => simp [ih, Nat.add_assoc]

end Token

/-- Tokens that follow one another from an offset, none of them empty. -/
def Tiled : Nat → List Token → Prop
  | _, [] => True
  | o, t :: ts => t.span = ⟨o, o + t.text.size⟩ ∧ 0 < t.text.size ∧ Tiled (o + t.text.size) ts

theorem tiled_append {o : Nat} {ts us : List Token} :
    Tiled o (ts ++ us) ↔ Tiled o ts ∧ Tiled (o + Token.sizeList ts) us := by
  induction ts generalizing o with
  | nil => simp [Tiled]
  | cons t ts ih => simp [Tiled, ih, Nat.add_assoc, and_assoc]

theorem tiled_place {o : Nat} {ts : List (TokenKind × Text)} (h : ∀ t ∈ ts, t.2 ≠ []) :
    Tiled o (Lexer.place o ts) := by
  induction ts generalizing o with
  | nil => trivial
  | cons t ts ih =>
    have hpos : 0 < t.2.size :=
      Nat.pos_of_ne_zero fun h0 => h t List.mem_cons_self (Text.size_eq_zero.mp h0)
    exact ⟨rfl, hpos, ih fun u hu => h u (List.mem_cons_of_mem _ hu)⟩

theorem tiled_tokenize (source : Text) : Tiled 0 (tokenize source) :=
  tiled_place fun _ h => Lexer.text_ne_nil_of_mem_lex h

theorem sizeList_tokenize (source : Text) : Token.sizeList (tokenize source) = source.size := by
  have hsize (ts : List Token) : Text.size (ts.map Token.text).flatten = Token.sizeList ts := by
    induction ts with
    | nil => rfl
    | cons t ts ih => simp [ih]
  rw [← hsize, flatten_text_tokenize]

/-! ## Lexemes -/

def Lexeme.Valid (l : Lexeme) : Prop :=
  (∀ t ∈ l.trivia, t.isTrivia = true) ∧ l.token.isTrivia = false

namespace Lexeme

theorem filter_tokens {l : Lexeme} (h : l.Valid) : l.tokens.filter (!·.isTrivia) = [l.token] := by
  have htrivia : l.trivia.filter (!·.isTrivia) = [] := by
    rw [List.filter_eq_nil_iff]
    intro t ht
    simp [h.1 t ht]
  rw [tokens, List.filter_append, htrivia]
  simp [h.2]

theorem filter_flatMap_tokens {ls : List Lexeme} (h : ∀ l ∈ ls, l.Valid) :
    (ls.flatMap tokens).filter (!·.isTrivia) = ls.map token := by
  induction ls with
  | nil => rfl
  | cons l ls ih =>
    obtain ⟨hl, hls⟩ := List.forall_mem_cons.mp h
    rw [List.flatMap_cons, List.filter_append, filter_tokens hl, ih hls]
    rfl

end Lexeme

namespace Lexemes
variable {ts us : List Token} {ls : List Lexeme}

theorem Grouped.valid (h : Grouped ts ls us) : ∀ l ∈ ls, l.Valid := by
  induction h with
  | nil | trailing => exact fun _ hl => absurd hl List.not_mem_nil
  | trivia ht _ ih =>
    obtain ⟨hl, hls⟩ := List.forall_mem_cons.mp ih
    exact List.forall_mem_cons.mpr ⟨⟨List.forall_mem_cons.mpr ⟨ht, hl.1⟩, hl.2⟩, hls⟩
  | token ht _ ih =>
    exact List.forall_mem_cons.mpr ⟨⟨fun _ hu => absurd hu List.not_mem_nil, ht⟩, ih⟩

theorem Grouped.isTrivia (h : Grouped ts ls us) : ∀ t ∈ us, t.isTrivia = true := by
  induction h with
  | nil => exact fun _ ht => absurd ht List.not_mem_nil
  | trailing ht _ ih => exact List.forall_mem_cons.mpr ⟨ht, ih⟩
  | trivia _ _ ih => exact ih
  | token _ _ ih => exact ih

theorem group_of_valid (hls : ∀ l ∈ ls, l.Valid) (hus : ∀ t ∈ us, t.isTrivia = true) :
    group (ls.flatMap Lexeme.tokens ++ us) = (ls, us) := by
  induction ls with
  | nil => exact group_of_isTrivia hus
  | cons l ls ih =>
    obtain ⟨hl, hls⟩ := List.forall_mem_cons.mp hls
    rw [List.flatMap_cons, Lexeme.tokens, List.append_assoc, List.append_assoc,
      List.singleton_append, group_append_cons hl.1 hl.2, ih hls]

end Lexemes

theorem valid_group (ts : List Token) : ∀ l ∈ (Lexemes.group ts).1, l.Valid :=
  (Lexemes.grouped ts).valid

theorem isTrivia_of_mem_trailing (ts : List Token) :
    ∀ t ∈ (Lexemes.group ts).2, t.isTrivia = true :=
  (Lexemes.grouped ts).isTrivia

def Lexeme.sizeList (ls : List Lexeme) : Nat := Token.sizeList (ls.flatMap Lexeme.tokens)

/-- Lexemes that follow one another from an offset. -/
def Placed (o : Nat) (ls : List Lexeme) : Prop :=
  Tiled o (ls.flatMap Lexeme.tokens) ∧ ∀ l ∈ ls, l.Valid

theorem Lexeme.sizeList_append (ls ms : List Lexeme) :
    sizeList (ls ++ ms) = sizeList ls + sizeList ms := by
  simp [sizeList]

theorem Lexeme.sizeList_cons (l : Lexeme) (ls : List Lexeme) :
    sizeList (l :: ls) = sizeList [l] + sizeList ls :=
  sizeList_append [l] ls

theorem placed_append {o : Nat} {ls ms : List Lexeme} :
    Placed o (ls ++ ms) ↔ Placed o ls ∧ Placed (o + Lexeme.sizeList ls) ms := by
  unfold Placed Lexeme.sizeList
  rw [List.flatMap_append, tiled_append, List.forall_mem_append]
  exact and_and_and_comm

theorem placed_tokenize (source : Text) :
    Placed 0 (Lexemes.ofTokens (tokenize source) source.size).lexemes := by
  have htiled := tiled_tokenize source
  rw [← Lexemes.tokens_ofTokens (fun _ h => kind_ne_eof_of_mem_tokenize h) source.size,
    tiled_append] at htiled
  exact ⟨htiled.1, valid_group _⟩

namespace Draft

/-! ## Sizes and ends of drafts -/

theorem sizeList_trees (ds : List Draft) :
    Tree.sizeList (trees ds) = Lexeme.sizeList (lexemesList ds) := by
  rw [Tree.sizeList_eq, Tree.textList_eq_flatMap_leavesList, leaves_trees, Lexeme.sizeList]
  induction (lexemesList ds).flatMap Lexeme.tokens with
  | nil => rfl
  | cons t ts ih => simp [leafOf, ih]

theorem size_tree (d : Draft) :
    Token.sizeList d.trivia + d.tree.size = Lexeme.sizeList d.lexemes := by
  have h := sizeList_trees [d]
  have htrivia : Tree.sizeList (d.trivia.map tokenLeaf ++ d.tree :: []) =
      Token.sizeList d.trivia + d.tree.size := by
    induction d.trivia with
    | nil => simp [Tree.sizeList]
    | cons t ts ih => simp [Tree.sizeList, ih, tokenLeaf, Tree.size, Nat.add_assoc]
  rw [trees, trees, htrivia] at h
  simpa using h

theorem exists_lexemes_eq_cons (d : Draft) : ∃ ls, d.lexemes = d.firstLexeme :: ls := by
  induction d using firstLexeme.induct with
  | case1 l => exact ⟨[], rfl⟩
  | case2 kind before first rest after ih =>
    obtain ⟨ls, h⟩ := ih
    exact ⟨ls ++ lexemesList rest, by rw [lexemes_node, h]; rfl⟩

mutual

theorem exists_lexemes_eq_append : ∀ d : Draft, ∃ ls l, d.lexemes = ls ++ [l] ∧
    l.token = d.lastToken
  | leaf l => ⟨[], l, rfl, rfl⟩
  | node _ _ first rest _ => by
    obtain ⟨ls, l, h, hl⟩ := exists_lexemes_eq_append first
    rw [lexemes_node, h, lastToken, ← hl]
    exact exists_lexemesList_eq_append rest ls l

theorem exists_lexemesList_eq_append : ∀ (ds : List Draft) (ls : List Lexeme) (l : Lexeme),
    ∃ ms m, ls ++ [l] ++ lexemesList ds = ms ++ [m] ∧ m.token = lastTokenFrom l.token ds
  | [], ls, l => ⟨ls, l, by simp, rfl⟩
  | d :: ds, ls, l => by
    obtain ⟨ms, m, h, hm⟩ := exists_lexemes_eq_append d
    rw [lexemesList_cons, h, lastTokenFrom, ← hm]
    obtain ⟨ns, n, hn, hn'⟩ := exists_lexemesList_eq_append ds (ls ++ [l] ++ ms) m
    exact ⟨ns, n, by rw [← hn]; simp, hn'⟩

end

theorem span_firstToken {o : Nat} {d : Draft} (h : Placed o d.lexemes) :
    d.firstToken.span = ⟨o + Token.sizeList d.trivia,
      o + Token.sizeList d.trivia + d.firstToken.text.size⟩ := by
  obtain ⟨ls, hls⟩ := exists_lexemes_eq_cons d
  have ht := h.1
  rw [hls, List.flatMap_cons, Lexeme.tokens, List.append_assoc, tiled_append] at ht
  exact ht.2.1

theorem ordered_firstToken {o : Nat} {d : Draft} (h : Placed o d.lexemes) :
    d.firstToken.span.Ordered := by
  rw [span_firstToken h]
  exact Nat.le_add_right _ _

theorem stop_lastToken {o : Nat} {d : Draft} (h : Placed o d.lexemes) :
    d.lastToken.span.stop = o + Lexeme.sizeList d.lexemes := by
  obtain ⟨ls, l, hls, hl⟩ := exists_lexemes_eq_append d
  have ht := h.1
  rw [hls, List.flatMap_append, List.flatMap_singleton, Lexeme.tokens, ← List.append_assoc,
    tiled_append] at ht
  rw [← hl, ht.2.1, Lexeme.sizeList, hls, List.flatMap_append, List.flatMap_singleton,
    Lexeme.tokens, ← List.append_assoc, Token.sizeList_append]
  simp [Nat.add_assoc]

/-! ## Rows in their places -/

theorem row_append (ts us : List Tree) (o : Nat) (b : List (Option Text)) :
    Site.row o b (ts ++ us) =
      Site.row o b ts ++ Site.row (o + Tree.sizeList ts) (Tree.slotsAfterRow b ts) us := by
  induction ts generalizing o b with
  | nil => rfl
  | cons t ts ih => simp [Site.row, Tree.sizeList, Tree.slotsAfterRow, ih, Nat.add_assoc]

theorem nodesOfRow_append (ts us : List Tree) (o : Nat) (b : List (Option Text)) :
    Site.nodesOfRow o b (ts ++ us) =
      Site.nodesOfRow o b ts ++
        Site.nodesOfRow (o + Tree.sizeList ts) (Tree.slotsAfterRow b ts) us := by
  induction ts generalizing o b with
  | nil => rfl
  | cons t ts ih => simp [Site.nodesOfRow, Tree.sizeList, Tree.slotsAfterRow, ih, Nat.add_assoc]

theorem nodesOfRow_map_tokenLeaf (ts : List Token) (o : Nat) (b : List (Option Text)) :
    Site.nodesOfRow o b (ts.map tokenLeaf) = [] := by
  induction ts generalizing o b with
  | nil => rfl
  | cons t ts ih =>
    rw [List.map_cons, Site.nodesOfRow, ih]
    rfl

theorem sizeList_map_tokenLeaf (ts : List Token) :
    Tree.sizeList (ts.map tokenLeaf) = Token.sizeList ts := by
  induction ts with
  | nil => rfl
  | cons t ts ih => simp [Tree.sizeList, ih, tokenLeaf, Tree.size]

theorem isTrivia_of_mem_row {ts : List Token} (h : ∀ t ∈ ts, t.isTrivia = true) (o : Nat)
    (b : List (Option Text)) : ∀ s ∈ Site.row o b (ts.map tokenLeaf), s.tree.isTrivia = true := by
  induction ts generalizing o b with
  | nil => simp [Site.row]
  | cons t ts ih =>
    intro s hs
    rcases List.mem_cons.mp hs with rfl | hs
    · exact h t List.mem_cons_self
    · exact ih (fun u hu => h u (List.mem_cons_of_mem _ hu)) _ _ s hs

/-- The site of a draft at the front of a row: behind its trivia. -/
def siteOf (o : Nat) (b : List (Option Text)) (d : Draft) : Site :=
  ⟨o + Token.sizeList d.trivia, Tree.slotsAfterRow b (d.trivia.map tokenLeaf), d.tree⟩

/-- The slots behind a draft at the front of a row. -/
def slotsBehind (b : List (Option Text)) (d : Draft) : List (Option Text) :=
  d.tree.slotsAfter (Tree.slotsAfterRow b (d.trivia.map tokenLeaf))

@[simp] theorem tree_siteOf (o : Nat) (b : List (Option Text)) (d : Draft) :
    (siteOf o b d).tree = d.tree := rfl

theorem stop_siteOf (o : Nat) (b : List (Option Text)) (d : Draft) :
    (siteOf o b d).stop = o + Lexeme.sizeList d.lexemes := by
  rw [← size_tree, ← Nat.add_assoc]
  rfl

theorem row_trees_cons (o : Nat) (b : List (Option Text)) (d : Draft) (ds : List Draft) :
    Site.row o b (trees (d :: ds)) = Site.row o b (d.trivia.map tokenLeaf) ++ siteOf o b d ::
      Site.row (o + Lexeme.sizeList d.lexemes) (slotsBehind b d) (trees ds) := by
  rw [trees, row_append, sizeList_map_tokenLeaf, Site.row, Nat.add_assoc, size_tree]
  rfl

theorem nodesOfRow_trees_cons (o : Nat) (b : List (Option Text)) (d : Draft) (ds : List Draft) :
    Site.nodesOfRow o b (trees (d :: ds)) = (siteOf o b d).descendants ++
      Site.nodesOfRow (o + Lexeme.sizeList d.lexemes) (slotsBehind b d) (trees ds) := by
  rw [trees, nodesOfRow_append, nodesOfRow_map_tokenLeaf, sizeList_map_tokenLeaf,
    List.nil_append, Site.nodesOfRow, Nat.add_assoc, size_tree]
  rfl

/-- The nodes at and below a node: itself, and those in the row of its parts. -/
theorem descendants_siteOf_node (o : Nat) (b : List (Option Text)) (kind : NodeKind)
    (before after : Option ParseError) (first : Draft) (rest : List Draft) :
    (siteOf o b (node kind before first rest after)).descendants =
      siteOf o b (node kind before first rest after) ::
        Site.nodesOfRow o b (trees (first :: rest)) := by
  rw [trees, nodesOfRow_append, nodesOfRow_map_tokenLeaf, sizeList_map_tokenLeaf]
  rfl

theorem descendants_siteOf_leaf (o : Nat) (b : List (Option Text)) (l : Lexeme) :
    (siteOf o b (leaf l)).descendants = [] := rfl

/-- The parts of a node are a row, apart from the trivia in front of it. -/
theorem row_trees_parts (o : Nat) (b : List (Option Text)) (kind : NodeKind)
    (before after : Option ParseError) (first : Draft) (rest : List Draft) :
    Site.row o b (trees (first :: rest)) = Site.row o b (first.trivia.map tokenLeaf) ++
      (siteOf o b (node kind before first rest after)).parts := by
  rw [trees, row_append, sizeList_map_tokenLeaf]
  rfl

end Draft

end Maml
