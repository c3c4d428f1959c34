import Maml.Spot
import Maml.Proofs.Standing

/-! The parts of a document and its leaves in order.

1. The leaves of a document that are not trivia are its lexemes, each where it stands
   (`significantLeaves_parse`). So the leaf in front of an offset, or behind it, is that
   of a lexeme (`leafBefore?_parse`, `leafBehind?_parse`).
2. The spots of a row of drafts are trivia, those of the first draft and those of the
   rest; a node's are itself and those of its parts (`mem_spotsOfRow_cons`,
   `mem_spots_node`).
3. A part of a document is in the innermost node around it, which is a node of the
   document (`parent_of_mem_spots`). -/
namespace Maml

/-! ## Lexemes in order -/

theorem placed_cons {o : Nat} {l : Lexeme} {ls : List Lexeme} (h : Placed o (l :: ls)) :
    o ≤ l.token.span.start ∧ l.token.span.start < l.token.span.stop ∧
      l.token.span.stop = o + Lexeme.sizeList [l] ∧ Placed (o + Lexeme.sizeList [l]) ls := by
  obtain ⟨hl, hls⟩ := placed_append.mp (show Placed o ([l] ++ ls) from h)
  have hspan := Draft.span_firstToken (d := .leaf l) hl
  have hpos : 0 < l.token.text.size := Draft.size_firstToken_pos (d := .leaf l) hl
  have hsize : Lexeme.sizeList [l] = Token.sizeList l.trivia + l.token.text.size := by
    simp [Lexeme.sizeList, Lexeme.tokens]
  have hstart : l.token.span.start = o + Token.sizeList l.trivia := congrArg Span.start hspan
  have hstop : l.token.span.stop = o + Token.sizeList l.trivia + l.token.text.size :=
    congrArg Span.stop hspan
  exact ⟨by omega, by omega, by omega, hls⟩

theorem placed_head {o : Nat} {l : Lexeme} {ls : List Lexeme} (h : Placed o (l :: ls)) :
    Placed o [l] :=
  (placed_append.mp (show Placed o ([l] ++ ls) from h)).1

theorem bounds_of_placed {o : Nat} {ls : List Lexeme} (h : Placed o ls) :
    ∀ l ∈ ls, o ≤ l.token.span.start ∧ l.token.span.start < l.token.span.stop ∧
      l.token.span.stop ≤ o + Lexeme.sizeList ls := by
  intro l hl
  obtain ⟨front, back, rfl⟩ := List.mem_iff_append.mp hl
  obtain ⟨hle, hlt, hstop, -⟩ := placed_cons (placed_append.mp h).2
  rw [Lexeme.sizeList_append, Lexeme.sizeList_cons]
  exact ⟨by omega, hlt, by omega⟩

/-! ## Leaves in order -/

def Token.view (t : Token) : LeafView := ⟨t.span.start, .token t.kind, t.text⟩

def Lexeme.view (l : Lexeme) : LeafView := l.token.view

theorem offset_view (l : Lexeme) : l.view.offset = l.token.span.start := rfl

namespace Draft

theorem row_map_leafOf {o : Nat} {ts : List Token} (h : Tiled o ts) :
    LeafView.row o (ts.map leafOf) = ts.map Token.view := by
  induction ts generalizing o with
  | nil => rfl
  | cons t ts ih =>
    rw [List.map_cons, List.map_cons, leafOf, LeafView.row, ih h.2.2, Token.view, h.1]

end Draft

theorem map_token_lexemes (source : Text) :
    (Lexemes.ofTokens (tokenize source) source.size).lexemes.map Lexeme.token =
      (tokenize source).filter (!·.isTrivia) := by
  rw [Lexemes.ofTokens, takeWhile_tokenize]
  exact Lexemes.map_token_group _

namespace Parse

/-- The significant tokens of a document with the trivia in front of them. -/
def lexemes (source : Text) : List Lexeme :=
  (Lexemes.ofTokens (tokenize source) source.size).lexemes

/-- The leaves of a document that are not trivia are its significant tokens. -/
theorem significantLeaves_parse (source : Text) :
    (parse source).significantLeaves = (lexemes source).map Lexeme.view := by
  have hview : Lexeme.view = Token.view ∘ Lexeme.token := rfl
  rw [significantLeaves, leaves_tree_parse, Draft.row_map_leafOf (tiled_tokenize source), hview,
    ← List.map_map, lexemes, map_token_lexemes, List.filter_map]
  rfl

theorem leafBehind?_parse {source : Text} {front back : List Lexeme}
    (h : lexemes source = front ++ back) :
    (parse source).leafBehind? (Lexeme.sizeList front) = back.head?.map Lexeme.view := by
  have hp : Placed 0 (front ++ back) := h ▸ placed_tokenize source
  obtain ⟨hfront, hback⟩ := placed_append.mp hp
  have hnone : (front.map Lexeme.view).find? (Lexeme.sizeList front ≤ ·.offset) = none := by
    rw [List.find?_eq_none]
    intro v hv
    obtain ⟨l, hl, rfl⟩ := List.mem_map.mp hv
    have hbounds := bounds_of_placed hfront l hl
    rw [offset_view, decide_eq_true_iff]
    omega
  rw [leafBehind?, significantLeaves_parse, h, List.map_append, List.find?_append, hnone,
    Option.none_or]
  cases back with
  | nil => rfl
  | cons l back =>
    have hle := (placed_cons hback).1
    have hfirst : decide (Lexeme.sizeList front ≤ l.view.offset) = true := by
      rw [offset_view, decide_eq_true_iff]
      omega
    rw [List.map_cons, List.find?_cons, hfirst]
    rfl

theorem offsets_around {source : Text} {front back : List Lexeme} {l : Lexeme}
    (h : lexemes source = front ++ l :: back) :
    (∀ v ∈ front.map Lexeme.view, v.offset < l.token.span.start) ∧
      ∀ v ∈ (l :: back).map Lexeme.view, l.token.span.start ≤ v.offset := by
  have hp : Placed 0 (front ++ l :: back) := h ▸ placed_tokenize source
  obtain ⟨hfront, hback⟩ := placed_append.mp hp
  obtain ⟨hstart, hlt, hstop, hrest⟩ := placed_cons hback
  refine ⟨fun v hv => ?_, fun v hv => ?_⟩
  · obtain ⟨m, hm, rfl⟩ := List.mem_map.mp hv
    have hbounds := bounds_of_placed hfront m hm
    rw [offset_view]
    omega
  · obtain ⟨m, hm, rfl⟩ := List.mem_map.mp hv
    rw [offset_view]
    rcases List.mem_cons.mp hm with rfl | hm
    · exact Nat.le_refl _
    · have hbounds := bounds_of_placed hrest m hm
      omega

theorem leafBefore?_parse {source : Text} {front back : List Lexeme} {l : Lexeme}
    (h : lexemes source = front ++ l :: back) :
    (parse source).leafBefore? l.token.span.start = front.getLast?.map Lexeme.view := by
  obtain ⟨hfront, hback⟩ := offsets_around h
  have hkeep : (front.map Lexeme.view).filter (·.offset < l.token.span.start) =
      front.map Lexeme.view :=
    List.filter_eq_self.mpr fun v hv => decide_eq_true (hfront v hv)
  have hdrop : ((l :: back).map Lexeme.view).filter (·.offset < l.token.span.start) = [] :=
    List.filter_eq_nil_iff.mpr fun v hv => by simpa using hback v hv
  rw [leafBefore?, significantLeaves_parse, h, List.map_append, List.filter_append, hkeep, hdrop,
    List.append_nil, List.getLast?_map]

theorem filter_significantLeaves_parse {source : Text} {front back : List Lexeme} {l : Lexeme}
    (h : lexemes source = front ++ l :: back) :
    (parse source).significantLeaves.filter (l.token.span.start ≤ ·.offset) =
      (l :: back).map Lexeme.view := by
  obtain ⟨hfront, hback⟩ := offsets_around h
  have hdrop : (front.map Lexeme.view).filter (l.token.span.start ≤ ·.offset) = [] :=
    List.filter_eq_nil_iff.mpr fun v hv => by simpa using hfront v hv
  have hkeep : ((l :: back).map Lexeme.view).filter (l.token.span.start ≤ ·.offset) =
      (l :: back).map Lexeme.view :=
    List.filter_eq_self.mpr fun v hv => decide_eq_true (hback v hv)
  rw [significantLeaves_parse, h, List.map_append, List.filter_append, hdrop, hkeep,
    List.nil_append]

end Parse

/-! ## Spots of drafts -/

namespace Draft

/-- A draft at the front of a row and all its parts, with the nodes around them. -/
def spots (around : List Site) (o : Nat) (b : List (Option Text)) (d : Draft) : List Spot :=
  Site.spotsOf around (siteOf o b d).offset (siteOf o b d).before d.tree

theorem spotsOfRow_append (around : List Site) (o : Nat) (b : List (Option Text))
    (ts us : List Tree) : Site.spotsOfRow around o b (ts ++ us) = Site.spotsOfRow around o b ts ++
      Site.spotsOfRow around (o + Tree.sizeList ts) (Tree.slotsAfterRow b ts) us := by
  induction ts generalizing o b with
  | nil => rfl
  | cons t ts ih => simp [Site.spotsOfRow, Tree.sizeList, Tree.slotsAfterRow, ih, Nat.add_assoc]

theorem mem_spotsOfRow_tokens {around : List Site} {o : Nat} {b : List (Option Text)}
    {ts : List Token} {x : Spot} (hx : x ∈ Site.spotsOfRow around o b (ts.map tokenLeaf)) :
    x.around = around ∧ ∃ t ∈ ts, x.site.tree = tokenLeaf t := by
  induction ts generalizing o b with
  | nil => simp [Site.spotsOfRow] at hx
  | cons t ts ih =>
    rcases List.mem_append.mp hx with hx | hx
    · obtain rfl := List.mem_singleton.mp hx
      exact ⟨rfl, t, List.mem_cons_self, rfl⟩
    · obtain ⟨haround, u, hu, htree⟩ := ih hx
      exact ⟨haround, u, List.mem_cons_of_mem _ hu, htree⟩

theorem trees_map_leaf (ls : List Lexeme) :
    trees (ls.map leaf) = (ls.flatMap Lexeme.tokens).map tokenLeaf := by
  induction ls with
  | nil => rfl
  | cons l ls ih =>
    rw [List.map_cons, trees, ih, List.flatMap_cons, List.map_append, Lexeme.tokens,
      List.map_append, List.append_assoc]
    rfl

theorem mem_spotsOfRow_leaves {around : List Site} {o : Nat} {b : List (Option Text)}
    {ls : List Lexeme} {x : Spot} (hx : x ∈ Site.spotsOfRow around o b (trees (ls.map leaf))) :
    x.around = around ∧ ∃ t, x.site.tree = tokenLeaf t := by
  rw [trees_map_leaf] at hx
  obtain ⟨haround, t, -, htree⟩ := mem_spotsOfRow_tokens hx
  exact ⟨haround, t, htree⟩

theorem mem_spotsOfRow_cons {around : List Site} {o : Nat} {b : List (Option Text)} {d : Draft}
    {ds : List Draft} {x : Spot} (hx : x ∈ Site.spotsOfRow around o b (trees (d :: ds))) :
    (x.around = around ∧ ∃ t ∈ d.trivia, x.site.tree = tokenLeaf t) ∨ x ∈ spots around o b d ∨
      x ∈ Site.spotsOfRow around (o + Lexeme.sizeList d.lexemes) (slotsBehind b d) (trees ds) := by
  rw [trees, spotsOfRow_append, sizeList_map_tokenLeaf, Site.spotsOfRow, Nat.add_assoc,
    size_tree] at hx
  rcases List.mem_append.mp hx with hx | hx
  · exact .inl (mem_spotsOfRow_tokens hx)
  · exact .inr (List.mem_append.mp hx)

theorem mem_spots_leaf {around : List Site} {o : Nat} {b : List (Option Text)} {l : Lexeme}
    {x : Spot} (hx : x ∈ spots around o b (leaf l)) : x = ⟨around, siteOf o b (leaf l)⟩ :=
  List.mem_singleton.mp hx

theorem mem_spots_node {around : List Site} {o : Nat} {b : List (Option Text)} {kind : NodeKind}
    {before after : Option ParseError} {first : Draft} {rest : List Draft} {x : Spot}
    (hx : x ∈ spots around o b (node kind before first rest after)) :
    x = ⟨around, siteOf o b (node kind before first rest after)⟩ ∨
      x ∈ Site.spotsOfRow (siteOf o b (node kind before first rest after) :: around) o b
        (trees (first :: rest)) := by
  rcases List.mem_cons.mp hx with rfl | hx
  · exact .inl rfl
  · refine .inr ?_
    rw [trees, spotsOfRow_append, sizeList_map_tokenLeaf]
    exact List.mem_append_right _ hx

theorem mem_spotsOfRow_concat {around : List Site} {o : Nat} {b : List (Option Text)} {d : Draft}
    {ds : List Draft} {x : Spot} (hx : x ∈ Site.spotsOfRow around o b (trees (ds ++ [d]))) :
    x ∈ Site.spotsOfRow around o b (trees ds) ∨ (∃ t ∈ d.trivia, x.site.tree = tokenLeaf t) ∨
      x ∈ spots around (o + Lexeme.sizeList (lexemesList ds)) (Tree.slotsAfterRow b (trees ds))
        d := by
  rw [trees_append, spotsOfRow_append, sizeList_trees] at hx
  rcases List.mem_append.mp hx with hx | hx
  · exact .inl hx
  rcases mem_spotsOfRow_cons hx with hx | hx | hx
  · exact .inr (.inl hx.2)
  · exact .inr (.inr hx)
  · simp [trees, Site.spotsOfRow] at hx

theorem getLast?_parts (o : Nat) (b : List (Option Text)) (kind : NodeKind)
    (before after : Option ParseError) (first d : Draft) (rest : List Draft) :
    (siteOf o b (node kind before first (rest ++ [d]) after)).parts.getLast? =
      some (siteOf (o + Lexeme.sizeList (lexemesList (first :: rest)))
        (Tree.slotsAfterRow b (trees (first :: rest))) d) := by
  have hrow := row_trees_parts o b kind before after first (rest ++ [d])
  have hlast : (Site.row o b (trees (first :: (rest ++ [d])))).getLast? =
      some (siteOf (o + Lexeme.sizeList (lexemesList (first :: rest)))
        (Tree.slotsAfterRow b (trees (first :: rest))) d) := by
    rw [← List.cons_append, trees_append, row_append, sizeList_trees, row_trees_cons _ _ d,
      ← List.append_assoc]
    exact List.getLast?_concat
  have hne : (siteOf o b (node kind before first (rest ++ [d]) after)).parts ≠ [] := by
    simp [Site.parts, siteOf, tree, Tree.children, Site.row]
  rw [hrow, List.getLast?_append_of_ne_nil _ hne] at hlast
  exact hlast

theorem leaf?_siteOf {o : Nat} {l : Lexeme} (h : Placed o [l]) (b : List (Option Text)) :
    (siteOf o b (leaf l)).leaf? = some l.view := by
  have hspan := span_firstToken (d := leaf l) h
  have hstart : l.token.span.start = o + Token.sizeList l.trivia := congrArg Span.start hspan
  rw [Lexeme.view, Token.view, hstart]
  rfl

end Draft

/-! ## The node around a part -/

mutual

theorem map_site_spotsOf (around : List Site) (o : Nat) (b : List (Option Text)) : ∀ t : Tree,
    ((Site.spotsOf around o b t).filter (·.site.tree.isNode)).map Spot.site = Site.nodesOf o b t
  | .leaf .. => rfl
  | .node label children => by
    rw [Site.spotsOf, List.filter_cons_of_pos rfl, List.map_cons,
      map_site_spotsOfRow _ o b children, Site.nodesOf]

theorem map_site_spotsOfRow (around : List Site) (o : Nat) (b : List (Option Text)) :
    ∀ ts : List Tree, ((Site.spotsOfRow around o b ts).filter (·.site.tree.isNode)).map Spot.site =
      Site.nodesOfRow o b ts
  | [] => rfl
  | t :: ts => by
    rw [Site.spotsOfRow, List.filter_append, List.map_append, map_site_spotsOf around o b t,
      map_site_spotsOfRow around _ _ ts, Site.nodesOfRow]

end

theorem mem_sites_iff {p : Parse} {s : Site} :
    s ∈ p.sites ↔ ∃ x ∈ p.spots, x.site.tree.isNode = true ∧ x.site = s := by
  have hnodes : p.sites = (p.spots.filter (·.site.tree.isNode)).map Spot.site :=
    (map_site_spotsOf [] 0 [] p.tree).symm
  rw [hnodes, List.mem_map]
  simp only [List.mem_filter, and_assoc]

mutual

theorem parent_of_mem_spotsOf {x : Spot} (around : List Site) (o : Nat) (b : List (Option Text)) :
    ∀ t, x ∈ Site.spotsOf around o b t → (x.around = around ∧ x.site = ⟨o, b, t⟩) ∨
      ∃ s outer, x.around = s :: outer ∧ s ∈ Site.nodesOf o b t ∧ x.site ∈ s.parts
  | .leaf label text, hx => by
    obtain rfl := List.mem_singleton.mp hx
    exact .inl ⟨rfl, rfl⟩
  | .node label children, hx => by
    rcases List.mem_cons.mp hx with rfl | hx
    · exact .inl ⟨rfl, rfl⟩
    rcases parent_of_mem_spotsOfRow _ o b children hx with ⟨haround, hsite⟩ | ⟨s, outer, h⟩
    · exact .inr ⟨_, _, haround, List.mem_cons_self, hsite⟩
    · exact .inr ⟨s, outer, h.1, List.mem_cons_of_mem _ h.2.1, h.2.2⟩

theorem parent_of_mem_spotsOfRow {x : Spot} (around : List Site) (o : Nat)
    (b : List (Option Text)) : ∀ ts, x ∈ Site.spotsOfRow around o b ts →
      (x.around = around ∧ x.site ∈ Site.row o b ts) ∨
      ∃ s outer, x.around = s :: outer ∧ s ∈ Site.nodesOfRow o b ts ∧ x.site ∈ s.parts
  | [], hx => by simp [Site.spotsOfRow] at hx
  | t :: ts, hx => by
    rcases List.mem_append.mp hx with hx | hx
    · rcases parent_of_mem_spotsOf around o b t hx with ⟨haround, hsite⟩ | ⟨s, outer, h⟩
      · exact .inl ⟨haround, hsite ▸ List.mem_cons_self⟩
      · exact .inr ⟨s, outer, h.1, List.mem_append_left _ h.2.1, h.2.2⟩
    · rcases parent_of_mem_spotsOfRow around _ _ ts hx with ⟨haround, hsite⟩ | ⟨s, outer, h⟩
      · exact .inl ⟨haround, List.mem_cons_of_mem _ hsite⟩
      · exact .inr ⟨s, outer, h.1, List.mem_append_right _ h.2.1, h.2.2⟩

end

/-- A leaf of a document is in a node of the document, the innermost one around it. -/
theorem parent_of_mem_spots {source : Text} {x : Spot} (hx : x ∈ (parse source).spots)
    (hleaf : x.site.tree.isNode = false) :
    ∃ s outer, x.around = s :: outer ∧ s ∈ (parse source).sites ∧ x.site ∈ s.parts := by
  rcases parent_of_mem_spotsOf [] 0 [] _ hx with ⟨-, hsite⟩ | h
  · rw [hsite] at hleaf
    simp [parse, Parse.ofLexemes, Tree.isNode] at hleaf
  · exact h

end Maml
