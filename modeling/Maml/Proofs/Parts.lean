import Maml.Proofs.Spots

/-! Parts of nodes in their places.

1. What is in a node, trivia aside, is its drafts in their places (`mem_parts`), each
   behind the lexemes of those in front of it (`exists_of_mem_sitesOf`).
2. The list of a container is what stands between its brackets
   (`exists_list_of_mem_parts`). -/
namespace Maml

theorem isTrivia_of_isNodeOf {kind : NodeKind} {t : Tree} (h : t.isNodeOf kind = true) :
    t.isTrivia = false := by
  cases t with
  | leaf => exact absurd h Bool.false_ne_true
  | node => rfl

namespace Draft

def sitesOf (o : Nat) (b : List (Option Text)) : List Draft → List Site
  | [] => []
  | d :: ds => siteOf o b d :: sitesOf (o + Lexeme.sizeList d.lexemes) (slotsBehind b d) ds

theorem sitesOf_append (o : Nat) (b : List (Option Text)) (ds es : List Draft) :
    sitesOf o b (ds ++ es) = sitesOf o b ds ++
      sitesOf (o + Lexeme.sizeList (lexemesList ds)) (ds.foldl slotsBehind b) es := by
  induction ds generalizing o b with
  | nil => rfl
  | cons d ds ih =>
    rw [List.cons_append, sitesOf, ih, sitesOf, lexemesList_cons, Lexeme.sizeList_append,
      Nat.add_assoc]
    rfl

theorem exists_of_mem_sitesOf {o : Nat} {b : List (Option Text)} {ds : List Draft} {s : Site}
    (h : s ∈ sitesOf o b ds) : ∃ front d back, ds = front ++ d :: back ∧
      s = siteOf (o + Lexeme.sizeList (lexemesList front)) (front.foldl slotsBehind b) d := by
  induction ds generalizing o b with
  | nil => simp [sitesOf] at h
  | cons d ds ih =>
    rcases List.mem_cons.mp h with rfl | h
    · exact ⟨[], d, ds, rfl, rfl⟩
    · obtain ⟨front, d', back, rfl, rfl⟩ := ih h
      refine ⟨d :: front, d', back, rfl, ?_⟩
      rw [lexemesList_cons, Lexeme.sizeList_append, Nat.add_assoc]
      rfl

theorem bounds_of_mem_sitesOf {o : Nat} {b : List (Option Text)} {ds : List Draft}
    (hp : Placed o (lexemesList ds)) {s : Site} (h : s ∈ sitesOf o b ds) :
    o ≤ s.offset ∧ s.offset < o + Lexeme.sizeList (lexemesList ds) := by
  obtain ⟨front, d, back, rfl, rfl⟩ := exists_of_mem_sitesOf h
  obtain ⟨ls, hls⟩ := exists_lexemes_eq_cons d
  have hd : Placed (o + Lexeme.sizeList (lexemesList front)) d.lexemes := by
    rw [lexemesList_append, lexemesList_cons] at hp
    exact (placed_append.mp (placed_append.mp hp).2).1
  have hfirst : d.firstLexeme ∈ lexemesList (front ++ d :: back) := by
    rw [lexemesList_append, lexemesList_cons, hls]
    simp
  have hbounds := bounds_of_placed hp d.firstLexeme hfirst
  have hoffset : (siteOf (o + Lexeme.sizeList (lexemesList front)) (front.foldl slotsBehind b)
      d).offset = d.firstToken.span.start := by
    rw [span_firstToken hd]
    rfl
  rw [hoffset]
  exact ⟨hbounds.1, Nat.lt_of_lt_of_le hbounds.2.1 hbounds.2.2⟩

theorem mem_row_trees {o : Nat} {b : List (Option Text)} {ds : List Draft}
    (hp : Placed o (lexemesList ds)) {s : Site} (hs : s.tree.isTrivia = false) :
    s ∈ Site.row o b (trees ds) ↔ s ∈ sitesOf o b ds := by
  induction ds generalizing o b with
  | nil => exact Iff.rfl
  | cons d ds ih =>
    rw [lexemesList_cons] at hp
    obtain ⟨hd, hds⟩ := placed_append.mp hp
    have htrivia : s ∉ Site.row o b (d.trivia.map tokenLeaf) := by
      intro h
      rw [isTrivia_of_mem_row (forall_trivia_of_placed hd) o b s h] at hs
      exact Bool.false_ne_true hs.symm
    rw [row_trees_cons, List.mem_append, List.mem_cons, ih hds, sitesOf, List.mem_cons]
    exact or_iff_right htrivia

theorem mem_parts {o : Nat} {b : List (Option Text)} {kind : NodeKind}
    {before after : Option ParseError} {first : Draft} {rest : List Draft}
    (hp : Placed o (lexemesList (first :: rest))) {s : Site} (hs : s.tree.isTrivia = false) :
    s ∈ (siteOf o b (node kind before first rest after)).parts ↔
      s ∈ sitesOf o b (first :: rest) := by
  have htrivia : s ∉ Site.row o b (first.trivia.map tokenLeaf) := by
    intro h
    rw [isTrivia_of_mem_row (forall_trivia_of_placed (placed_append.mp hp).1) o b s h] at hs
    exact Bool.false_ne_true hs.symm
  rw [← mem_row_trees hp hs, row_trees_parts o b kind before after, List.mem_append,
    or_iff_right htrivia]

/-- The list of a container is what stands between its brackets. -/
theorem exists_list_of_mem_parts {o : Nat} {b : List (Option Text)} {c : Container}
    {opener : Lexeme} {ds : List Draft} {closer : Option Lexeme} {after : Option ParseError}
    (hp : Placed o (containerNode c opener ds closer after).lexemes) {s : Site}
    (hs : s ∈ (siteOf o b (containerNode c opener ds closer after)).parts)
    (hlist : s.tree.isNodeOf c.listKind = true) : ∃ d ds', ds = d :: ds' ∧
      s = siteOf (o + Lexeme.sizeList [opener]) (slotsBehind b (leaf opener))
        (plain c.listKind d ds') := by
  rw [containerNode] at hp hs
  rw [mem_parts hp (isTrivia_of_isNodeOf hlist)] at hs
  rcases List.mem_cons.mp hs with rfl | hs
  · exact absurd hlist Bool.false_ne_true
  rw [sitesOf_append] at hs
  have hcloser : s ∉ sitesOf (o + Lexeme.sizeList (leaf opener).lexemes +
      Lexeme.sizeList (lexemesList (wrap c.listKind ds)))
      ((wrap c.listKind ds).foldl slotsBehind (slotsBehind b (leaf opener)))
      (closer.map leaf).toList := by
    intro h
    obtain ⟨front, d, back, hd, rfl⟩ := exists_of_mem_sitesOf h
    have hmem : d ∈ (closer.map leaf).toList := by
      rw [hd]
      simp
    obtain ⟨l, -, rfl⟩ : ∃ l, closer = some l ∧ leaf l = d := by simpa using hmem
    exact absurd hlist Bool.false_ne_true
  have hs := (List.mem_append.mp hs).resolve_right hcloser
  cases ds with
  | nil => simp [wrap, sitesOf] at hs
  | cons d ds => exact ⟨d, ds, rfl, List.mem_singleton.mp hs⟩

end Draft

open Draft

theorem exists_standing_of_isNodeOf {source : Text} {s : Site} {c : Container}
    (hs : s ∈ (parse source).sites) (hc : s.tree.isNodeOf c.nodeKind = true) :
    ∃ x ∈ Parse.standings source, s = x.site := by
  rw [Parse.sites_parse] at hs
  rcases List.mem_cons.mp hs with rfl | hs
  · cases c <;> exact absurd hc Bool.false_ne_true
  · obtain ⟨x, hx, rfl⟩ := List.mem_map.mp hs
    exact ⟨x, hx, rfl⟩

end Maml
