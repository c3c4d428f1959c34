import Maml.Proofs.Forms
import Maml.Proofs.Nesting
import Maml.Proofs.Spots

/-! Where nodes begin and end.

1. The leaves of a node are its tokens from its first significant one on
   (`Standing.leaves_site`). So every node but the document begins and ends with a
   significant leaf (`Standing.hasSignificantEnds_site`).
2. If a leaf between two others is a part of a node that holds both, the node is the
   innermost one that does (`Parse.isInnermost_of_mem_parts`): the nodes below it are
   nested in a single part or apart from the leaf.
3. Trivia is part of a node. Unless that node is the document, there is a significant leaf
   of the node in front of the trivia and another one behind it
   (`Parse.exists_leafBefore?`, `Parse.exists_leafBehind?`).
4. So trivia is a part of the innermost node that holds its neighbours, or of the document
   (`trivia_between_nodes`). -/
namespace Maml

open Draft

/-! ## The leaves of a node -/

namespace Standing

/-- The leaves of a node are its tokens from its first significant one on. -/
theorem leaves_site {x : Standing} (h : x.IsPlaced) :
    ∃ ls, x.draft.lexemes = x.draft.firstLexeme :: ls ∧
      x.site.leaves = (x.draft.firstToken :: ls.flatMap Lexeme.tokens).map Token.view := by
  obtain ⟨ls, hls⟩ := exists_lexemes_eq_cons x.draft
  refine ⟨ls, hls, ?_⟩
  have htokens : x.draft.lexemes.flatMap Lexeme.tokens =
      x.draft.trivia ++ (x.draft.firstToken :: ls.flatMap Lexeme.tokens) := by
    rw [hls, List.flatMap_cons, Lexeme.tokens, List.append_assoc]
    rfl
  have htiled := h.1
  rw [htokens, tiled_append] at htiled
  have hleaves := leaves_tree x.draft
  rw [htokens, List.map_append] at hleaves
  show LeafView.row (x.offset + Token.sizeList x.draft.trivia) x.draft.tree.leaves = _
  rw [List.append_cancel_left hleaves, row_map_leafOf htiled.2]

theorem significantLeaves_site {x : Standing} (h : x.IsPlaced) :
    x.site.significantLeaves = x.draft.lexemes.map Lexeme.view := by
  obtain ⟨ls, hls, hleaves⟩ := leaves_site h
  have hvalid := h.2
  rw [hls, List.forall_mem_cons] at hvalid
  have hfirst : x.draft.firstToken.isTrivia = false := hvalid.1.2
  have hview : Lexeme.view = Token.view ∘ Lexeme.token := rfl
  calc x.site.significantLeaves
      = ((x.draft.firstToken :: ls.flatMap Lexeme.tokens).filter (!·.isTrivia)).map Token.view := by
        rw [Site.significantLeaves, hleaves, List.filter_map]
        rfl
    _ = (x.draft.firstToken :: ls.map Lexeme.token).map Token.view := by
        rw [List.filter_cons_of_pos (by simp [hfirst]), Lexeme.filter_flatMap_tokens hvalid.2]
    _ = x.draft.lexemes.map Lexeme.view := by
        rw [hls, List.map_cons, List.map_cons, hview, List.map_map]
        rfl

/-- A node begins and ends with a significant leaf. -/
theorem hasSignificantEnds_site {x : Standing} (h : x.IsPlaced) : x.site.HasSignificantEnds := by
  obtain ⟨ls, hls, hleaves⟩ := leaves_site h
  have hvalid := h.2
  rw [hls, List.forall_mem_cons] at hvalid
  have hfirst : x.draft.firstToken.view.label.isTrivia = false := hvalid.1.2
  rw [Site.HasSignificantEnds, hleaves]
  refine ⟨⟨_, rfl, hfirst⟩, ?_⟩
  rcases List.eq_nil_or_concat ls with rfl | ⟨ms, m, rfl⟩
  · exact ⟨_, rfl, hfirst⟩
  · -- the last lexeme ends with its significant token
    have hm : m.view.label.isTrivia = false := (hvalid.2 m (by simp)).2
    refine ⟨m.view, ?_, hm⟩
    rw [List.concat_eq_append, List.flatMap_append, List.flatMap_singleton, Lexeme.tokens,
      ← List.append_assoc, ← List.cons_append, List.map_append]
    exact List.getLast?_concat

end Standing

/-! ## Leaves in a document -/

namespace Site

theorem exists_leaf_of_isTrivia {s : Site} (h : s.tree.isTrivia = true) : ∃ l, s.leaf? = some l ∧
    s.tree.isNode = false ∧ l.label.isTrivia = true ∧ s.offset = l.offset ∧
      s.stop = l.range.stop := by
  obtain ⟨o, b, t⟩ := s
  cases t with
  | leaf label text => exact ⟨_, rfl, rfl, h, rfl, rfl⟩
  | node => exact absurd h Bool.false_ne_true

theorem stop_le_of_head? {s : Site} {first l : LeafView} (hfirst : s.leaves.head? = some first)
    (hl : l ∈ s.leaves) (hne : l ≠ first) : first.range.stop ≤ l.offset := by
  obtain ⟨ls, hls⟩ := List.head?_eq_some_iff.mp hfirst
  have hrow := LeafView.pairwise_row s.offset s.tree.leaves
  rw [← leaves, hls, List.pairwise_cons] at hrow
  rw [hls] at hl
  exact hrow.1 l ((List.mem_cons.mp hl).resolve_left hne)

theorem le_offset_of_getLast? {s : Site} {last l : LeafView}
    (hlast : s.leaves.getLast? = some last) (hl : l ∈ s.leaves) (hne : l ≠ last) :
    l.range.stop ≤ last.offset := by
  obtain ⟨ls, hls⟩ := List.getLast?_eq_some_iff.mp hlast
  have hrow := LeafView.pairwise_row s.offset s.tree.leaves
  rw [← leaves, hls, List.pairwise_append] at hrow
  rw [hls] at hl
  have hmem := (List.mem_append.mp hl).resolve_right fun h => hne (List.mem_singleton.mp h)
  exact hrow.2.2 l hmem last List.mem_cons_self

end Site

namespace Parse

theorem leaves_root_parse (source : Text) :
    (Site.root (parse source).tree).leaves = (tokenize source).map Token.view := by
  show LeafView.row 0 (parse source).tree.leaves = _
  rw [leaves_tree_parse, row_map_leafOf (tiled_tokenize source)]

theorem size_pos_of_mem_tiled {o : Nat} {ts : List Token} (h : Tiled o ts) :
    ∀ t ∈ ts, 0 < t.text.size := by
  induction ts generalizing o with
  | nil => exact fun _ ht => absurd ht List.not_mem_nil
  | cons t ts ih => exact List.forall_mem_cons.mpr ⟨h.2.1, ih h.2.2⟩

theorem offset_lt_stop {source : Text} {l : LeafView}
    (h : l ∈ (Site.root (parse source).tree).leaves) : l.offset < l.range.stop := by
  rw [leaves_root_parse] at h
  obtain ⟨t, ht, rfl⟩ := List.mem_map.mp h
  exact Nat.lt_add_of_pos_right (size_pos_of_mem_tiled (tiled_tokenize source) t ht)

theorem stretchIn_root {p : Parse} {s : Site} (hs : s ∈ p.sites) :
    s.StretchIn (Site.root p.tree).leaves :=
  (Site.standsIn_nodesOf 0 [] p.tree s hs).stretchIn

theorem mem_leaves_root {p : Parse} {s : Site} (hs : s ∈ p.sites) {l : LeafView}
    (hl : l ∈ s.leaves) : l ∈ (Site.root p.tree).leaves := by
  obtain ⟨front, back, hleaves, -, -⟩ := stretchIn_root hs
  rw [hleaves]
  exact List.mem_append_left _ (List.mem_append_right _ hl)

/-! ## The innermost node -/

/-- If a leaf between two others is a part of a node that holds both, this is the innermost one
that does. -/
theorem isInnermost_of_mem_parts {p : Parse} {s x : Site} {l r : LeafView} (hs : s ∈ p.sites)
    (hx : x ∈ s.parts) (hleaf : x.tree.isNode = false) (hholds : s.HoldsBoth l r)
    (hl : l.offset < x.offset) (hr : x.stop ≤ r.offset) (hlsize : l.offset < l.range.stop)
    (hrsize : r.offset < r.range.stop) : p.IsInnermost s l r := by
  refine ⟨hs, hholds, fun u hu huholds => ?_⟩
  have hls := Site.bounds_of_mem_leaves hholds.1
  have hlu := Site.bounds_of_mem_leaves huholds.1
  have hru := Site.bounds_of_mem_leaves huholds.2
  rcases Site.nestedOrApart_nodesOf 0 [] p.tree s hs u hu with hinside | hbelow | hapart
  · exact hinside
  · by_cases hne : u = s
    · rw [hne]
      exact hne ▸ hbelow
    · -- below the node, nothing reaches over the leaf
      have hstop : x.offset ≤ x.stop := Nat.le_add_right _ _
      rcases Site.apart_of_mem_parts hx hleaf hbelow hne with hapart | hapart
      · omega
      · omega
  · rcases hapart with hapart | hapart
    · omega
    · omega

/-! ## The neighbours of trivia -/

theorem mem_of_leafBefore? {p : Parse} {o : Nat} {l : LeafView} (h : p.leafBefore? o = some l) :
    l ∈ (Site.root p.tree).leaves ∧ l.offset < o := by
  obtain ⟨hmem, hlt⟩ := List.mem_filter.mp (List.mem_of_getLast? h)
  exact ⟨(List.mem_filter.mp hmem).1, of_decide_eq_true hlt⟩

theorem mem_of_leafBehind? {p : Parse} {o : Nat} {l : LeafView} (h : p.leafBehind? o = some l) :
    l ∈ (Site.root p.tree).leaves ∧ o ≤ l.offset := by
  have hle := List.find?_some h
  exact ⟨(List.mem_filter.mp (List.mem_of_find?_eq_some h)).1, of_decide_eq_true hle⟩

section
variable {source : Text} {s : Site} {v : LeafView}

/-- In front of trivia in a node that begins with a significant leaf is such a leaf of the node. -/
theorem exists_leafBefore? (hs : s ∈ (parse source).sites) (hends : s.HasSignificantEnds)
    (hv : v ∈ s.leaves) (htrivia : v.label.isTrivia = true) :
    ∃ l, (parse source).leafBefore? v.offset = some l ∧ l ∈ s.leaves := by
  obtain ⟨front, back, hleaves, -, hback⟩ := stretchIn_root hs
  obtain ⟨⟨first, hfirst, hsignificant⟩, -⟩ := hends
  have hmem : first ∈ s.leaves := List.mem_of_head? hfirst
  have hne : v ≠ first := by
    rintro rfl
    exact absurd (htrivia.symm.trans hsignificant) (by decide)
  have hbefore : first.offset < v.offset :=
    Nat.lt_of_lt_of_le (offset_lt_stop (mem_leaves_root hs hmem)) (Site.stop_le_of_head? hfirst hv hne)
  let own := (s.leaves.filter (!·.label.isTrivia)).filter (·.offset < v.offset)
  have hown : own ≠ [] := by
    apply List.ne_nil_of_mem (a := first)
    simp [own, hmem, hsignificant, hbefore]
  have hnone : (back.filter (!·.label.isTrivia)).filter (·.offset < v.offset) = [] := by
    apply List.filter_eq_nil_iff.mpr
    intro l hl
    have hoffset := hback l (List.mem_filter.mp hl).1
    have hbounds := Site.bounds_of_mem_leaves hv
    have hsize := offset_lt_stop (mem_leaves_root hs hv)
    rw [decide_eq_true_iff]
    omega
  refine ⟨own.getLast hown, ?_, ?_⟩
  · show (((Site.root (parse source).tree).leaves.filter (!·.label.isTrivia)).filter
      (·.offset < v.offset)).getLast? = _
    rw [hleaves, List.filter_append, List.filter_append, List.filter_append, List.filter_append,
      hnone, List.append_nil, List.getLast?_append_of_ne_nil _ hown, List.getLast?_eq_some_getLast hown]
  · have hlast := List.getLast_mem hown
    exact (List.mem_filter.mp (List.mem_filter.mp hlast).1).1

/-- Behind trivia in a node that ends with a significant leaf is such a leaf of the node. -/
theorem exists_leafBehind? (hs : s ∈ (parse source).sites) (hends : s.HasSignificantEnds)
    (hv : v ∈ s.leaves) (htrivia : v.label.isTrivia = true) :
    ∃ r, (parse source).leafBehind? v.range.stop = some r ∧ r ∈ s.leaves := by
  obtain ⟨front, back, hleaves, hfront, -⟩ := stretchIn_root hs
  obtain ⟨-, last, hlast, hsignificant⟩ := hends
  have hmem : last ∈ s.leaves := List.mem_of_getLast? hlast
  have hne : v ≠ last := by
    rintro rfl
    exact absurd (htrivia.symm.trans hsignificant) (by decide)
  have hbehind : v.range.stop ≤ last.offset := Site.le_offset_of_getLast? hlast hv hne
  have hnone : (front.filter (!·.label.isTrivia)).find? (v.range.stop ≤ ·.offset) = none := by
    rw [List.find?_eq_none]
    intro l hl
    have hl := (List.mem_filter.mp hl).1
    have hstop := hfront l hl
    have hbounds := Site.bounds_of_mem_leaves hv
    have hsize := offset_lt_stop (mem_leaves_root hs hv)
    have hle : l.offset ≤ l.range.stop := Nat.le_add_right _ _
    rw [decide_eq_true_iff]
    omega
  have hsome : ((s.leaves.filter (!·.label.isTrivia)).find? (v.range.stop ≤ ·.offset)).isSome := by
    rw [List.find?_isSome]
    exact ⟨last, by simp [hmem, hsignificant], by simpa using hbehind⟩
  obtain ⟨r, hr⟩ := Option.isSome_iff_exists.mp hsome
  refine ⟨r, ?_, (List.mem_filter.mp (List.mem_of_find?_eq_some hr)).1⟩
  show ((Site.root (parse source).tree).leaves.filter (!·.label.isTrivia)).find?
    (v.range.stop ≤ ·.offset) = _
  rw [hleaves, List.filter_append, List.filter_append, List.find?_append, List.find?_append, hnone,
    Option.none_or, hr, Option.some_or]

end

theorem hasSignificantEnds_of_mem_sites {source : Text} {s : Site}
    (hs : s ∈ (parse source).sites) (hne : s ≠ .root (parse source).tree) :
    s.HasSignificantEnds := by
  rw [sites_parse] at hs
  obtain ⟨x, hx, rfl⟩ := List.mem_map.mp ((List.mem_cons.mp hs).resolve_left hne)
  exact Standing.hasSignificantEnds_site (isPlaced_of_mem_standings hx)

end Parse

open Parse

/-- No node but the document begins or ends with trivia. So trivia between two significant leaves is
a part of the innermost node that holds both, and trivia at the start or the end of the document is
a part of the document itself. -/
theorem trivia_between_nodes (source : Text) :
    (∀ s ∈ (parse source).sites, s ≠ .root (parse source).tree → s.HasSignificantEnds) ∧
      ∀ x ∈ (parse source).spots, x.site.tree.isTrivia = true →
        ∃ s, x.around.head? = some s ∧ x.site ∈ s.parts ∧
          match (parse source).leafBefore? x.site.offset,
            (parse source).leafBehind? x.site.stop with
          | some l, some r => (parse source).IsInnermost s l r
          | _, _ => s = .root (parse source).tree := by
  refine ⟨fun s => hasSignificantEnds_of_mem_sites, fun x hx htrivia => ?_⟩
  obtain ⟨v, hv, hleaf, hlabel, hoffset, hstop⟩ := Site.exists_leaf_of_isTrivia htrivia
  obtain ⟨s, outer, haround, hs, hpart⟩ := parent_of_mem_spots hx hleaf
  have hvs : v ∈ s.leaves := Site.mem_leaves_of_mem_parts hpart hv
  refine ⟨s, by rw [haround, List.head?_cons], hpart, ?_⟩
  rw [hoffset, hstop]
  -- a node other than the document has both neighbours among its leaves
  have hneighbours (hne : s ≠ .root (parse source).tree) := by
    have hends := hasSignificantEnds_of_mem_sites hs hne
    exact And.intro (exists_leafBefore? hs hends hvs hlabel) (exists_leafBehind? hs hends hvs hlabel)
  split
  · rename_i l r hl hr
    obtain ⟨hlmem, hlt⟩ := mem_of_leafBefore? hl
    obtain ⟨hrmem, hle⟩ := mem_of_leafBehind? hr
    have hholds : s.HoldsBoth l r := by
      by_cases hne : s = .root (parse source).tree
      · exact hne ▸ ⟨hlmem, hrmem⟩
      · obtain ⟨⟨l', hl', hlown⟩, ⟨r', hr', hrown⟩⟩ := hneighbours hne
        obtain rfl := Option.some.inj (hl.symm.trans hl')
        obtain rfl := Option.some.inj (hr.symm.trans hr')
        exact ⟨hlown, hrown⟩
    exact isInnermost_of_mem_parts hs hpart hleaf hholds (hoffset ▸ hlt) (hstop ▸ hle)
      (offset_lt_stop hlmem) (offset_lt_stop hrmem)
  · rename_i hnone
    by_contra hne
    obtain ⟨⟨l, hl, -⟩, ⟨r, hr, -⟩⟩ := hneighbours hne
    exact hnone l r hl hr

/-- In `[1 ]` the blank is a part of the array, the innermost node that holds the number and the
bracket around it. -/
theorem trivia_between_nodes_in_array :
    ∃ x ∈ (parse ['[', '1', ' ', ']']).spots, x.site.tree.isTrivia = true ∧
      ∃ s, x.around.head? = some s ∧ s.tree.isNodeOf .array = true ∧ s.HasSignificantEnds ∧
        (parse ['[', '1', ' ', ']']).IsInnermost s ⟨1, .token .number, ['1']⟩
          ⟨3, .token .rBracket, [']']⟩ := by
  let x := (parse ['[', '1', ' ', ']']).spots.get ⟨7, by decide +kernel⟩
  have hmem : x ∈ (parse ['[', '1', ' ', ']']).spots := List.get_mem ..
  have htrivia : x.site.tree.isTrivia = true := by decide +kernel
  obtain ⟨s, haround, -, hinnermost⟩ :=
    (trivia_between_nodes ['[', '1', ' ', ']']).2 x hmem htrivia
  have hbefore : (parse ['[', '1', ' ', ']']).leafBefore? x.site.offset =
      some ⟨1, .token .number, ['1']⟩ := by decide +kernel
  have hbehind : (parse ['[', '1', ' ', ']']).leafBehind? x.site.stop =
      some ⟨3, .token .rBracket, [']']⟩ := by decide +kernel
  have harray : x.around.head?.map (·.tree.isNodeOf .array) = some true := by decide +kernel
  rw [hbefore, hbehind] at hinnermost
  rw [haround] at harray
  have hs : s.tree.isNodeOf .array = true := Option.some.inj harray
  have hends := (trivia_between_nodes ['[', '1', ' ', ']']).1 s hinnermost.mem fun hroot => by
    rw [hroot] at hs
    exact absurd hs (by decide +kernel)
  exact ⟨x, hmem, htrivia, s, haround, hs, hends, hinnermost⟩

end Maml
