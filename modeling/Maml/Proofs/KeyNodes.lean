import Maml.Proofs.Findings
import Maml.Proofs.Usable

/-! The keys of a document.

1. A node is among the nodes of its kind (`Site.mem_viewsOf`), and what it has as a child is among
   them with it (`View.mem_viewsOf_of_mem_all`). So is the object that a value is
   (`View.mem_all_of_content`), with its members (`View.mem_viewsOf_keyValues`).
2. The nodes of a kind in a document are those of its drafts (`Parse.viewsOf_parse`), so a key is
   one of the tokens that can be a key (`Parse.exists_lexeme_of_mem_keys`).
3. No token is the key of two nodes, so a key is told by where it stands
   (`Parse.nodup_range_keys`, `Parse.key_eq_of_range_eq`). -/
namespace Maml

open Draft

/-! ## Nodes of a kind -/

namespace Site

theorem view?_site {kind : NodeKind} (v : View kind) : v.site.view? kind = some v := by
  simp [view?, View.site]

/-- A node of a kind is among those at and below a site exactly if it is there. -/
theorem mem_viewsOf {kind : NodeKind} {s : Site} {v : View kind} :
    v ∈ s.viewsOf kind ↔ v.site ∈ s.descendants := by
  rw [viewsOf, List.mem_filterMap]
  constructor
  · rintro ⟨u, hu, hview⟩
    rwa [site_of_view? hview]
  · exact fun h => ⟨v.site, h, view?_site v⟩

mutual

theorem descendants_subset_nodesOf (o : Nat) (b : List (Option Text)) : ∀ t : Tree,
    ∀ s ∈ nodesOf o b t, s.descendants ⊆ nodesOf o b t
  | .leaf .. => by simp [nodesOf]
  | .node label children => by
    intro s hs
    rcases List.mem_cons.mp hs with rfl | hs
    · exact List.Subset.refl _
    · exact List.subset_cons_of_subset _ (descendants_subset_nodesOfRow o b children s hs)

theorem descendants_subset_nodesOfRow (o : Nat) (b : List (Option Text)) : ∀ ts : List Tree,
    ∀ s ∈ nodesOfRow o b ts, s.descendants ⊆ nodesOfRow o b ts
  | [] => by simp [nodesOfRow]
  | t :: ts => by
    intro s hs
    rcases List.mem_append.mp hs with hs | hs
    · exact List.subset_append_of_subset_left _ (descendants_subset_nodesOf o b t s hs)
    · exact List.subset_append_of_subset_right _ (descendants_subset_nodesOfRow _ _ ts s hs)

end

theorem descendants_subset {s u : Site} (h : u ∈ s.descendants) : u.descendants ⊆ s.descendants :=
  descendants_subset_nodesOf s.offset s.before s.tree u h

theorem mem_nodesOfRow_of_mem_row {o : Nat} {b : List (Option Text)} {ts : List Tree} {s : Site}
    (hs : s ∈ row o b ts) (hnode : s.tree.isNode = true) : s ∈ nodesOfRow o b ts := by
  induction ts generalizing o b with
  | nil => exact absurd hs List.not_mem_nil
  | cons t ts ih =>
    rcases List.mem_cons.mp hs with rfl | hs
    · cases t with
      | leaf => exact absurd hnode Bool.false_ne_true
      | node => exact List.mem_append_left _ List.mem_cons_self
    · exact List.mem_append_right _ (ih hs)

end Site

namespace View
variable {kind k : NodeKind} {s : Site} {v : View kind}

theorem mem_viewsOf_of_mem_all (hv : v ∈ s.viewsOf kind) {w : View k} (hw : w ∈ v.all k) :
    w ∈ s.viewsOf k := by
  obtain ⟨u, hu, hview⟩ := List.mem_filterMap.mp hw
  obtain rfl := Site.site_of_view? hview
  rw [Site.mem_viewsOf] at hv ⊢
  apply Site.descendants_subset hv
  exact List.mem_cons_of_mem _ (Site.mem_nodesOfRow_of_mem_row hu rfl)

theorem mem_all_of_first? {w : View k} (h : v.first? k = some w) : w ∈ v.all k := by
  rw [first?, ← List.head?_filterMap] at h
  exact List.mem_of_head? h

theorem mem_viewsOf_of_first? (hv : v ∈ s.viewsOf kind) {w : View k} (h : v.first? k = some w) :
    w ∈ s.viewsOf k :=
  mem_viewsOf_of_mem_all hv (mem_all_of_first? h)

theorem mem_all_of_content {v : Value} {object : Object} (h : Value.content v = .object object) :
    object ∈ v.all .object := by
  rw [Value.content] at h
  split at h
  · rename_i u hu
    have hview : u.view? .object = some object := by
      rw [Content.ofNode] at h
      split at h
      · rename_i hview
        rw [hview]
        exact congrArg some (Content.object.inj h)
      all_goals simp at h
    exact List.mem_filterMap.mpr ⟨u, List.mem_of_find?_eq_some hu, hview⟩
  · split at h
    · rename_i l _
      unfold Content.ofLeaf at h
      split at h <;> simp at h
    · simp at h

theorem mem_viewsOf_keyValues {object : Object} (ho : object ∈ s.viewsOf .object) {m : KeyValue}
    (hm : m ∈ Object.keyValues object) : m ∈ s.viewsOf .keyValue := by
  obtain ⟨list, hlist, hm⟩ := List.mem_flatMap.mp hm
  exact mem_viewsOf_of_mem_all (mem_viewsOf_of_first? ho (Option.mem_toList.mp hlist)) hm

end View

/-! ## The keys of a document -/

namespace Parse
variable {source : Text}

/-- The nodes of a kind in a document are those of its drafts. -/
theorem viewsOf_parse (source : Text) {kind : NodeKind} (hkind : kind ≠ .file) :
    (Site.root (parse source).tree).viewsOf kind =
      (standings source).filterMap (·.site.view? kind) := by
  have hfile : (Site.root (parse source).tree).view? kind = none := by
    show (if Label.node .file = .node kind then _ else _) = none
    rw [if_neg (by simp [hkind.symm])]
  rw [Site.viewsOf, descendants_root, List.filterMap_cons_none hfile, List.filterMap_map]
  rfl

/-- Whether a token is that of a key. -/
structure IsKeyOf (l : Lexeme) (k : View.Key) : Prop where
  isKey : isKey l.kind = true
  leaf : View.Key.leaf? k = some l.token.leafView
  range : k.range = l.token.span

theorem exists_scalar_of_view?_key {x : Standing} (hx : x ∈ standings source) {k : View.Key}
    (hk : x.site.view? .key = some k) : ∃ l, x.draft.scalar? = some l ∧ IsKeyOf l k := by
  obtain ⟨kind, before, first, rest, after, hdraft⟩ := exists_node_of_mem_standings hx
  have hsite : x.site ∈ (parse source).sites := by
    rw [sites_parse]
    exact List.mem_cons_of_mem _ (List.mem_map_of_mem hx)
  have hform := hasForm_of_mem_descendants hsite
  obtain ⟨v, kind', hv, hlabel, hkey⟩ := View.exists_leaf? (Site.admits_of_view? hk hform)
  have hformed := formed_of_mem_standings hx
  have hplaced : Placed x.offset x.draft.lexemes := isPlaced_of_mem_standings hx
  rw [Standing.site, hdraft] at hk
  rw [hdraft] at hformed hplaced
  obtain ⟨rfl, rfl⟩ : kind = .key ∧ viewOf x.offset x.before .key first rest = k := by
    have hview : (if Label.node kind = .node .key then
      some (viewOf x.offset x.before .key first rest) else none) = some k := hk
    split at hview
    · rename_i hlabel
      exact ⟨Label.node.inj hlabel, Option.some.inj hview⟩
    · simp at hview
  obtain ⟨l, rfl, rfl⟩ := exists_leaf_of_formed_key hformed
  have hleaf := leaf?_viewOf_key x.before hplaced
  obtain rfl : l.token.leafView = v := Option.some.inj (hleaf.symm.trans hv)
  obtain rfl : l.kind = kind' := Label.token.inj hlabel
  exact ⟨l, by rw [hdraft]; rfl, hkey, hleaf, (Validation.name_range_viewOf x.before hplaced).2⟩

theorem exists_lexeme_of_mem_keys {k : View.Key}
    (hk : k ∈ (Site.root (parse source).tree).viewsOf .key) :
    ∃ l ∈ lexemes source, IsKeyOf l k := by
  rw [viewsOf_parse source (by decide)] at hk
  obtain ⟨x, hx, hview⟩ := List.mem_filterMap.mp hk
  obtain ⟨l, hscalar, hl⟩ := exists_scalar_of_view?_key hx hview
  exact ⟨l, mem_lexemes_of_mem_ownLexemes hx (mem_ownLexemes_of_scalar? hscalar), hl⟩

theorem span_inj {l m : Lexeme} (hl : l ∈ lexemes source) (hm : m ∈ lexemes source)
    (h : l.token.span = m.token.span) : l = m :=
  eq_of_start_eq hl hm (congrArg Span.start h)

theorem range_keys_sublist (source : Text) :
    (((Site.root (parse source).tree).viewsOf .key).map View.range).Sublist
      ((scalars source).map (·.token.span)) := by
  rw [viewsOf_parse source (by decide), scalars]
  have hkeys (x : Standing) (hx : x ∈ standings source) :
      ∀ k, x.site.view? .key = some k → ∃ l, x.draft.scalar? = some l ∧ IsKeyOf l k :=
    fun k => exists_scalar_of_view?_key hx
  generalize standings source = xs at hkeys
  induction xs with
  | nil => exact List.Sublist.refl _
  | cons x xs ih =>
    obtain ⟨hx, hxs⟩ := List.forall_mem_cons.mp hkeys
    cases hk : x.site.view? .key with
    | none =>
      simp only [List.filterMap_cons, hk]
      exact (ih hxs).trans (((List.sublist_cons_self x xs).filterMap _).map _)
    | some k =>
      obtain ⟨l, hl, hkey⟩ := hx k hk
      simp only [List.filterMap_cons, hk, hl, List.map_cons, hkey.range]
      exact (ih hxs).cons_cons _

/-- No two keys of a document stand at the same place. -/
theorem nodup_range_keys (source : Text) :
    (((Site.root (parse source).tree).viewsOf .key).map View.range).Nodup := by
  refine (range_keys_sublist source).nodup ((nodup_scalars source).map_on fun l hl m hm h => ?_)
  have hmem {l : Lexeme} (hl : l ∈ scalars source) : l ∈ lexemes source := by
    obtain ⟨x, hx, hscalar⟩ := List.mem_filterMap.mp hl
    exact mem_lexemes_of_mem_ownLexemes hx (mem_ownLexemes_of_scalar? hscalar)
  exact span_inj (hmem hl) (hmem hm) h

/-- A key of a document is told by where it stands. -/
theorem key_eq_of_range_eq {k k' : View.Key}
    (hk : k ∈ (Site.root (parse source).tree).viewsOf .key)
    (hk' : k' ∈ (Site.root (parse source).tree).viewsOf .key) (h : k.range = k'.range) : k = k' :=
  List.inj_on_of_nodup_map (nodup_range_keys source) hk hk' h

end Parse

end Maml
