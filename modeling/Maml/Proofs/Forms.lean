import Maml.Form
import Maml.View
import Maml.Proofs.Standing

/-! Every node of a document has the form of its kind.

1. The parts of a node that reading makes are what its kind admits (`hasForm_of_formed`);
   those of a list are elements with single commas between them (`separates_of_shaped`).
2. Views of nodes of a form find their parts: the content of a value, the key of a
   member, the token of a key (`content_ne_missing`, `isSome_key?`,
   `exists_leaf?`). This is about any tree, not only those of documents.
3. So it is with all nodes of a document (`hasForm_of_mem_sites`). -/
namespace Maml

namespace Draft

/-! ## Parts of nodes -/

@[simp] theorem isTokenWith_leaf (test : TokenKind → Bool) (l : Lexeme) :
    (leaf l).tree.isTokenWith test = test l.kind := rfl

@[simp] theorem isNodeOf_node (kind kind' : NodeKind) (before after : Option ParseError)
    (first : Draft) (rest : List Draft) :
    (node kind before first rest after).tree.isNodeOf kind' = (kind == kind') := by
  rw [Bool.eq_iff_iff]
  simp [tree, Tree.isNodeOf]

@[simp] theorem isNodeOf_plain (kind kind' : NodeKind) (first : Draft) (rest : List Draft) :
    (plain kind first rest).tree.isNodeOf kind' = (kind == kind') :=
  isNodeOf_node ..

@[simp] theorem isTokenOf_node (kind : TokenKind) (k : NodeKind) (before after : Option ParseError)
    (first : Draft) (rest : List Draft) :
    (node k before first rest after).tree.isTokenOf kind = false := rfl

@[simp] theorem isTokenOf_leaf (kind : TokenKind) (l : Lexeme) :
    (leaf l).tree.isTokenOf kind = (l.kind == kind) :=
  isTokenOf_tree kind (leaf l)

theorem isNodeOf_value {e : List Container} {d : Draft} (h : Shaped e .value [d]) :
    d.tree.isNodeOf .value = true := by
  obtain ⟨first, rfl⟩ := exists_plain_of_shaped h
  rfl

theorem isSkippable_leaf (l : Lexeme) : (leaf l).tree.isSkippable = true := rfl

theorem isSkippable_value {e : List Container} {d : Draft} (h : Shaped e .value [d]) :
    d.tree.isSkippable = true := by
  rw [Tree.isSkippable, isNodeOf_value h, Bool.or_true]

theorem isSkippable_of_shaped {e : List Container} {ds : List Draft} (h : Shaped e .skipped ds) :
    ∀ d ∈ ds, d.tree.isSkippable = true := by
  generalize hplace : Place.skipped = place at h
  induction h with
  | skippedNil => simp
  | skippedToken hl ho hds ih =>
    exact List.forall_mem_cons.mpr ⟨isSkippable_leaf _, ih hplace⟩
  | skippedValue hd hds ihd ih =>
    exact List.forall_mem_cons.mpr ⟨isSkippable_value hd, ih hplace⟩
  | _ => simp at hplace

theorem isSkippable_behindColon {e : List Container} {colon : Lexeme} {note : Option ParseError}
    {value : List Draft} (h : Shaped e (.behindColon colon note) value) :
    ∀ d ∈ value, d.tree.isSkippable = true := by
  rcases shaped_behindColon h with ⟨next, rfl, -⟩ | ⟨d, rfl, -, hd⟩
  · simp
  · simpa using isSkippable_value hd

theorem separates_element {c : Container} {d : Draft} {ts : List Tree} (b : Bool)
    (hd : c.isElement d.tree = true) (h : c.separates false ts = true) :
    c.separates b (d.tree :: ts) = true := by
  cases d with
  | leaf l => cases c <;> exact absurd hd Bool.false_ne_true
  | node => simp [Container.separates, hd, h]

theorem separates_of_shaped {e : List Container} {c : Container} {b : Bool} {ds : List Draft}
    (h : Shaped e (.list c b) ds) : c.separates b (ds.map tree) = true := by
  generalize hplace : Place.list c b = place at h
  induction h generalizing b with
  | nil => rfl
  | comma hl hds ih =>
    obtain ⟨rfl, rfl⟩ : _ ∧ b = false := by simpa using hplace
    simpa [Container.separates, hl] using ih rfl
  | stray hl hds ih =>
    obtain ⟨rfl, rfl⟩ : _ ∧ b = true := by simpa using hplace
    refine separates_element _ ?_ (ih rfl)
    cases c <;> rfl
  | item hd hds ihd ih =>
    obtain ⟨rfl, rfl⟩ : c = .array ∧ _ := by simpa using hplace
    refine separates_element _ ?_ (ih rfl)
    rw [Container.isElement, isNodeOf_value hd, Bool.true_or]
  | incompleteSkipped hk hs hds ihs ih =>
    obtain ⟨rfl, rfl⟩ : c = .object ∧ _ := by simpa using hplace
    exact separates_element _ rfl (separates_element _ rfl (ih rfl))
  | keyValue hk hc hv hds ihv ih =>
    obtain ⟨rfl, rfl⟩ : c = .object ∧ _ := by simpa using hplace
    exact separates_element _ rfl (ih rfl)
  | incomplete hk hne hds ih =>
    obtain ⟨rfl, rfl⟩ : c = .object ∧ _ := by simpa using hplace
    exact separates_element _ rfl (ih rfl)
  | literalKey hk hc hv hds ihv ih =>
    obtain ⟨rfl, rfl⟩ : c = .object ∧ _ := by simpa using hplace
    exact separates_element _ rfl (ih rfl)
  | junk hs hq hds ihs ih =>
    obtain ⟨rfl, rfl⟩ : c = .object ∧ _ := by simpa using hplace
    exact separates_element _ rfl (ih rfl)
  | _ => simp at hplace

/-! ## Forms of nodes -/

theorem hasForm_node {o : Nat} {kind : NodeKind} {before after : Option ParseError} {first : Draft}
    {rest : List Draft} (hp : Placed o (node kind before first rest after).lexemes) :
    (node kind before first rest after).tree.hasForm = kind.admits ((first :: rest).map tree) := by
  have hparts : (node kind before first rest after).tree.significantChildren =
      (first :: rest).map tree := significantChildren_tree hp
  rw [← hparts]
  rfl

theorem hasForm_error {o : Nat} {before after : Option ParseError} {first : Draft}
    {rest : List Draft} (hp : Placed o (node .error before first rest after).lexemes)
    (h : ∀ d ∈ first :: rest, d.tree.isSkippable = true) :
    (node .error before first rest after).tree.hasForm = true := by
  rw [hasForm_node hp]
  simpa [NodeKind.admits] using h

theorem hasForm_containerNode {o : Nat} {c : Container} {opener : Lexeme} {ds : List Draft}
    {closer : Option Lexeme} {after : Option ParseError} (ho : opener.kind = c.opener)
    (hc : ∀ l ∈ closer, l.kind = c.closer)
    (hp : Placed o (containerNode c opener ds closer after).lexemes) :
    (containerNode c opener ds closer after).tree.hasForm = true := by
  have hencloses : c.encloses
      ((leaf opener :: (wrap c.listKind ds ++ (closer.map leaf).toList)).map tree) = true := by
    -- with or without a list, with or without a closer
    cases ds <;> cases closer <;> simp_all [wrap, Container.encloses]
  rw [containerNode] at hp ⊢
  rw [hasForm_node hp]
  cases c <;> exact hencloses

theorem hasForm_of_formed {o : Nat} {d : Draft} (h : Formed d) (hp : Placed o d.lexemes) :
    d.tree.hasForm = true := by
  cases h with
  | scalar hl =>
    rw [plain, hasForm_node hp]
    simp [NodeKind.admits, hl]
  | value hk =>
    rw [plain, hasForm_node hp]
    simp only [List.mem_cons, List.not_mem_nil, or_false] at hk
    rcases hk with rfl | rfl | rfl <;> rfl
  | invalid hl =>
    rw [hasForm_node hp]
    simp [NodeKind.admits, isInvalidRow, hl]
  | @signed plus number h =>
    rw [hasForm_node hp]
    obtain ⟨hkind, htext, hnumber, -⟩ := isSignedNumber_eq_true.mp h
    have hplus : (leaf plus).tree.isPlus = true ∧ number.kind = .number :=
      ⟨by simp [tree, tokenLeaf, Tree.isPlus, hkind, htext], hnumber⟩
    simp [NodeKind.admits, isInvalidRow, hplus]
  | tooDeep ho =>
    rw [hasForm_node hp]
    simp [NodeKind.admits, isInvalidRow, ho]
  | closed ho hc hds => exact hasForm_containerNode ho (by simp [hc]) hp
  | unclosed ho hds => exact hasForm_containerNode ho (by simp) hp
  | @list e c d ds hds =>
    have hseparates := separates_of_shaped hds
    rw [plain, hasForm_node hp]
    cases c <;> exact hseparates
  | stray hl => exact hasForm_error hp (by simp [isSkippable_leaf])
  | key hk =>
    rw [plain, hasForm_node hp]
    exact hk
  | keyValue hc hv =>
    rw [hasForm_node hp]
    rcases shaped_behindColon hv with ⟨next, rfl, -⟩ | ⟨d, rfl, -, hd⟩
    · simp [NodeKind.admits, hc]
    · simp [NodeKind.admits, hc, isNodeOf_value hd]
  | incomplete =>
    rw [incomplete, hasForm_node hp]
    rfl
  | skipped hs => exact hasForm_error hp (isSkippable_of_shaped hs)
  | literalKey hv =>
    refine hasForm_error hp ?_
    simpa [isSkippable_leaf] using isSkippable_behindColon hv
  | junk hs => exact hasForm_error hp (isSkippable_of_shaped hs)
  | trailing => exact hasForm_error hp (by simp [isSkippable_leaf])

end Draft

/-! ## Views of nodes of a form -/

theorem exists_eq_leaf_of_isTokenOf {kind : TokenKind} {t : Tree} (h : t.isTokenOf kind = true) :
    ∃ text, t = .leaf (.token kind) text := by
  cases t with
  | leaf label text => exact ⟨text, by simpa [Tree.isTokenOf] using h⟩
  | node => exact absurd h Bool.false_ne_true

namespace Site

theorem map_tree_row (o : Nat) (b : List (Option Text)) (ts : List Tree) :
    (row o b ts).map tree = ts := by
  induction ts generalizing o b with
  | nil => rfl
  | cons t ts ih => rw [row, List.map_cons, ih]

theorem tree_mem_of_mem_row {o : Nat} {b : List (Option Text)} {ts : List Tree} {s : Site}
    (h : s ∈ row o b ts) : s.tree ∈ ts := by
  rw [← map_tree_row o b ts]
  exact List.mem_map_of_mem h

theorem exists_mem_row {t : Tree} {ts : List Tree} (h : t ∈ ts) (o : Nat)
    (b : List (Option Text)) : ∃ s ∈ row o b ts, s.tree = t := by
  rw [← map_tree_row o b ts] at h
  exact List.mem_map.mp h

theorem view?_eq_some {kind : NodeKind} {s : Site} {v : View kind} (h : s.view? kind = some v) :
    s.tree = .node (.node kind) v.children := by
  obtain ⟨o, b, t⟩ := s
  cases t with
  | leaf => simp [view?] at h
  | node label children =>
    unfold view? at h
    simp only at h
    split at h
    · rename_i hlabel
      obtain rfl := Option.some.inj h
      rw [hlabel]
    · simp at h

theorem leaf?_eq_some {s : Site} {l : LeafView} (h : s.leaf? = some l) :
    s.offset = l.offset ∧ s.tree = .leaf l.label l.text := by
  obtain ⟨o, b, t⟩ := s
  cases t with
  | leaf =>
    obtain rfl := Option.some.inj h
    exact ⟨rfl, rfl⟩
  | node => simp [leaf?] at h

theorem isSome_view? {kind : NodeKind} {s : Site} (h : s.tree.isNodeOf kind = true) :
    (s.view? kind).isSome = true := by
  obtain ⟨o, b, t⟩ := s
  cases t with
  | leaf => simp [Tree.isNodeOf] at h
  | node label children =>
    have hlabel : label = .node kind := by simpa [Tree.isNodeOf] using h
    simp [view?, hlabel]

end Site

namespace View

variable {kind : NodeKind} {v : View kind} {t : Tree}

theorem isSome_first? {k : NodeKind} (ht : t ∈ v.children) (hk : t.isNodeOf k = true) :
    (v.first? k).isSome = true := by
  obtain ⟨s, hs, rfl⟩ := Site.exists_mem_row ht v.offset v.before
  rw [first?, List.findSome?_isSome_iff]
  exact ⟨s, hs, Site.isSome_view? hk⟩

theorem significantLeaf?_of_filter {label : Label} {text : Text}
    (h : v.children.filter (!·.isTrivia) = [.leaf label text]) :
    ∃ l, v.significantLeaf? = some l ∧ l.label = label := by
  have hmem : Tree.leaf label text ∈ v.children.filter (!·.isTrivia) := by
    rw [h]
    exact List.mem_cons_self
  obtain ⟨hchild, hsignificant⟩ := List.mem_filter.mp hmem
  obtain ⟨s, hs, htree⟩ := Site.exists_mem_row hchild v.offset v.before
  have hsome : v.significantLeaf?.isSome = true := by
    rw [significantLeaf?, List.find?_isSome]
    refine ⟨⟨s.offset, label, text⟩, List.mem_filterMap.mpr ⟨s, hs, ?_⟩, hsignificant⟩
    rw [Site.leaf?, htree]
  obtain ⟨l, hl⟩ := Option.isSome_iff_exists.mp hsome
  refine ⟨l, hl, ?_⟩
  -- whatever is found is a child that is not trivia, and there is only one
  obtain ⟨s', hs', hleaf⟩ := List.mem_filterMap.mp (List.mem_of_find?_eq_some hl)
  have htree' : s'.tree = .leaf l.label l.text := (Site.leaf?_eq_some hleaf).2
  have hfound := List.find?_some (show v.leaves.find? (!·.label.isTrivia) = some l from hl)
  have hmem' : s'.tree ∈ v.children.filter (!·.isTrivia) := by
    refine List.mem_filter.mpr ⟨Site.tree_mem_of_mem_row hs', ?_⟩
    rw [htree']
    exact hfound
  rw [h, htree', List.mem_singleton] at hmem'
  exact (Tree.leaf.inj hmem').1

theorem content_ne_missing {v : Value}
    (h : NodeKind.value.admits (v.children.filter (!·.isTrivia)) = true) :
    Value.content v ≠ .missing := by
  obtain ⟨t, ht, hform⟩ : ∃ t, v.children.filter (!·.isTrivia) = [t] ∧
      (t.isNodeOf .object || t.isNodeOf .array || t.isNodeOf .invalidValue ||
        t.isTokenWith (·.isScalar)) = true := by
    rcases hfilter : v.children.filter (!·.isTrivia) with _ | ⟨t, _ | ⟨u, ts⟩⟩
    · simp [hfilter, NodeKind.admits] at h
    · exact ⟨t, hfilter, by rwa [hfilter] at h⟩
    · simp [hfilter, NodeKind.admits] at h
  unfold Value.content
  split
  · -- a node decides, and the only child that is not trivia is this node
    rename_i s hs
    have hnode := List.find?_some hs
    obtain ⟨o, b, u⟩ := s
    have hmem : u ∈ v.children.filter (!·.isTrivia) := by
      refine List.mem_filter.mpr ⟨Site.tree_mem_of_mem_row (List.mem_of_find?_eq_some hs), ?_⟩
      cases u <;> simp_all [Tree.isNode, Tree.isTrivia]
    obtain rfl : u = t := by simpa [ht] using hmem
    cases u with
    | leaf => simp [Tree.isNode] at hnode
    | node label children =>
      have hlabel : label = .node .object ∨ label = .node .array ∨ label = .node .invalidValue := by
        simpa [Tree.isNodeOf, Tree.isTokenWith, or_assoc] using hform
      rcases hlabel with rfl | rfl | rfl <;> simp [Content.ofNode, Site.view?]
  · -- no child is a node, so this one is a leaf
    rename_i hnone
    have hmem : t ∈ v.children := (List.mem_filter.mp (ht ▸ List.mem_cons_self)).1
    obtain ⟨s, hs, rfl⟩ := Site.exists_mem_row hmem v.offset v.before
    have hleaf : ¬ s.tree.isNode = true := List.find?_eq_none.mp hnone s hs
    obtain ⟨o, b, t⟩ := s
    cases t with
    | node => simp [Tree.isNode] at hleaf
    | leaf label text =>
      obtain ⟨l, hl, hlabel⟩ := significantLeaf?_of_filter ht
      have hscalar : label.tokenKind?.any (·.isScalar) = true := by
        simpa [Tree.isNodeOf, Tree.isTokenWith] using hform
      rw [hl, ← hlabel] at *
      rcases hkind : l.label with kind | kind
      · cases kind <;> simp_all [Content.ofLeaf, Label.tokenKind?, TokenKind.isScalar]
      · simp [hkind, Label.tokenKind?] at hscalar

theorem isSome_key? {kind : NodeKind} (hk : kind = .keyValue ∨ kind = .incompleteKeyValue)
    {v : View kind} (h : kind.admits (v.children.filter (!·.isTrivia)) = true) :
    (v.first? .key).isSome = true := by
  obtain ⟨t, ts, ht, hkey⟩ : ∃ t ts, v.children.filter (!·.isTrivia) = t :: ts ∧
      t.isNodeOf .key = true := by
    generalize v.children.filter (!·.isTrivia) = ts at h
    rcases hk with rfl | rfl
    all_goals
      unfold NodeKind.admits at h
      split at h <;> simp_all
  exact isSome_first? (List.mem_filter.mp (ht ▸ List.mem_cons_self)).1 hkey

theorem exists_leaf? {v : Key} (h : NodeKind.key.admits (v.children.filter (!·.isTrivia)) = true) :
    ∃ l kind, Key.leaf? v = some l ∧ l.label = .token kind ∧ Draft.isKey kind = true := by
  obtain ⟨t, ht, hform⟩ : ∃ t, v.children.filter (!·.isTrivia) = [t] ∧
      t.isTokenWith Draft.isKey = true := by
    generalize v.children.filter (!·.isTrivia) = ts at h
    unfold NodeKind.admits at h
    split at h <;> simp_all
  cases t with
  | node => simp [Tree.isTokenWith] at hform
  | leaf label text =>
    obtain ⟨l, hl, rfl⟩ := significantLeaf?_of_filter ht
    rcases hlabel : l.label with kind | kind
    · exact ⟨l, kind, hl, hlabel, by simpa [Tree.isTokenWith, hlabel, Label.tokenKind?] using hform⟩
    · simp [Tree.isTokenWith, hlabel, Label.tokenKind?] at hform

end View

theorem Site.isSome_anyView? {s : Site} (h : s.tree.hasForm = true) :
    s.anyView?.isSome = true := by
  obtain ⟨o, b, t⟩ := s
  unfold Tree.hasForm at h
  split at h
  · rename_i kind children htree
    simp only at htree
    simp [Site.anyView?, htree]
  · simp at h

theorem Site.admits_of_view? {kind : NodeKind} {s : Site} {v : View kind}
    (hv : s.view? kind = some v) (h : s.tree.hasForm = true) :
    kind.admits (v.children.filter (!·.isTrivia)) = true := by
  rw [Site.view?_eq_some hv] at h
  exact h

/-! ## Documents -/

open Draft

theorem hasForm_parse (source : Text) : (parse source).tree.hasForm = true := by
  let input := Lexemes.ofTokens (tokenize source) source.size
  have hp := placed_tokenize source
  rw [← lexemes_documentDrafts input.eof input.lexemes] at hp
  have hchildren : (parse source).tree.hasForm = NodeKind.file.admits
      ((documentDrafts input.eof input.lexemes).map tree) := by
    rw [← filter_trees hp, ← List.append_nil (List.filter _ _),
      ← filter_map_tokenLeaf (isTrivia_of_mem_trailing _), ← List.filter_append]
    rfl
  rw [hchildren]
  rcases documentDrafts_cases input.eof input.lexemes with ⟨d, rest, hdrafts, hd⟩ | hdrafts
  · have hvalue := isNodeOf_value hd
    rw [hdrafts]
    cases rest <;> simp [trailing, trailingError, NodeKind.admits, hvalue]
  · rw [hdrafts]
    cases input.lexemes <;> simp [trailing, trailingError, NodeKind.admits]

theorem hasForm_of_mem_descendants {source : Text} {s : Site} (hs : s ∈ (parse source).sites) :
    s.tree.hasForm = true := by
  rw [Parse.sites_parse] at hs
  rcases List.mem_cons.mp hs with rfl | hs
  · exact hasForm_parse source
  · obtain ⟨x, hx, rfl⟩ := List.mem_map.mp hs
    exact hasForm_of_formed (Parse.formed_of_mem_standings hx)
      (Parse.isPlaced_of_mem_standings hx)

/-- Every node of a document has the form of its kind. So it can be seen as a node of that kind,
and its view finds its parts: a value its content, a member its key, a key its token. -/
theorem hasForm_of_mem_sites {source : Text} {s : Site} (hs : s ∈ (parse source).sites) :
    s.tree.hasForm = true ∧ s.anyView?.isSome = true ∧
      (∀ v, s.view? .value = some v → View.Value.content v ≠ .missing) ∧
      (∀ v, s.view? .keyValue = some v → (View.KeyValue.key? v).isSome = true) ∧
      (∀ v, s.view? .incompleteKeyValue = some v →
        (View.IncompleteKeyValue.key? v).isSome = true) ∧
      ∀ v, s.view? .key = some v → ∃ l kind, View.Key.leaf? v = some l ∧
        l.label = .token kind ∧ isKey kind = true := by
  have hform := hasForm_of_mem_descendants hs
  refine ⟨hform, Site.isSome_anyView? hform, ?_, ?_, ?_, ?_⟩
  · intro v hv
    exact View.content_ne_missing (Site.admits_of_view? hv hform)
  · intro v hv
    exact View.isSome_key? (.inl rfl) (Site.admits_of_view? hv hform)
  · intro v hv
    exact View.isSome_key? (.inr rfl) (Site.admits_of_view? hv hform)
  · intro v hv
    exact View.exists_leaf? (Site.admits_of_view? hv hform)

/-- In `[+1,{a` the key without a colon is found in the nodes of the document, where it has its
form. -/
theorem hasForm_unfinished_member : ∃ s ∈ (parse ['[', '+', '1', ',', '{', 'a']).sites,
    s.tree.isNodeOf .incompleteKeyValue = true ∧ s.tree.hasForm = true := by
  refine ⟨(parse ['[', '+', '1', ',', '{', 'a']).sites.get ⟨9, by decide +kernel⟩,
    List.get_mem .., by decide +kernel, ?_⟩
  exact (hasForm_of_mem_sites (List.get_mem ..)).1

end Maml
