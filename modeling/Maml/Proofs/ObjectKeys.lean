import Maml.Proofs.KeyNodes
import Maml.Repeat

/-! The keys of objects, in drafts.

1. A list is a part of an object only (`Draft.keys_of_mem_parts`). So what is told of the keys in
   the lists of a document is what is told of the keys of its objects (`Parse.flatMap_keys`).
2. The keys of an object are told by the tokens of the keys in its list
   (`Parse.forall₂_keys_object`). So the rule about keys goes through the objects
   (`Parse.filter_duplicateKey_validate`), and through the keys of each in the order of their
   ranges (`Parse.pairwise_keys`).
3. A token is the key of one object only (`Draft.shares_keyTokens`), so the keys of different
   objects stand at different places (`Parse.pairwise_objects`). -/
namespace Maml

open Draft

namespace Draft

def objectKeys : Draft → List Lexeme
  | node .object _ first rest _ => (first :: rest).flatMap keys
  | _ => []

/-! ## Lists and objects -/

section
variable {kind : NodeKind} {before after : Option ParseError} {first : Draft} {rest : List Draft}

theorem objectKeys_of_ne (h : kind ≠ .object) :
    (node kind before first rest after).objectKeys = [] := by
  unfold objectKeys
  split
  · exact absurd (Draft.node.inj ‹_›).1 h
  · rfl

theorem keys_of_ne (h : kind ≠ .members) : (node kind before first rest after).keys = [] := by
  unfold keys
  split
  · exact absurd (Draft.node.inj ‹_›).1 h
  · rfl

theorem objectKeys_containerNode (opener : Lexeme) (ds : List Draft) (closer : Option Lexeme)
    (after : Option ParseError) :
    (containerNode .object opener ds closer after).objectKeys = ds.filterMap keyLexeme? := by
  have hcloser : (closer.map leaf).toList.flatMap keys = [] := by
    cases closer <;> rfl
  show keys (leaf opener) ++ (wrap .members ds ++ (closer.map leaf).toList).flatMap keys = _
  rw [List.flatMap_append, hcloser, List.append_nil]
  cases ds with
  | nil => rfl
  | cons d ds => exact List.append_nil _

theorem keys_of_value {e : List Container} {d : Draft} (h : Shaped e .value [d]) : d.keys = [] := by
  obtain ⟨first, rfl⟩ := exists_plain_of_shaped h
  rfl

/-- No place has a list but that of an object. -/
theorem keys_of_shaped {e : List Container} {place : Place} {ds : List Draft}
    (h : Shaped e place ds) : ∀ d ∈ ds, d.keys = [] := by
  induction h with
  | scalar hl => exact List.forall_mem_singleton.mpr rfl
  | invalid hl => exact List.forall_mem_singleton.mpr (keys_of_value (e := []) (.invalid hl))
  | signed h => exact List.forall_mem_singleton.mpr rfl
  | tooDeep ho he => exact List.forall_mem_singleton.mpr rfl
  | container next ho he hc hds => exact List.forall_mem_singleton.mpr rfl
  | nil => exact List.forall_mem_nil _
  | comma hl hds ih => exact List.forall_mem_cons.mpr ⟨rfl, ih⟩
  | stray hl hds ih => exact List.forall_mem_cons.mpr ⟨rfl, ih⟩
  | item hd hds ihd ih => exact List.forall_mem_cons.mpr ⟨keys_of_value hd, ih⟩
  | keyValue hk hc hv hds ihv ih => exact List.forall_mem_cons.mpr ⟨rfl, ih⟩
  | incomplete hk hne hds ih => exact List.forall_mem_cons.mpr ⟨rfl, ih⟩
  | incompleteSkipped hk hs hds ihs ih =>
    exact List.forall_mem_cons.mpr ⟨rfl, List.forall_mem_cons.mpr ⟨rfl, ih⟩⟩
  | literalKey hk hc hv hds ihv ih => exact List.forall_mem_cons.mpr ⟨rfl, ih⟩
  | junk hs hq hds ihs ih => exact List.forall_mem_cons.mpr ⟨rfl, ih⟩
  | missing => exact List.forall_mem_nil _
  | present hd ih => exact ih
  | skippedNil => exact List.forall_mem_nil _
  | skippedToken hl ho hds ih => exact List.forall_mem_cons.mpr ⟨rfl, ih⟩
  | skippedValue hd hds ihd ih => exact List.forall_mem_cons.mpr ⟨keys_of_value hd, ih⟩

theorem keys_of_mem_map_leaf {ls : List Lexeme} : ∀ d ∈ ls.map leaf, d.keys = [] :=
  List.forall_mem_map.mpr fun _ _ => rfl

/-- No node but an object has a list of keys among its parts. -/
theorem keys_of_mem_parts (h : Formed (node kind before first rest after))
    (hkind : kind ≠ .object) : ∀ d ∈ first :: rest, d.keys = [] := by
  have hcontainer {c : Container} {opener : Lexeme} {ds : List Draft} {closer : Option Lexeme}
      (hc : c.nodeKind ≠ .object) :
      ∀ d ∈ leaf opener :: (wrap c.listKind ds ++ (closer.map leaf).toList), d.keys = [] := by
    obtain rfl : c = .array := by
      cases c with
      | object => exact absurd rfl hc
      | array => rfl
    refine List.forall_mem_cons.mpr ⟨rfl, List.forall_mem_append.mpr ⟨?_, ?_⟩⟩
    · cases ds with
      | nil => exact List.forall_mem_nil _
      | cons d ds => exact List.forall_mem_singleton.mpr rfl
    · cases closer with
      | none => exact List.forall_mem_nil _
      | some l => exact List.forall_mem_singleton.mpr rfl
  generalize hd : node kind before first rest after = d at h
  cases h with
  | value hk =>
    obtain ⟨-, -, rfl, rfl, -⟩ := Draft.node.inj hd
    refine List.forall_mem_singleton.mpr (keys_of_ne ?_)
    rintro rfl
    simp at hk
  | closed | unclosed =>
    obtain ⟨rfl, -, rfl, rfl, -⟩ := Draft.node.inj hd
    exact hcontainer hkind
  | list hds | skipped hds | junk hds =>
    obtain ⟨-, -, rfl, rfl, -⟩ := Draft.node.inj hd
    exact keys_of_shaped hds
  | keyValue _ hv | literalKey hv =>
    obtain ⟨-, -, rfl, rfl, -⟩ := Draft.node.inj hd
    exact List.forall_mem_cons.mpr ⟨rfl, List.forall_mem_cons.mpr ⟨rfl, keys_of_shaped hv⟩⟩
  | tooDeep | trailing =>
    obtain ⟨-, -, rfl, rfl, -⟩ := Draft.node.inj hd
    exact List.forall_mem_cons.mpr ⟨rfl, keys_of_mem_map_leaf⟩
  | signed =>
    obtain ⟨-, -, rfl, rfl, -⟩ := Draft.node.inj hd
    exact @keys_of_mem_map_leaf [_, _]
  | scalar | invalid | stray | key | incomplete =>
    obtain ⟨-, -, rfl, rfl, -⟩ := Draft.node.inj hd
    exact List.forall_mem_singleton.mpr rfl

end

/-! ## What is told of keys -/

section
variable {α : Type} {f : List Lexeme → List α}

/-- Whether what is told of the keys in lists at and below a draft is what is told of its own, if
it is a list itself, and of the keys of objects. -/
def ToldByObjects (f : List Lexeme → List α) (d : Draft) : Prop :=
  ∀ o b, (standings o b d).flatMap (fun x => f x.draft.keys) =
    f d.keys ++ (standings o b d).flatMap fun x => f x.draft.objectKeys

/-- In a row without lists all that is told of keys is told of the keys of objects. -/
theorem flatMap_keys_row (hf : f [] = []) {ds : List Draft} (hds : ∀ d ∈ ds, ToldByObjects f d)
    (hkeys : ∀ d ∈ ds, d.keys = []) (o : Nat) (b : List (Option Text)) :
    (standingsRow o b ds).flatMap (fun x => f x.draft.keys) =
      (standingsRow o b ds).flatMap fun x => f x.draft.objectKeys := by
  induction ds generalizing o b with
  | nil => rfl
  | cons d ds ih =>
    obtain ⟨hd, hds⟩ := List.forall_mem_cons.mp hds
    obtain ⟨hkey, hkeys⟩ := List.forall_mem_cons.mp hkeys
    rw [standingsRow, List.flatMap_append, List.flatMap_append, hd o b, hkey, hf, List.nil_append,
      ih hds hkeys]

theorem toldByObjects_leaf (hf : f [] = []) (l : Lexeme) : ToldByObjects f (leaf l) := by
  intro o b
  show [] = f [] ++ []
  rw [hf]
  rfl

theorem toldByObjects_node (hf : f [] = []) {kind : NodeKind} {before after : Option ParseError}
    {first : Draft} {rest : List Draft} (h : Formed (node kind before first rest after))
    (hparts : ∀ d ∈ first :: rest, ToldByObjects f d) :
    ToldByObjects f (node kind before first rest after) := by
  intro o b
  rw [standings_node, List.flatMap_cons, List.flatMap_cons]
  refine congrArg (f _ ++ ·) ?_
  by_cases hkind : kind = .object
  · subst hkind
    obtain ⟨-, opener, ds, closer, after', hd, -⟩ :=
      exists_containerNode (c := .object) h (by simp [tree, Tree.isNodeOf, Container.nodeKind])
    have hobject := objectKeys_containerNode opener ds closer after'
    rw [← hd] at hobject
    obtain ⟨-, -, rfl, rfl, -⟩ := Draft.node.inj hd
    have hcloser (o' : Nat) (b' : List (Option Text)) :
        standingsRow o' b' (closer.map leaf).toList = [] := by
      cases closer <;> rfl
    rw [hobject, standingsRow, standings, List.nil_append, standingsRow_append, hcloser,
      List.append_nil]
    cases ds with
    | nil =>
      show [] = f [] ++ []
      rw [hf]
      rfl
    | cons d ds =>
      have hlist : ToldByObjects f (plain .members d ds) :=
        hparts _ (by simp [wrap, Container.listKind])
      rw [wrap, standingsRow_singleton]
      exact hlist _ _
  · rw [objectKeys_of_ne hkind, hf, List.nil_append]
    exact flatMap_keys_row hf hparts (keys_of_mem_parts h hkind) o b

mutual

theorem toldByObjects (hf : f [] = []) : ∀ d : Draft, EveryNode Formed [d] → ToldByObjects f d
  | leaf l => fun _ => toldByObjects_leaf hf l
  | node kind before first rest after => fun h => by
    obtain ⟨hnode, hparts⟩ := everyNode_node_iff.mp h
    obtain ⟨hfirst, hrest⟩ := everyNode_cons_iff.mp hparts
    exact toldByObjects_node hf hnode (List.forall_mem_cons.mpr
      ⟨toldByObjects hf first hfirst, toldByObjects_of_mem hf rest hrest⟩)

theorem toldByObjects_of_mem (hf : f [] = []) : ∀ ds : List Draft, EveryNode Formed ds →
    ∀ d ∈ ds, ToldByObjects f d
  | [] => fun _ => List.forall_mem_nil _
  | d :: ds => fun h => List.forall_mem_cons.mpr
    ⟨toldByObjects hf d (everyNode_cons_iff.mp h).1,
      toldByObjects_of_mem hf ds (everyNode_cons_iff.mp h).2⟩

end

end

end Draft

/-- What is told of the keys in the lists of a document is told of the keys of its objects. -/
theorem Parse.flatMap_keys {α : Type} {f : List Lexeme → List α} (hf : f [] = []) (source : Text) :
    (standings source).flatMap (fun x => f x.draft.keys) =
      (standings source).flatMap fun x => f x.draft.objectKeys := by
  refine flatMap_keys_row hf (toldByObjects_of_mem hf _ (everyNode_documentDrafts _ _)) ?_ 0 []
  have htrailing (ls : List Lexeme) : ∀ d ∈ trailing ls, d.keys = [] := by
    cases ls with
    | nil => exact List.forall_mem_nil _
    | cons l ls => exact List.forall_mem_singleton.mpr rfl
  rcases documentDrafts_cases (Lexemes.ofTokens (tokenize source) source.size).eof
    (lexemes source) with ⟨d, rest, hdrafts, hd⟩ | hdrafts
  · show ∀ d ∈ documentDrafts _ (lexemes source), d.keys = []
    rw [hdrafts]
    exact List.forall_mem_cons.mpr ⟨keys_of_value hd, htrailing rest⟩
  · show ∀ d ∈ documentDrafts _ (lexemes source), d.keys = []
    rw [hdrafts]
    exact htrailing _

/-! ## Tokens of keys -/

namespace Draft

mutual

/-- The lexemes among which those of the keys are that a draft has for the object that it is in. -/
def keyTokens : Draft → List Lexeme
  | leaf l => [l]
  | node .key _ first rest _ => first.keyTokens ++ keyTokensList rest
  | node .members _ first rest _ => first.keyTokens ++ keyTokensList rest
  | node .keyValue _ first _ _ => first.keyTokens
  | node .. => []

def keyTokensList : List Draft → List Lexeme
  | [] => []
  | d :: ds => d.keyTokens ++ keyTokensList ds

end

theorem keyTokensList_eq (ds : List Draft) : keyTokensList ds = ds.flatMap keyTokens := by
  induction ds with
  | nil => rfl
  | cons d ds ih => rw [keyTokensList, ih, List.flatMap_cons]

/-- The lexemes that a node does not hand on to the object that it is in. -/
def keptTokens : Draft → List Lexeme
  | leaf _ => []
  | node .key .. => []
  | node .members .. => []
  | node .keyValue _ _ rest _ => rest.flatMap keyTokens
  | node _ _ first rest _ => (first :: rest).flatMap keyTokens

/-- Keys hand on their tokens through members and lists to objects. -/
theorem shares_keyTokens : Shares keyTokens keptTokens := by
  refine ⟨fun l => rfl, fun kind before first rest after => ?_⟩
  cases kind with
  | key =>
    rw [keyTokens, keptTokens, List.append_nil, keyTokensList_eq]
    exact List.Perm.refl _
  | members =>
    rw [keyTokens, keptTokens, List.append_nil, keyTokensList_eq]
    exact List.Perm.refl _
  | _ => exact List.Perm.refl _

theorem mem_keyTokens_of_keyLexeme? {d : Draft} {l : Lexeme} (h : d.keyLexeme? = some l) :
    l ∈ d.keyTokens := by
  unfold keyLexeme? at h
  split at h
  · obtain rfl := Option.some.inj h
    exact List.mem_singleton.mpr rfl
  · simp at h

theorem mem_keptTokens_of_mem_objectKeys {d : Draft} {l : Lexeme} (h : l ∈ d.objectKeys) :
    l ∈ d.keptTokens := by
  unfold objectKeys at h
  split at h
  · rename_i before first rest after
    obtain ⟨list, hlist, hl⟩ := List.mem_flatMap.mp h
    refine List.mem_flatMap.mpr ⟨list, hlist, ?_⟩
    unfold keys at hl
    split at hl
    · rename_i first' rest' after'
      obtain ⟨m, hm, hkey⟩ := List.mem_filterMap.mp hl
      rw [keyTokens, keyTokensList_eq, ← List.flatMap_cons]
      exact List.mem_flatMap.mpr ⟨m, hm, mem_keyTokens_of_keyLexeme? hkey⟩
    · exact absurd hl List.not_mem_nil
  · exact absurd h List.not_mem_nil

theorem filterMap_keyLexeme?_sublist (ds : List Draft) :
    (ds.filterMap keyLexeme?).Sublist (lexemesList ds) := by
  induction ds with
  | nil => exact List.Sublist.refl _
  | cons d ds ih =>
    rw [lexemesList_cons]
    cases hd : keyLexeme? d with
    | none =>
      rw [List.filterMap_cons_none hd]
      exact ih.trans (List.sublist_append_right _ _)
    | some l =>
      rw [List.filterMap_cons_some hd, ← List.singleton_append]
      refine List.Sublist.append ?_ ih
      unfold keyLexeme? at hd
      split at hd
      · obtain rfl := Option.some.inj hd
        exact List.singleton_sublist.mpr (List.mem_append_left _ (List.mem_singleton.mpr rfl))
      · simp at hd

end Draft

/-! ## Objects of a document -/

namespace Parse
variable {source : Text}

open View

theorem exists_containerNode_of_view? {x : Standing} (hx : x ∈ standings source) {object : Object}
    (h : x.site.view? .object = some object) : ∃ e opener ds closer after,
      x.draft = containerNode .object opener ds closer after ∧
      Shaped (.object :: e) (.list .object true) ds ∧
      object = viewOf x.offset x.before .object (leaf opener)
        (wrap .members ds ++ (closer.map leaf).toList) := by
  have htree := Site.view?_eq_some h
  obtain ⟨kind, before, first, rest, after, hdraft⟩ := exists_node_of_mem_standings hx
  have hnode : x.draft.tree.isNodeOf .object = true := by
    have hsite : x.site.tree = x.draft.tree := rfl
    rw [← hsite, htree]
    simp [Tree.isNodeOf]
  obtain ⟨e, opener, ds, closer, after', hd, -, -, hshape, -⟩ :=
    exists_containerNode (c := .object) (formed_of_mem_standings hx) hnode
  refine ⟨e, opener, ds, closer, after', hd, hshape, ?_⟩
  rw [Standing.site, hd] at h
  exact (Option.some.inj h).symm

/-- The keys of an object are told by their tokens. -/
theorem forall₂_keys_object {x : Standing} (hx : x ∈ standings source) {object : Object}
    (h : x.site.view? .object = some object) :
    List.Forall₂ (fun k t => Key.name k = t.keyName ∧ k.range = t.span) (Object.keys object)
      (x.draft.objectKeys.map Lexeme.token) := by
  obtain ⟨e, opener, ds, closer, after, hdraft, hshape, rfl⟩ := exists_containerNode_of_view? hx h
  have hplaced : Placed x.offset x.draft.lexemes := isPlaced_of_mem_standings hx
  rw [hdraft, lexemes_containerNode, ← List.singleton_append, placed_append, placed_append]
    at hplaced
  rw [hdraft, objectKeys_containerNode, Object.keys]
  have helements := elements_viewOf .object x.offset x.before opener ds closer
  have hmembers : Object.keyValues (viewOf x.offset x.before .object (leaf opener)
      (wrap .members ds ++ (closer.map leaf).toList)) =
        viewsIn .keyValue (x.offset + Lexeme.sizeList [opener])
          (slotsBehind x.before (leaf opener)) ds := helements
  rw [hmembers]
  exact Validation.forall₂_keys _ hplaced.2.1 (everyNode_of_shaped hshape)

theorem objectKeys_of_view?_none {x : Standing} (hx : x ∈ standings source)
    (h : x.site.view? .object = none) : x.draft.objectKeys = [] := by
  obtain ⟨kind, before, first, rest, after, hdraft⟩ := exists_node_of_mem_standings hx
  rw [hdraft]
  apply objectKeys_of_ne
  rintro rfl
  have hview : x.site.view? .object = some (viewOf x.offset x.before .object first rest) := by
    rw [Standing.site, hdraft]
    rfl
  exact absurd (hview.symm.trans h) (Option.some_ne_none _)

/-- The keys that the rules tell are those that the objects of a document had before. -/
theorem filter_duplicateKey_validate (o : ValidationOptions) (source : Text) :
    (validate o (.root (parse source).tree)).filter (·.category == .duplicateKey) =
      if o.duplicateKeys then
        ((Site.root (parse source).tree).viewsOf .object).flatMap fun object =>
          Validation.duplicatesAmong [] (Object.keys object)
      else [] := by
  have hdefault : (validate .default (.root (parse source).tree)).filter
      (·.category == .duplicateKey) =
        ((Site.root (parse source).tree).viewsOf .object).flatMap fun object =>
          Validation.duplicatesAmong [] (Object.keys object) := by
    rw [filter_validate_eq source (fun x => Validation.repeated [] (x.draft.keys.map Lexeme.token))
      fun x hx v hv => Validation.filter_duplicateKey_atNode (formed_of_mem_standings hx)
        (isPlaced_of_mem_standings hx) hv]
    have htold := Parse.flatMap_keys (f := fun ls => Validation.repeated [] (ls.map Lexeme.token))
      rfl source
    refine htold.trans ?_
    rw [viewsOf_parse source (by decide), List.filterMap_eq_flatMap_toList, List.flatMap_assoc]
    refine List.flatMap_congr fun x hx => ?_
    cases hview : x.site.view? .object with
    | none =>
      rw [objectKeys_of_view?_none hx hview]
      rfl
    | some object =>
      rw [Option.toList_some, List.flatMap_singleton]
      exact (Validation.duplicatesAmong_eq_repeated (forall₂_keys_object hx hview) []).symm
  have hrule (d : Diagnostic) : (d.category == .duplicateKey && o.reports d.category) =
      (d.category == .duplicateKey && o.duplicateKeys) := by
    cases d.category <;> rfl
  rw [validate_eq_filter_reports, List.filter_filter, ← hdefault]
  simp only [hrule]
  cases o.duplicateKeys with
  | true => simp
  | false => simp

theorem map_range_keys {x : Standing} (hx : x ∈ standings source) {object : Object}
    (h : x.site.view? .object = some object) :
    (Object.keys object).map View.range = x.draft.objectKeys.map (·.token.span) := by
  have hranges := (forall₂_keys_object hx h).imp fun _ _ => And.right
  rw [List.forall₂_map_right_iff] at hranges
  rwa [← List.forall₂_eq_eq_eq, List.forall₂_map_left_iff, List.forall₂_map_right_iff]

theorem pairwise_keys {object : Object}
    (h : object ∈ (Site.root (parse source).tree).viewsOf .object) :
    (Object.keys object).Pairwise fun k k' => k.range.stop ≤ k'.range.start := by
  rw [viewsOf_parse source (by decide)] at h
  obtain ⟨x, hx, hview⟩ := List.mem_filterMap.mp h
  obtain ⟨e, opener, ds, closer, after, hdraft, -, -⟩ := exists_containerNode_of_view? hx hview
  have hplaced : Placed x.offset x.draft.lexemes := isPlaced_of_mem_standings hx
  have hsublist : x.draft.objectKeys.Sublist x.draft.lexemes := by
    rw [hdraft, objectKeys_containerNode, lexemes_containerNode]
    exact ((filterMap_keyLexeme?_sublist ds).trans (List.sublist_append_left _ _)).cons opener
  have hpairwise := (pairwise_start_of_placed hplaced).sublist hsublist
  have hranges : ((Object.keys object).map View.range).Pairwise fun s t => s.stop ≤ t.start := by
    rw [map_range_keys hx hview]
    exact List.pairwise_map.mpr hpairwise
  exact List.pairwise_map.mp hranges

theorem pairwise_objects (source : Text) :
    ((Site.root (parse source).tree).viewsOf .object).Pairwise fun object object' =>
      ∀ k ∈ Object.keys object, ∀ k' ∈ Object.keys object', k.range ≠ k'.range := by
  have hlexemes := lexemesList_drafts source
  have hkept : ((standings source).flatMap (·.draft.keptTokens)).Nodup :=
    (List.nodup_append.mp ((shares_keyTokens.permRow 0 [] (drafts source)).nodup_iff.mpr
      (hlexemes ▸ nodup_lexemes source))).2.1
  rw [viewsOf_parse source (by decide), List.pairwise_filterMap]
  refine (List.nodup_flatMap.mp hkept).2.imp_of_mem fun {x y} hx hy hapart => ?_
  intro object hobject object' hobject' k hk k' hk' hrange
  have htoken {x : Standing} (hx : x ∈ standings source) {object : Object}
      (hobject : x.site.view? .object = some object) {k : Key} (hk : k ∈ Object.keys object) :
      ∃ l ∈ x.draft.keptTokens, l ∈ lexemes source ∧ l.token.span = k.range := by
    have hmem := List.mem_map_of_mem (f := View.range) hk
    rw [map_range_keys hx hobject] at hmem
    obtain ⟨l, hl, hspan⟩ := List.mem_map.mp hmem
    have hkept := mem_keptTokens_of_mem_objectKeys hl
    exact ⟨l, hkept, hlexemes ▸ shares_keyTokens.mem_lexemesList hx hkept, hspan⟩
  obtain ⟨l, hl, hmem, hspan⟩ := htoken hx hobject hk
  obtain ⟨l', hl', hmem', hspan'⟩ := htoken hy hobject' hk'
  obtain rfl := span_inj hmem hmem' (hspan.trans (hrange.trans hspan'.symm))
  exact hapart hl hl'

end Parse

end Maml
