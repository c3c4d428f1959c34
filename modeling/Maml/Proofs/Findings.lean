import Maml.Proofs.Lists
import Maml.Proofs.Options
import Maml.Proofs.Gaps

/-! What the rules find, in drafts.

1. The invalid escapes at a node are those of the token that it is, if it is a key or a value
   (`Validation.filter_invalidEscape_atNode`); the keys of an object that it had before are told by
   the tokens of its keys (`Validation.filter_duplicateKey_atNode`).
2. So what a check tells of a category is what is told of it at the nodes of the document's drafts
   (`Parse.findings_eq`).
3. After a change that makes no strings the tokens of keys and values are what becomes of them
   (`Recasting.Renews.scalar?_eq`, `Recasting.Renews.keys_eq`). -/
namespace Maml

open Draft

/-! ## Tokens of keys and values -/

namespace Token

def leafView (t : Token) : LeafView := ⟨t.span.start, .token t.kind, t.text⟩

/-- The name by which a key is compared that is a token. -/
def keyName (t : Token) : Text :=
  if t.kind = .unterminatedString then t.text.dropWhile (· == '"') else Quoted.stripQuotes t.text

end Token

namespace Draft

def scalar? : Draft → Option Lexeme
  | node .key _ (leaf l) [] _ => some l
  | node .value _ (leaf l) [] _ => some l
  | _ => none

/-- The token of the key, if a draft is a member of an object. -/
def keyLexeme? : Draft → Option Lexeme
  | node .keyValue _ (node .key _ (leaf l) [] _) _ _ => some l
  | _ => none

def keys : Draft → List Lexeme
  | node .members _ first rest _ => (first :: rest).filterMap keyLexeme?
  | _ => []

theorem content_viewOf_node (o : Nat) (b : List (Option Text)) (kind : NodeKind)
    (before after : Option ParseError) (first : Draft) (rest : List Draft) :
    View.Value.content (viewOf o b .value (node kind before first rest after) []) =
      .ofNode (siteOf o b (node kind before first rest after)) := by
  have hsome : (viewOf o b .value (node kind before first rest after) []).parts.find?
      (·.tree.isNode) = some (siteOf o b (node kind before first rest after)) := rfl
  rw [View.Value.content, hsome]

theorem leaf?_viewOf_key {o : Nat} (b : List (Option Text)) {l : Lexeme} (hl : Placed o [l]) :
    View.Key.leaf? (viewOf o b .key (leaf l) []) = some l.token.leafView := by
  have hstart : l.token.span.start = _ := congrArg Span.start (span_firstToken (d := .leaf l) hl)
  rw [View.Key.leaf?, significantLeaf?_viewOf _ _ _ (hl.2 l List.mem_cons_self).2, Token.leafView,
    hstart]
  rfl

theorem mem_ownLexemes_of_scalar? {d : Draft} {l : Lexeme} (h : d.scalar? = some l) :
    l ∈ d.ownLexemes := by
  unfold scalar? at h
  split at h
  · obtain rfl := Option.some.inj h
    exact List.mem_singleton.mpr rfl
  · obtain rfl := Option.some.inj h
    exact List.mem_singleton.mpr rfl
  · exact absurd h (by simp)

/-! ## Forms of keys, values and members -/

section
variable {before after : Option ParseError} {first : Draft} {rest : List Draft}

/-- A key is a token, a value is a token or a node, and a member with a colon begins with its
key. -/
theorem parts_of_formed {kind : NodeKind} (h : Formed (node kind before first rest after)) :
    (kind = .key → ∃ l, first = leaf l ∧ rest = []) ∧
      (kind = .value →
        rest = [] ∧ ((∃ l, first = leaf l) ∨ ∃ k b f r a, first = node k b f r a)) ∧
      (kind = .keyValue → ∃ key, first = plain .key (leaf key) []) := by
  generalize hd : node kind before first rest after = d at h
  cases h with
  | key =>
    obtain ⟨rfl, -, rfl, rfl, -⟩ := Draft.node.inj hd
    exact ⟨fun _ => ⟨_, rfl, rfl⟩, nofun, nofun⟩
  | scalar =>
    obtain ⟨rfl, -, rfl, rfl, -⟩ := Draft.node.inj hd
    exact ⟨nofun, fun _ => ⟨rfl, .inl ⟨_, rfl⟩⟩, nofun⟩
  | value =>
    obtain ⟨rfl, -, rfl, rfl, -⟩ := Draft.node.inj hd
    exact ⟨nofun, fun _ => ⟨rfl, .inr ⟨_, _, _, _, _, rfl⟩⟩, nofun⟩
  | keyValue =>
    obtain ⟨rfl, -, rfl, rfl, -⟩ := Draft.node.inj hd
    exact ⟨nofun, nofun, fun _ => ⟨_, rfl⟩⟩
  | @closed _ c | @unclosed _ c | @list _ c =>
    obtain ⟨rfl, -⟩ := Draft.node.inj hd
    cases c <;> exact ⟨nofun, nofun, nofun⟩
  | _ =>
    obtain ⟨rfl, -⟩ := Draft.node.inj hd
    exact ⟨nofun, nofun, nofun⟩

theorem exists_leaf_of_formed_key (h : Formed (node .key before first rest after)) :
    ∃ l, first = leaf l ∧ rest = [] :=
  (parts_of_formed h).1 rfl

theorem cases_of_formed_value (h : Formed (node .value before first rest after)) :
    rest = [] ∧ ((∃ l, first = leaf l) ∨ ∃ k b f r a, first = node k b f r a) :=
  (parts_of_formed h).2.1 rfl

theorem exists_key_of_formed_keyValue (h : Formed (node .keyValue before first rest after)) :
    ∃ key, first = plain .key (leaf key) [] :=
  (parts_of_formed h).2.2 rfl

end

end Draft

namespace Validation

/-- The keys whose names were seen before, by their tokens. -/
def repeated (seen : List (Text × Span)) : List Token → List Diagnostic
  | [] => []
  | t :: ts =>
    match seen.lookup t.keyName with
    | some first => duplicateKey t.keyName t.span first :: repeated seen ts
    | none => repeated ((t.keyName, t.span) :: seen) ts

/-! ## Escapes at a node -/

theorem invalidEscapes_of_ne {l : LeafView} (h : l.label ≠ .token .string) :
    invalidEscapes l = [] := by
  rw [invalidEscapes, if_neg h]

theorem escapes_ofLeaf (l : LeafView) :
    (match View.Content.ofLeaf l with
      | .string l => invalidEscapes l
      | _ => []) = invalidEscapes l := by
  by_cases hstring : l.label = .token .string
  · rw [View.Content.ofLeaf, hstring]
  · rw [invalidEscapes_of_ne hstring]
    split
    · rename_i l' hl'
      obtain rfl := eq_of_ofLeaf hl'
      exact invalidEscapes_of_ne hstring
    · rfl

variable {x : Standing} {v : AnyView}

theorem filter_invalidEscape_atNode (hf : Formed x.draft) (hp : x.IsPlaced)
    (hv : x.site.anyView? = some v) :
    (atNode .default v).filter (·.category == .invalidEscape) =
      x.draft.scalar?.toList.flatMap (invalidEscapes ·.token.leafView) := by
  obtain ⟨kind, before, first, rest, after, hd, rfl⟩ := Standing.exists_node_of_anyView? hv
  have hp : Placed x.offset x.draft.lexemes := hp
  rw [hd] at hf hp ⊢
  rw [filter_atNode_default (· == .invalidEscape)]
  cases kind with
  | key =>
    obtain ⟨l, rfl, rfl⟩ := exists_leaf_of_formed_key hf
    show (View.Key.leaf? _).toList.flatMap invalidEscapes = _
    rw [leaf?_viewOf_key x.before hp, Option.toList_some, List.flatMap_singleton, scalar?,
      Option.toList_some, List.flatMap_singleton]
  | value =>
    show (match View.Value.content _ with
      | .string l => invalidEscapes l
      | _ => []) = _
    obtain ⟨rfl, ⟨l, rfl⟩ | ⟨k, b, f, r, a, rfl⟩⟩ := cases_of_formed_value hf
    · have htrivia : l.kind.isTrivia = false := (hp.2 l List.mem_cons_self).2
      have hstart : l.token.span.start = x.offset + Token.sizeList l.trivia :=
        congrArg Span.start (span_firstToken (d := .leaf l) hp)
      rw [content_leaf _ _ htrivia, escapes_ofLeaf, scalar?, Option.toList_some,
        List.flatMap_singleton, Token.leafView, hstart]
      rfl
    · rw [content_viewOf_node]
      split
      · rename_i l hl
        exact absurd hl (ofNode_ne_string _ l)
      · rfl
  | _ => rfl

/-! ## Keys of a node -/

theorem duplicatesAmong_eq_repeated {ks : List View.Key} {ts : List Token}
    (h : List.Forall₂ (fun k t => View.Key.name k = t.keyName ∧ k.range = t.span) ks ts) :
    ∀ seen, duplicatesAmong seen ks = repeated seen ts := by
  induction h with
  | nil => exact fun _ => rfl
  | @cons k t ks ts hkt _ ih =>
    obtain ⟨hname, hrange⟩ := hkt
    intro seen
    rw [duplicatesAmong, repeated]
    simp only [hname, hrange]
    cases seen.lookup t.keyName with
    | none => exact ih _
    | some first => exact congrArg _ (ih seen)

theorem name_range_viewOf {o : Nat} (b : List (Option Text)) {l : Lexeme} (hl : Placed o [l]) :
    View.Key.name (viewOf o b .key (leaf l) []) = l.token.keyName ∧
      (viewOf o b .key (leaf l) []).range = l.token.span := by
  refine ⟨?_, ?_⟩
  · rw [View.Key.name, leaf?_viewOf_key b hl, Token.keyName]
    simp only [Token.leafView, Label.token.injEq]
  · have hspan : l.token.span = _ := span_firstToken (d := .leaf l) hl
    rw [hspan]
    refine congrArg (Span.mk _) (congrArg (_ + ·) ?_)
    exact Nat.add_zero _

theorem forall₂_keys {ds : List Draft} : ∀ {o : Nat} (b : List (Option Text)),
    Placed o (lexemesList ds) → EveryNode Formed ds →
    List.Forall₂ (fun k t => View.Key.name k = t.keyName ∧ k.range = t.span)
      ((viewsIn .keyValue o b ds).filterMap View.KeyValue.key?)
      ((ds.filterMap keyLexeme?).map Lexeme.token) := by
  induction ds with
  | nil => exact fun _ _ _ => .nil
  | cons d ds ih =>
    intro o b hp hf
    rw [lexemesList_cons] at hp
    obtain ⟨hd, hds⟩ := placed_append.mp hp
    obtain ⟨hfirst, hrest⟩ := everyNode_cons_iff.mp hf
    have hrow := ih (slotsBehind b d) hds hrest
    have hother (hview : (siteOf o b d).view? .keyValue = none) (hkey : keyLexeme? d = none) :
        List.Forall₂ (fun k t => View.Key.name k = t.keyName ∧ k.range = t.span)
          ((viewsIn .keyValue o b (d :: ds)).filterMap View.KeyValue.key?)
          (((d :: ds).filterMap keyLexeme?).map Lexeme.token) := by
      rw [viewsIn_cons, hview, List.filterMap_cons_none hkey]
      exact hrow
    cases d with
    | leaf l => exact hother rfl rfl
    | node kind before first rest after =>
      by_cases hkind : kind = .keyValue
      · subst hkind
        obtain ⟨key, rfl⟩ := exists_key_of_formed_keyValue (everyNode_node_iff.mp hfirst).1
        have hview : (siteOf o b (node .keyValue before (plain .key (leaf key) []) rest
            after)).view? .keyValue = some (viewOf o b .keyValue (plain .key (leaf key) []) rest) :=
          rfl
        have hkey : View.KeyValue.key? (viewOf o b .keyValue (plain .key (leaf key) []) rest) =
            some (viewOf o b .key (leaf key) []) := by
          rw [View.KeyValue.key?, first?_viewOf, viewsIn_cons, view?_plain]
          rfl
        have hlexeme : keyLexeme? (node .keyValue before (plain .key (leaf key) []) rest after) =
            some key := rfl
        rw [viewsIn_cons, hview, Option.toList_some, List.singleton_append,
          List.filterMap_cons_some hkey, List.filterMap_cons_some hlexeme, List.map_cons]
        exact .cons (name_range_viewOf b (placed_append.mp hd).1) hrow
      · have hview : (siteOf o b (node kind before first rest after)).view? .keyValue = none := by
          simp [Site.view?, tree, hkind]
        refine hother hview ?_
        unfold keyLexeme?
        split
        · exact absurd (Draft.node.inj ‹_›).1 hkind
        · rfl

/-- The keys of an object that it had before are told by the tokens of its keys. -/
theorem filter_duplicateKey_atNode (hf : Formed x.draft) (hp : x.IsPlaced)
    (hv : x.site.anyView? = some v) :
    (atNode .default v).filter (·.category == .duplicateKey) =
      repeated [] (x.draft.keys.map Lexeme.token) := by
  obtain ⟨kind, before, first, rest, after, hd, rfl⟩ := Standing.exists_node_of_anyView? hv
  have hp : Placed x.offset x.draft.lexemes := hp
  rw [hd] at hf hp ⊢
  rw [filter_atNode_default (· == .duplicateKey)]
  cases kind with
  | members =>
    obtain ⟨e, hshape⟩ := exists_shaped_of_formed (c := .object) hf
    have hkeys := forall₂_keys x.before hp (everyNode_of_shaped hshape)
    show [] ++ duplicateKeys _ = _
    rw [List.nil_append, duplicateKeys, View.Members.keyValues, all_viewOf,
      duplicatesAmong_eq_repeated hkeys]
    rfl
  | _ => rfl

end Validation

/-! ## Findings of a document -/

namespace Parse

theorem exists_node_of_mem_standings {source : Text} {x : Standing} (hx : x ∈ standings source) :
    ∃ kind before first rest after, x.draft = node kind before first rest after := by
  have hformed := formed_of_mem_standings hx
  cases hd : x.draft with
  | leaf l =>
    rw [hd] at hformed
    nomatch hformed
  | node kind before first rest after => exact ⟨kind, before, first, rest, after, rfl⟩

theorem views_parse (source : Text) : ∃ file : View .file,
    (Site.root (parse source).tree).views =
      ⟨.file, file⟩ :: (standings source).map (·.site.anyView?.getD ⟨.file, file⟩) := by
  obtain ⟨file, hfile⟩ : ∃ file : View .file,
      (Site.root (parse source).tree).anyView? = some ⟨.file, file⟩ := ⟨_, rfl⟩
  refine ⟨file, ?_⟩
  rw [Site.views, descendants_root, List.filterMap_cons_some hfile, List.filterMap_map,
    ← List.filterMap_eq_map]
  refine congrArg _ (List.filterMap_congr fun x hx => ?_)
  obtain ⟨kind, before, first, rest, after, hdraft⟩ := exists_node_of_mem_standings hx
  simp only [Function.comp_apply, Standing.anyView?_site hdraft, Option.getD_some]

/-- Reading makes no mistake of the category of a rule. -/
theorem filter_diagnostics_of_rule {category : Category}
    (hrule : ValidationOptions.reports ⟨false, false, false⟩ category = false) (source : Text) :
    (parse source).diagnostics.filter (·.category == category) = [] := by
  rw [List.filter_eq_nil_iff]
  intro d hd
  obtain ⟨e, he, rfl⟩ := List.mem_map.mp hd
  have hreports := reports_ofParseError ⟨false, false, false⟩ (expected_ne_comma_of_mem_errors he)
  intro heq
  rw [beq_iff_eq.mp heq, hrule] at hreports
  exact Bool.false_ne_true hreports

theorem filter_validate_eq {category : Category} (source : Text)
    (find : Standing → List Diagnostic)
    (hfind : ∀ x ∈ standings source, ∀ v, x.site.anyView? = some v →
      (Validation.atNode .default v).filter (·.category == category) = find x) :
    (validate .default (.root (parse source).tree)).filter (·.category == category) =
      (standings source).flatMap find := by
  have hroot : (Site.root (parse source).tree).anyView?.toList.flatMap
      (Validation.atNode .default) = [] := rfl
  rw [validate, flatMap_views, hroot, List.nil_append, List.filter_flatMap]
  refine List.flatMap_congr fun x hx => ?_
  obtain ⟨kind, before, first, rest, after, hdraft⟩ := exists_node_of_mem_standings hx
  have hv := Standing.anyView?_site hdraft
  rw [← hfind x hx _ hv, hv, Option.toList_some, List.flatMap_singleton]

/-- What a check tells of the category of a rule is told of it at the nodes of the document. -/
theorem findings_eq {category : Category}
    (hrule : ValidationOptions.reports ⟨false, false, false⟩ category = false) (source : Text)
    (find : Standing → List Diagnostic)
    (hfind : ∀ x ∈ standings source, ∀ v, x.site.anyView? = some v →
      (Validation.atNode .default v).filter (·.category == category) = find x) :
    findings source category = sortByRange Diagnostic.range ((standings source).flatMap find) := by
  rw [findings, check, filter_sortByRange, List.filter_append, filter_diagnostics_of_rule hrule,
    List.nil_append, filter_validate_eq source find hfind]

def scalars (source : Text) : List Lexeme := (standings source).filterMap (·.draft.scalar?)

theorem mem_scalars {source : Text} {x : Standing} (hx : x ∈ standings source) {l : Lexeme}
    (hl : x.draft.scalar? = some l) : l ∈ scalars source :=
  List.mem_filterMap.mpr ⟨x, hx, hl⟩

theorem nodup_scalars (source : Text) : (scalars source).Nodup := by
  have hall := shares_ownLexemes.permRow 0 [] (drafts source)
  have hown : ((standings source).flatMap (·.draft.ownLexemes)).Nodup :=
    (List.nodup_append.mp
      (hall.nodup_iff.mpr (lexemesList_drafts source ▸ nodup_lexemes source))).2.1
  refine List.Nodup.sublist ?_ hown
  rw [scalars, List.filterMap_eq_flatMap_toList]
  induction standings source with
  | nil => exact List.Sublist.refl _
  | cons x xs ih =>
    rw [List.flatMap_cons, List.flatMap_cons]
    refine List.Sublist.append ?_ ih
    cases hx : x.draft.scalar? with
    | none => exact List.nil_sublist _
    | some l => exact List.singleton_sublist.mpr (mem_ownLexemes_of_scalar? hx)

theorem findings_invalidEscape (source : Text) :
    findings source .invalidEscape =
      sortByRange Diagnostic.range
        ((scalars source).flatMap (Validation.invalidEscapes ·.token.leafView)) := by
  rw [findings_eq rfl source
    (fun x => x.draft.scalar?.toList.flatMap (Validation.invalidEscapes ·.token.leafView))
    fun x hx v hv => Validation.filter_invalidEscape_atNode (formed_of_mem_standings hx)
      (isPlaced_of_mem_standings hx) hv, scalars, List.filterMap_eq_flatMap_toList,
    List.flatMap_assoc]

theorem findings_duplicateKey (source : Text) :
    findings source .duplicateKey = sortByRange Diagnostic.range
      ((standings source).flatMap fun x =>
        Validation.repeated [] (x.draft.keys.map Lexeme.token)) :=
  findings_eq rfl source _ fun _ hx _ hv => Validation.filter_duplicateKey_atNode
    (formed_of_mem_standings hx) (isPlaced_of_mem_standings hx) hv

end Parse

/-! ## After a change -/

namespace Draft

section
variable {r : Recasting} {k : NodeKind} (hquotes : ∀ l, r.quotes l = false)
include hquotes

theorem eq_of_recast_single {l : Lexeme} {d : Draft} {ds : List Draft}
    (h : Recast r k [leaf l] (d :: ds)) : d = leaf (r.map l) ∧ ds = [] := by
  obtain ⟨rfl, rfl⟩ := List.cons.inj (eq_of_recast_leaf hquotes h)
  exact ⟨rfl, rfl⟩

theorem Recasting.Renews.scalar?_eq {d d' : Draft} (h : r.Renews d d') (hf : Formed d) :
    d'.scalar? = d.scalar?.map r.map := by
  obtain ⟨kind, before, first, rest, after, before', first', rest', after', rfl, rfl, hparts⟩ :=
    h.exists_nodes
  cases kind with
  | key =>
    obtain ⟨l, rfl, rfl⟩ := exists_leaf_of_formed_key hf
    obtain ⟨rfl, rfl⟩ := eq_of_recast_single hquotes hparts
    rfl
  | value =>
    obtain ⟨rfl, ⟨l, rfl⟩ | ⟨k, b, f, r', a, rfl⟩⟩ := cases_of_formed_value hf
    · obtain ⟨rfl, rfl⟩ := eq_of_recast_single hquotes hparts
      rfl
    · obtain ⟨b', f', r'', a', hrow, -⟩ := exists_node_of_recast hquotes hparts
      obtain ⟨rfl, rfl⟩ := List.cons.inj hrow
      rfl
  | _ => rfl

theorem filterMap_keyLexeme?_of_recast {ds ds' : List Draft} (h : Recast r k ds ds')
    (hf : EveryNode Formed ds) :
    ds'.filterMap keyLexeme? = (ds.filterMap keyLexeme?).map r.map := by
  induction h with
  | nil => rfl
  | leaf => rfl
  | @node k kind before before' first first' rest rest' after after' _ _ hparts ih =>
    by_cases hkind : kind = .keyValue
    · subst hkind
      obtain ⟨key, rfl⟩ := exists_key_of_formed_keyValue (everyNode_node_iff.mp hf).1
      obtain ⟨ds', -, hfirst, -⟩ := hparts.exists_tail
      obtain ⟨b, f, more, a, hrow, hkey⟩ := exists_node_of_recast hquotes hfirst
      obtain rfl := List.singleton_inj.mp hrow
      obtain ⟨rfl, rfl⟩ := eq_of_recast_single hquotes hkey
      rfl
    · have hnone (b a : Option ParseError) (f : Draft) (more : List Draft) :
          keyLexeme? (node kind b f more a) = none := by
        unfold keyLexeme?
        split
        · exact absurd (Draft.node.inj ‹_›).1 hkind
        · rfl
      rw [List.filterMap_cons_none (hnone ..), List.filterMap_cons_none (hnone ..)]
      rfl
  | quotedValue hl => exact absurd hl (by simp [hquotes])
  | quotedKey hkey => exact absurd hkey (by simp [hquotes])
  | @cons k d d' ds ds' _ _ ihd ihds =>
    obtain ⟨hfirst, hrest⟩ := everyNode_cons_iff.mp hf
    have hcommas : ((r.separator k d ds).map leaf).filterMap keyLexeme? = [] := by
      rw [List.filterMap_map, List.filterMap_eq_nil_iff]
      exact fun _ _ => rfl
    rw [← List.singleton_append, List.filterMap_append, ihd hfirst, List.filterMap_append,
      hcommas, List.nil_append, ihds hrest, ← List.map_append, ← List.filterMap_append,
      List.singleton_append]

theorem Recasting.Renews.keys_eq {d d' : Draft} (h : r.Renews d d') (hf : Formed d) :
    d'.keys = d.keys.map r.map := by
  obtain ⟨kind, before, first, rest, after, before', first', rest', after', rfl, rfl, hparts⟩ :=
    h.exists_nodes
  cases kind with
  | members =>
    obtain ⟨e, hshape⟩ := exists_shaped_of_formed (c := .object) hf
    exact filterMap_keyLexeme?_of_recast hquotes hparts (everyNode_of_shaped hshape)
  | _ => rfl

end

end Draft

theorem Parse.scalars_of_recast {r : Recasting} (hquotes : ∀ l, r.quotes l = false)
    {source text : Text} (h : Recast r .file (drafts source) (drafts text)) :
    scalars text = (scalars source).map r.map := by
  have hnodes : List.Forall₂ (fun x x' => r.Renews x.draft x'.draft) (standings source)
      (standings text) := standingsRow_of_recast hquotes h 0 0 [] []
  have hscalars : (standings text).map (·.draft.scalar?) =
      (standings source).map fun x => x.draft.scalar?.map r.map :=
    map_eq_of_forall₂ hnodes fun x hx x' _ hrenews =>
      hrenews.scalar?_eq hquotes (formed_of_mem_standings hx)
  have hids := congrArg (List.filterMap id) hscalars
  rw [List.filterMap_map, List.filterMap_map] at hids
  rw [scalars, scalars, List.map_filterMap]
  exact hids

end Maml
