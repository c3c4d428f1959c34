import Maml.Proofs.Changes
import Maml.Repair

/-! Lists after a change that makes no strings.

1. The nodes of a row that is recast are what becomes of its nodes, in their order
   (`standingsRow_of_recast`).
2. The siblings in a list that is recast are those that were in it, but for those that are on
   lines of their own now, and with a comma between them where one was put
   (`siblings_of_recast`).
3. If no comma is put anywhere, the trees of a row are the same apart from their trivia
   (`map_bare_of_recast`). -/
namespace Maml

theorem Tree.bareList_eq (ts : List Tree) : bareList ts = (ts.filter (!·.isTrivia)).map bare := by
  induction ts with
  | nil => rfl
  | cons t ts ih =>
    rw [bareList, List.filter_cons]
    cases t.isTrivia <;> simp [ih]

namespace Draft

variable {r : Recasting} {k : NodeKind}

/-! ## Nodes -/

/-- Whether a node is what becomes of another. -/
def Recasting.Renews (r : Recasting) : Draft → Draft → Prop
  | node kind _ first rest _, node kind' _ first' rest' _ =>
    kind' = kind ∧ Recast r kind (first :: rest) (first' :: rest')
  | _, _ => False

theorem Recasting.Renews.exists_node {kind : NodeKind} {before after : Option ParseError}
    {first : Draft} {rest : List Draft} {d' : Draft}
    (h : r.Renews (node kind before first rest after) d') :
    ∃ before' first' rest' after', d' = node kind before' first' rest' after' ∧
      Recast r kind (first :: rest) (first' :: rest') := by
  cases d' with
  | leaf => exact h.elim
  | node kind' before' first' rest' after' =>
    obtain ⟨rfl, hparts⟩ := h
    exact ⟨before', first', rest', after', rfl, hparts⟩

theorem Recasting.Renews.exists_nodes {d d' : Draft} (h : r.Renews d d') :
    ∃ kind before first rest after before' first' rest' after',
      d = node kind before first rest after ∧ d' = node kind before' first' rest' after' ∧
        Recast r kind (first :: rest) (first' :: rest') := by
  cases d with
  | leaf => exact h.elim
  | node kind before first rest after =>
    obtain ⟨before', first', rest', after', rfl, hparts⟩ := h.exists_node
    exact ⟨kind, before, first, rest, after, before', first', rest', after', rfl, rfl, hparts⟩

theorem standingsRow_map_leaf (o : Nat) (b : List (Option Text)) (ls : List Lexeme) :
    standingsRow o b (ls.map leaf) = [] := by
  induction ls generalizing o b with
  | nil => rfl
  | cons l ls ih => exact ih _ _

section
variable (hquotes : ∀ l, r.quotes l = false)
include hquotes

/-- Nodes become nodes of the same kind, in the same order. -/
theorem standingsRow_of_recast {ds ds' : List Draft} (h : Recast r k ds ds') :
    ∀ (o o' : Nat) (b b' : List (Option Text)),
      List.Forall₂ (fun x x' => r.Renews x.draft x'.draft) (standingsRow o b ds)
        (standingsRow o' b' ds') := by
  induction h with
  | nil => exact fun _ _ _ _ => .nil
  | leaf => exact fun _ _ _ _ => .nil
  | node _ _ hparts ih =>
    intro o o' b b'
    rw [standingsRow_singleton, standingsRow_singleton, standings_node, standings_node]
    exact .cons ⟨rfl, hparts⟩ (ih o o' b b')
  | quotedValue hl => exact absurd hl (by simp [hquotes])
  | quotedKey hkey => exact absurd hkey (by simp [hquotes])
  | cons _ _ ihd ihds =>
    intro o o' b b'
    have hd := ihd o o' b b'
    rw [standingsRow_singleton, standingsRow_singleton] at hd
    rw [standingsRow, standingsRow, standingsRow_append, standingsRow_map_leaf,
      List.nil_append]
    exact List.rel_append hd (ihds _ _ _ _)

theorem exists_standing_of_recast {ds ds' : List Draft} (h : Recast r k ds ds') {x : Standing}
    (hx : x ∈ standingsRow 0 [] ds) : ∃ x' ∈ standingsRow 0 [] ds', r.Renews x.draft x'.draft := by
  have hnodes := standingsRow_of_recast hquotes h 0 0 [] []
  generalize standingsRow 0 [] ds = xs, standingsRow 0 [] ds' = ys at hx hnodes
  induction hnodes with
  | nil => exact absurd hx List.not_mem_nil
  | cons hrenews _ ih =>
    rcases List.mem_cons.mp hx with rfl | hx
    · exact ⟨_, List.mem_cons_self, hrenews⟩
    · obtain ⟨x', hx', hrenews⟩ := ih hx
      exact ⟨x', List.mem_cons_of_mem _ hx', hrenews⟩

theorem eq_of_recast_leaf {l : Lexeme} {row : List Draft} (h : Recast r k [leaf l] row) :
    row = [leaf (r.map l)] := by
  generalize hold : [leaf l] = old at h
  induction h with
  | nil => exact absurd hold (by simp)
  | leaf =>
    obtain rfl := Draft.leaf.inj (List.singleton_inj.mp hold)
    rfl
  | node => exact absurd hold (by simp)
  | quotedValue hl => exact absurd hl (by simp [hquotes])
  | quotedKey hkey => exact absurd hkey (by simp [hquotes])
  | cons _ hds ihd =>
    obtain ⟨rfl, rfl⟩ := List.cons.inj hold
    obtain rfl := List.singleton_inj.mp (ihd rfl)
    rw [hds.eq_nil]
    rfl

theorem exists_node_of_recast {kind : NodeKind} {before after : Option ParseError} {first : Draft}
    {rest row : List Draft} (h : Recast r k [node kind before first rest after] row) :
    ∃ before' first' rest' after', row = [node kind before' first' rest' after'] ∧
      Recast r kind (first :: rest) (first' :: rest') := by
  generalize hold : [node kind before first rest after] = old at h
  induction h with
  | nil => exact absurd hold (by simp)
  | leaf => exact absurd hold (by simp)
  | node _ _ hparts =>
    obtain ⟨rfl, -, rfl, rfl, -⟩ := Draft.node.inj (List.singleton_inj.mp hold)
    exact ⟨_, _, _, _, rfl, hparts⟩
  | quotedValue hl => exact absurd hl (by simp [hquotes])
  | quotedKey hkey => exact absurd hkey (by simp [hquotes])
  | cons _ hds ihd =>
    obtain ⟨rfl, rfl⟩ := List.cons.inj hold
    obtain ⟨before', first', rest', after', hrow, hparts⟩ := ihd rfl
    obtain rfl := List.singleton_inj.mp hrow
    rw [hds.eq_nil]
    exact ⟨before', first', rest', after', rfl, hparts⟩

end

/-! ## Siblings -/

/-- Whether siblings are what becomes of others, with a comma between them if they had one or one
was put there. -/
structure Recasting.Rejoins (r : Recasting) (k : NodeKind) (p p' : Siblings) : Prop where
  first : Recast r k [p.first] [p'.first]
  next : Recast r k [p.next] [p'.next]
  comma : p'.comma.isNone = (p.comma.isNone && (r.cut p.first).isNone)

theorem isElementOf_node (c : Container) (kind : NodeKind) (before after : Option ParseError)
    (first : Draft) (rest : List Draft) :
    isElementOf c.listKind (node kind before first rest after) = (kind == c.elementKind) := by
  cases c <;> rfl

theorem Recasting.separator_of_isElementOf {d e : Draft} (ds : List Draft)
    (hd : isElementOf k d = true) (he : isElementOf k e = true) :
    r.separator k d (e :: ds) = (r.cut d).toList := by
  rw [separator, hd, he, Bool.and_self, if_pos rfl]

/-- Whether a change keeps the line breaks in front of the elements and commas of a row, and makes
new ones in front of some elements. -/
structure Recasting.BreaksAt (r : Recasting) (breaks : Lexeme → Bool) (ds : List Draft) : Prop where
  line : ∀ d ∈ ds,
    (r.map d.firstLexeme).onNewLine = (d.firstLexeme.onNewLine || breaks d.firstLexeme)
  comma : ∀ l, leaf l ∈ ds → l.kind = .comma ∧ breaks l = false

namespace Recasting.BreaksAt

variable {breaks : Lexeme → Bool} {d : Draft} {ds : List Draft}

theorem tail (h : r.BreaksAt breaks (d :: ds)) : r.BreaksAt breaks ds where
  line x hx := h.line x (List.mem_cons_of_mem _ hx)
  comma l hl := h.comma l (List.mem_cons_of_mem _ hl)

theorem onNewLine_comma {l : Lexeme} (h : r.BreaksAt breaks (leaf l :: ds)) :
    (r.map l).onNewLine = l.onNewLine := by
  have hline : (r.map l).onNewLine = (l.onNewLine || breaks l) := h.line _ List.mem_cons_self
  rwa [(h.comma l List.mem_cons_self).2, Bool.or_false] at hline

end Recasting.BreaksAt

/-- Whether the same is remembered in front of a row and in front of what becomes of it: the
sibling before, the comma behind it and whether a line break was seen. A comma that is put in
counts as one. -/
structure Recasting.Abreast (r : Recasting) (c : Container) (ds : List Draft)
    (first first' : Option Draft) (comma comma' : Option Lexeme) (lineBreak lineBreak' : Bool) :
    Prop where
  sibling : Option.Rel (fun d d' => Recast r c.listKind [d] [d']) first first'
  seen : first = none ∨ lineBreak' = lineBreak
  joined : comma.isSome = true → comma'.isSome = true
  cut : ∀ d ∈ first, comma = none → ∀ e ∈ ds.head?, isElementOf c.listKind e = true →
    comma'.isNone = (r.cut d).isNone

namespace Recasting.Abreast

variable {c : Container} {d d' : Draft} {ds : List Draft} {first first' : Option Draft}
  {comma comma' : Option Lexeme} {lineBreak lineBreak' : Bool}

theorem without_first (hcomma : comma.isSome = true → comma'.isSome = true) :
    r.Abreast c ds none none comma comma' lineBreak lineBreak' where
  sibling := .none
  seen := .inl rfl
  joined := hcomma
  cut _ hnone := absurd hnone (by simp)

theorem behind_comma {ds' : List Draft} {l l' : Lexeme} (hline : l'.onNewLine = l.onNewLine)
    (h : r.Abreast c ds' first first' comma comma' lineBreak lineBreak') :
    r.Abreast c ds first first' (some l) (some l') (lineBreak || l.onNewLine)
      (lineBreak' || l'.onNewLine) where
  sibling := h.sibling
  seen := h.seen.imp_right fun heq => by rw [heq, hline]
  joined _ := rfl
  cut _ _ hnone := absurd hnone (by simp)

theorem behind_element (hd : Recast r c.listKind [d] [d'])
    (helement : isElementOf c.listKind d = true) (hsep : r.separator c.listKind d ds = []) :
    r.Abreast c ds (some d) (some d') none none false false where
  sibling := .some hd
  seen := .inr rfl
  joined h := h
  cut x hx _ e he hnext := by
    obtain rfl := Option.some.inj hx
    obtain ⟨es, rfl⟩ := List.head?_eq_some_iff.mp he
    rw [separator_of_isElementOf es helement hnext] at hsep
    rw [Option.toList_eq_nil_iff.mp hsep]

theorem behind_cut {s : Lexeme} (hd : Recast r c.listKind [d] [d']) (hs : s ∈ r.cut d)
    (hline : s.onNewLine = false) :
    r.Abreast c ds (some d) (some d') none (some s) false (false || s.onNewLine) where
  sibling := .some hd
  seen := .inr (by rw [Bool.false_or, hline])
  joined h := absurd h (by simp)
  cut x hx _ _ _ _ := by
    obtain rfl := Option.some.inj hx
    rw [Option.mem_def.mp hs]

theorem rejoins {breaks : Lexeme → Bool}
    (h : r.Abreast c (d :: ds) first first' comma comma' lineBreak lineBreak')
    (hd : Recast r c.listKind [d] [d']) (helement : isElementOf c.listKind d = true)
    (hline : d'.firstLexeme.onNewLine = (d.firstLexeme.onNewLine || breaks d.firstLexeme)) :
    List.Forall₂ (r.Rejoins c.listKind)
      ((if lineBreak || d.firstLexeme.onNewLine then [] else
        first.toList.map (Siblings.mk · comma d)).filter (!breaks ·.next.firstLexeme))
      (if lineBreak' || d'.firstLexeme.onNewLine then [] else
        first'.toList.map (Siblings.mk · comma' d')) := by
  obtain ⟨hfirst, hbreak, hcomma, hcut⟩ := h
  cases hfirst with
  | none => simp
  | @some e e' he =>
    have hbreak : lineBreak' = lineBreak := hbreak.resolve_left (by simp)
    have hrejoins : r.Rejoins c.listKind ⟨e, comma, d⟩ ⟨e', comma', d'⟩ := by
      refine ⟨he, hd, ?_⟩
      cases hc : comma with
      | none => exact hcut e rfl hc d rfl helement
      | some l =>
        have hsome := hcomma (by rw [hc]; rfl)
        simpa using hsome
    rw [hline, hbreak, ← Bool.or_assoc]
    cases lineBreak || d.firstLexeme.onNewLine <;> cases hd : breaks d.firstLexeme <;>
      simp [hd, hrejoins]

end Recasting.Abreast

section
variable (hquotes : ∀ l, r.quotes l = false)
include hquotes

/-- The siblings in a list after a change, where `breaks` tells which lexemes begin a line that
did not. -/
theorem siblings_of_recast {c : Container} {breaks : Lexeme → Bool}
    (hcut : ∀ d, ∀ comma ∈ r.cut d, comma.onNewLine = false) {ds : List Draft} :
    ∀ {ds' : List Draft} {first first' : Option Draft} {comma comma' : Option Lexeme}
      {lineBreak lineBreak' : Bool}, Recast r c.listKind ds ds' → r.BreaksAt breaks ds →
      r.Abreast c ds first first' comma comma' lineBreak lineBreak' →
      List.Forall₂ (r.Rejoins c.listKind)
        ((siblings c.elementKind first comma lineBreak ds).filter
          (!breaks ·.next.firstLexeme))
        (siblings c.elementKind first' comma' lineBreak' ds') := by
  induction ds with
  | nil =>
    intro ds' _ _ _ _ _ _ h _ _
    rw [h.eq_nil]
    exact .nil
  | cons d ds ih =>
    intro row first first' comma comma' lineBreak lineBreak' h hbreaks habreast
    obtain ⟨d', rest, rfl, hhead⟩ := h.exists_cons
    obtain ⟨ds', rfl, hd, hds⟩ := h.exists_tail
    cases d with
    | leaf l =>
      have hkind : l.kind = .comma := (hbreaks.comma l List.mem_cons_self).1
      obtain rfl := List.singleton_inj.mp (eq_of_recast_leaf hquotes hd)
      have hkind' : (r.map l).kind = .comma := (r.kind_map (hquotes l)).trans hkind
      rw [Recasting.separator_eq_nil (isElementOf_leaf _ _), List.map_nil, List.nil_append,
        siblings, siblings, if_pos hkind, if_pos hkind']
      exact ih hds hbreaks.tail (habreast.behind_comma hbreaks.onNewLine_comma)
    | node kind before parts more after =>
      obtain ⟨before', parts', more', after', hrow, -⟩ := exists_node_of_recast hquotes hd
      obtain rfl := List.singleton_inj.mp hrow
      rw [siblings]
      by_cases hkind : kind = c.elementKind
      · have helement : isElementOf c.listKind (node kind before parts more after) = true := by
          rw [isElementOf_node, hkind, beq_self_eq_true]
        have hline := hbreaks.line _ List.mem_cons_self
        rw [← hhead] at hline
        rw [if_pos hkind, siblings, if_pos hkind, List.filter_append]
        refine List.rel_append (habreast.rejoins hd helement hline) ?_
        -- behind the element comes a comma, if one is put there
        rcases Recasting.separator_cases r c.listKind (node kind before parts more after) ds with
          hsep | ⟨s, e, es, rfl, hsep, -, he⟩
        · rw [hsep]
          exact ih hds hbreaks.tail (.behind_element hd helement hsep)
        · have hcuts := Recasting.separator_of_isElementOf (r := r) es helement he
          rw [hsep] at hcuts
          have hs : s ∈ r.cut (node kind before parts more after) :=
            Option.mem_toList.mp (by rw [← hcuts]; simp)
          rw [hsep, List.map_singleton, List.singleton_append, siblings, if_pos (r.kind_cut hs)]
          exact ih hds hbreaks.tail (.behind_cut hd hs (hcut _ s hs))
      · have helement : isElementOf c.listKind (node kind before parts more after) = false := by
          rw [isElementOf_node]
          exact beq_false_of_ne hkind
        rw [if_neg hkind, Recasting.separator_eq_nil helement, List.map_nil, List.nil_append,
          siblings, if_neg hkind]
        exact ih hds hbreaks.tail (.without_first habreast.joined)

theorem siblings_of_recast_list {c : Container} (breaks : Lexeme → Bool)
    (hcut : ∀ d, ∀ comma ∈ r.cut d, comma.onNewLine = false) {ds ds' : List Draft}
    (h : Recast r c.listKind ds ds')
    (hline : ∀ d ∈ ds, (r.map d.firstLexeme).onNewLine =
      (d.firstLexeme.onNewLine || breaks d.firstLexeme))
    (hleaf : ∀ l, leaf l ∈ ds → l.kind = .comma ∧ breaks l = false) :
    List.Forall₂ (r.Rejoins c.listKind)
      ((siblings c.elementKind none none false ds).filter (!breaks ·.next.firstLexeme))
      (siblings c.elementKind none none false ds') :=
  siblings_of_recast hquotes hcut h ⟨hline, hleaf⟩ (.without_first fun hsome => hsome)

end

/-! ## Trees -/

theorem bare_tree_node {o : Nat} {kind : NodeKind} {before after : Option ParseError}
    {first : Draft} {rest : List Draft} (hp : Placed o (lexemesList (first :: rest))) :
    (node kind before first rest after).tree.bare =
      .node (.node kind) ((first :: rest).map (·.tree.bare)) := by
  obtain ⟨hfirst, hrest⟩ := placed_append.mp hp
  rw [tree, Tree.bare, Tree.bareList, isTrivia_tree hfirst, if_neg Bool.false_ne_true,
    Tree.bareList_eq, filter_trees hrest, List.map_map]
  rfl

/-- If tokens stay as they are and no comma is put anywhere, the trees of a row are the same apart
from their trivia. -/
theorem map_bare_of_recast (hquotes : ∀ l, r.quotes l = false) (hcut : ∀ d, r.cut d = none)
    {ds ds' : List Draft} (h : Recast r k ds ds') :
    ∀ {o o' : Nat}, Placed o (lexemesList ds) → Placed o' (lexemesList ds') →
      (∀ l ∈ lexemesList ds, (r.map l).token.word = l.token.word) →
      ds'.map (·.tree.bare) = ds.map (·.tree.bare) := by
  induction h with
  | nil => exact fun _ _ _ => rfl
  | @leaf _ l =>
    intro o o' _ _ hword
    have hword := hword l (by simp)
    have hkind : (r.map l).token.kind = l.token.kind := congrArg Prod.fst hword
    have htext : (r.map l).token.text = l.token.text := congrArg Prod.snd hword
    rw [List.map_singleton, List.map_singleton, tree, tree, tokenLeaf, tokenLeaf, hkind, htext]
  | @node _ kind _ _ first first' rest rest' _ _ _ _ _ ih =>
    intro o o' hp hp' hword
    rw [lexemesList_singleton, lexemes_node] at hp hp' hword
    rw [List.map_singleton, List.map_singleton, bare_tree_node hp, bare_tree_node hp',
      ih hp hp' hword]
  | quotedValue hl => exact absurd hl (by simp [hquotes])
  | quotedKey hkey => exact absurd hkey (by simp [hquotes])
  | @cons k d d' ds ds' _ _ ihd ihds =>
    intro o o' hp hp' hword
    rw [Recasting.separator_of_cut hcut, List.map_nil, List.nil_append] at hp' ⊢
    rw [lexemesList_cons] at hp hp' hword
    obtain ⟨hd, hds⟩ := placed_append.mp hp
    obtain ⟨hd', hds'⟩ := placed_append.mp hp'
    rw [← lexemesList_singleton] at hd hd'
    have hhead := ihd hd hd' fun l hl => hword l (List.mem_append_left _ (by simpa using hl))
    have htail := ihds hds hds' fun l hl => hword l (List.mem_append_right _ hl)
    rw [List.map_cons, List.map_cons, htail]
    exact congrArg (· :: _) (List.singleton_inj.mp hhead)

end Draft

end Maml
