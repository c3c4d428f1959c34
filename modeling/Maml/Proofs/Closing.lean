import Maml.Proofs.Closers
import Maml.Proofs.Notes

/-! What containers without their closers leave behind.

1. That a closer is missing is noted at the container without it, once and where the
   container ends, and nowhere else (`closerRanges_notes`).
2. The last leaf of a tree is that of its last token (`lastLeaf?_tree`). If it is a closer
   that a container around it waits for, then it is the closer of some container that
   ends there, or was taken with one that is nested too deep (`closerAtEnd_of_resolved`).
3. So an error tells of every container whether it has its closer, but its view only tells
   whether it or something in it ends with one (`isClosed_iff`). The view of an array
   without its closer may say that it has one (`not_isClosed_iff`). -/
namespace Maml

namespace Draft

/-! ## Notes of missing closers -/

def closerRanges (c : Container) (errs : List ParseError) : List Span :=
  (errs.filter (·.expected == c.expectedCloser)).map (·.range)

section
variable {o : Nat} {c c' : Container} {opener : Lexeme} {ds : List Draft}

theorem isUnclosed_other (hne : c' ≠ c) (closer : Option Lexeme) (after : Option ParseError) :
    (containerNode c' opener ds closer after).tree.isUnclosed c = false := by
  rw [Tree.isUnclosed, isNodeOf_other hne.symm (isNodeOf_containerNode c' opener ds closer after),
    Bool.false_and]

theorem isUnclosed_closed {closer : Lexeme} (ho : opener.kind = c'.opener)
    (hc : closer.kind = c'.closer) :
    (containerNode c' opener ds (some closer) none).tree.isUnclosed c = false := by
  by_cases hcc : c' = c
  · subst hcc
    exact isUnclosed_containerNode ds ho (by simp [hc]) none
  · exact isUnclosed_other hcc _ _

theorem closerRanges_unclosed {after : Option ParseError} {next : Token} (ho : opener.kind = c'.opener)
    (hafter : after = missing c'.expectedCloser
      (lastTokenFrom opener.token (wrap c'.listKind ds)) next)
    (hp : Placed o (containerNode c' opener ds none after).lexemes) :
    closerRanges c after.toList =
      if (containerNode c' opener ds none after).tree.isUnclosed c then
        [.empty (o + Lexeme.sizeList (containerNode c' opener ds none after).lexemes)]
      else [] := by
  by_cases hcc : c' = c
  · subst hcc
    have hstop := stop_lastToken hp
    have hlast : (containerNode c' opener ds none after).lastToken =
        lastTokenFrom opener.token (wrap c'.listKind ds) := by
      rw [containerNode, Option.map_none, Option.toList_none, List.append_nil, lastToken, lastToken]
    rw [isUnclosed_containerNode ds ho (by simp), ← hstop, hlast, hafter]
    cases c' <;> rfl
  · rw [isUnclosed_other hcc, hafter]
    revert hcc
    cases c <;> cases c' <;> first | exact fun h => absurd rfl h | exact fun _ => rfl

end

theorem closerRanges_keyNote (c : Container) (key : Lexeme) :
    closerRanges c (keyNote key).toList = [] := by
  unfold keyNote
  split
  · cases c <;> rfl
  · rfl

theorem closerRanges_colonNote (c : Container) (key : Lexeme) (next : Token) :
    closerRanges c (colonNote key next).toList = [] := by
  unfold colonNote
  split
  · rfl
  · cases c <;> rfl

theorem closerRanges_note (c : Container) {e : List Container} {colon : Lexeme}
    {note : Option ParseError} {value : List Draft} (h : Shaped e (.behindColon colon note) value) :
    closerRanges c note.toList = [] := by
  rcases shaped_behindColon h with ⟨next, -, rfl⟩ | ⟨d, -, rfl, -⟩
  · cases c <;> rfl
  · rfl

theorem closerRanges_append (c : Container) (errs more : List ParseError) :
    closerRanges c (errs ++ more) = closerRanges c errs ++ closerRanges c more := by
  simp [closerRanges]

theorem closerRanges_notes {o : Nat} {d : Draft} (h : Formed d) (hp : Placed o d.lexemes)
    (c : Container) : closerRanges c d.notes =
      if d.tree.isUnclosed c then [.empty (o + Lexeme.sizeList d.lexemes)] else [] := by
  cases h with
  | closed ho hc hds =>
    rw [isUnclosed_closed ho hc]
    rfl
  | unclosed ho hds => exact closerRanges_unclosed ho rfl hp
  | @list _ c' =>
    cases c' <;> cases c <;> rfl
  | @stray c' =>
    cases c' <;> cases c <;> rfl
  | keyValue hc hv =>
    rw [notes, closerRanges_append, closerRanges_keyNote, closerRanges_note c hv]
    cases c <;> rfl
  | incomplete =>
    rw [incomplete, notes, closerRanges_append, closerRanges_keyNote, closerRanges_colonNote]
    cases c <;> rfl
  | literalKey hv =>
    rw [notes, closerRanges_append, closerRanges_note c hv]
    cases c <;> rfl
  | _ => cases c <;> rfl

/-! ## Last leaves -/

theorem lastLeafList?_append (ts : List Tree) (u : Tree) (us : List Tree) :
    Tree.lastLeafList? (ts ++ u :: us) = Tree.lastLeafList? (u :: us) := by
  induction ts with
  | nil => rfl
  | cons t ts ih =>
    rw [← ih]
    cases ts <;> rfl

mutual

/-- The last leaf of a tree is that of its last token. -/
theorem lastLeaf?_tree : ∀ d : Draft, d.tree.lastLeaf? = some (leafOf d.lastToken)
  | leaf _ => rfl
  | node _ _ first rest _ =>
    lastLeafList?_trees rest first.tree first.lastToken (lastLeaf?_tree first)

theorem lastLeafList?_trees : ∀ (ds : List Draft) (t : Tree) (last : Token),
    t.lastLeaf? = some (leafOf last) →
    Tree.lastLeafList? (t :: trees ds) = some (leafOf (lastTokenFrom last ds))
  | [], t, last, h => h
  | d :: ds, t, last, h => by
    have hd := lastLeafList?_trees ds d.tree d.lastToken (lastLeaf?_tree d)
    rw [trees, ← List.cons_append, lastLeafList?_append, hd]
    rfl

end

/-! ## Closers at the end of a row -/

/-- Whether a row that ends with a closer of a sort has a node that ends there and has this closer
for its own. -/
def CloserAtEnd (c : Container) (ds : List Draft) : Prop :=
  ∀ o b, ∀ l ∈ (lexemesList ds).getLast?, l.kind = c.closer → ∃ y ∈ standingsRow o b ds,
    y.site.stop = o + Lexeme.sizeList (lexemesList ds) ∧ y.site.tree.endsWithCloser c = true

section
variable {c : Container} {e : List Container} {behind : List Lexeme}

theorem closerAtEnd_nil : CloserAtEnd c [] := by
  intro o b l hl
  simp [lexemesList] at hl

theorem closerAtEnd_leaf {l : Lexeme} (hl : l.kind ≠ c.closer) : CloserAtEnd c [leaf l] := by
  intro o b l' hl' hkind
  obtain rfl : l = l' := by simpa [lexemesList, lexemes] using hl'
  exact absurd hkind hl

theorem closerAtEnd_cons {d : Draft} {ds : List Draft} (hd : CloserAtEnd c [d])
    (hds : CloserAtEnd c ds) : CloserAtEnd c (d :: ds) := by
  cases ds with
  | nil => exact hd
  | cons d' ds =>
    obtain ⟨ls, hls⟩ := exists_lexemes_eq_cons d'
    intro o b l hl hkind
    have hlast : (lexemesList (d :: d' :: ds)).getLast? = (lexemesList (d' :: ds)).getLast? := by
      rw [lexemesList_cons d]
      exact List.getLast?_append_of_ne_nil _ (by simp [lexemesList_cons, hls])
    rw [hlast] at hl
    obtain ⟨y, hy, hstop, hends⟩ := hds (o + Lexeme.sizeList d.lexemes) (slotsBehind b d) l hl hkind
    refine ⟨y, mem_standingsRow_cons.mpr (.inr hy), ?_, hends⟩
    rw [hstop, lexemesList_cons d, Lexeme.sizeList_append, Nat.add_assoc]

theorem closerAtEnd_node {kind : NodeKind} {before after : Option ParseError} {first : Draft}
    {rest : List Draft} (h : CloserAtEnd c (first :: rest)) :
    CloserAtEnd c [node kind before first rest after] := by
  have hlexemes : lexemesList [node kind before first rest after] =
      lexemesList (first :: rest) := lexemesList_singleton _
  intro o b l hl hkind
  rw [hlexemes] at hl ⊢
  obtain ⟨y, hy, hstop, hends⟩ := h o b l hl hkind
  refine ⟨y, mem_standingsRow_cons.mpr (.inl ?_), hstop, hends⟩
  rw [standings_node]
  exact List.mem_cons_of_mem _ hy

theorem closerAtEnd_own {kind : NodeKind} {before after : Option ParseError} {first : Draft}
    {rest : List Draft}
    (h : (node kind before first rest after).lastToken.kind = c.closer →
      (node kind before first rest after).tree.endsWithCloser c = true) :
    CloserAtEnd c [node kind before first rest after] := by
  intro o b l hl hkind
  obtain ⟨ls, l', hls, hlast⟩ := exists_lexemes_eq_append (node kind before first rest after)
  obtain rfl : l' = l := by
    rw [lexemesList_singleton, hls] at hl
    simpa using hl
  refine ⟨⟨o, b, node kind before first rest after⟩, mem_standingsRow_cons.mpr (.inl ?_), ?_,
    h (hlast ▸ hkind)⟩
  · rw [standings_node]
    exact List.mem_cons_self
  · rw [Standing.stop_site_eq, lexemesList_singleton]

theorem lastTokenFrom_append (t : Token) (ds es : List Draft) :
    lastTokenFrom t (ds ++ es) = lastTokenFrom (lastTokenFrom t ds) es := by
  induction ds generalizing t with
  | nil => rfl
  | cons d ds ih => exact ih d.lastToken

theorem endsWithCloser_closed {opener closer : Lexeme} (inner : List Draft)
    (ho : opener.kind = c.opener) (hc : closer.kind = c.closer) (after : Option ParseError) :
    (containerNode c opener inner (some closer) after).tree.endsWithCloser c = true := by
  rw [Tree.endsWithCloser, isNodeOf_containerNode, isUnclosed_containerNode inner ho (by simp [hc])]
  rfl

theorem closerAtEnd_closed {c' : Container} {opener closer : Lexeme} (inner : List Draft)
    (ho : opener.kind = c'.opener) (hcloser : closer.kind = c'.closer)
    (after : Option ParseError) :
    CloserAtEnd c [containerNode c' opener inner (some closer) after] := by
  refine closerAtEnd_own fun hlast => ?_
  have hkind : closer.kind = c.closer := by
    rw [lastToken, Option.map_some, Option.toList_some, lastTokenFrom_append] at hlast
    exact hlast
  obtain rfl : c' = c := closer_injective (hcloser.symm.trans hkind)
  exact endsWithCloser_closed inner ho hcloser after

theorem closerAtEnd_unclosed {c' : Container} {opener : Lexeme} {inner : List Draft}
    (ho : opener.kind = c'.opener) (h : CloserAtEnd c inner) (after : Option ParseError) :
    CloserAtEnd c [containerNode c' opener inner none after] := by
  have hopener : opener.kind ≠ c.closer := by
    rw [ho]
    cases c <;> cases c' <;> decide
  refine closerAtEnd_node (closerAtEnd_cons (closerAtEnd_leaf hopener) ?_)
  rw [Option.map_none, Option.toList_none, List.append_nil]
  cases inner with
  | nil => exact closerAtEnd_nil
  | cons d ds => exact closerAtEnd_node h

/-- However brackets pair up, a closer at the end of a row that a container around the row waits for
is that of some node of the row. -/
theorem closerAtEnd_of_resolved {ds : List Draft} (h : Resolved e behind ds) (hc : c ∈ e) :
    CloserAtEnd c ds := by
  induction h with
  | nil => exact closerAtEnd_nil
  | token hl hds ih =>
    refine closerAtEnd_cons (closerAtEnd_leaf ?_) (ih hc)
    rintro hkind
    rw [hkind, closesAny_eq_false_iff] at hl
    exact hl hc
  | tooDeep ho hds ih =>
    refine closerAtEnd_cons (closerAtEnd_own fun hlast => ?_) (ih hc)
    rw [Tree.endsWithCloser, isTooDeep_node _ _ _ ho, lastLeaf?_tree, leafOf, hlast]
    simp
  | closed ho hcloser hinner hds ihinner ih =>
    exact closerAtEnd_cons (closerAtEnd_closed _ ho hcloser _) (ih hc)
  | unclosed ho hnext hinner hds ihinner ih =>
    exact closerAtEnd_cons (closerAtEnd_unclosed ho (ihinner (List.mem_cons_of_mem _ hc)) _) (ih hc)
  | group hk hparts hds ihparts ih => exact closerAtEnd_cons (closerAtEnd_node (ihparts hc)) (ih hc)

theorem closerAtEnd_container {d : Draft} (h : Resolved e behind [d])
    (hd : d.tree.isNodeOf c.nodeKind = true) : CloserAtEnd c [d] := by
  cases h with
  | token => exact absurd hd Bool.false_ne_true
  | tooDeep => cases c <;> exact absurd hd Bool.false_ne_true
  | closed ho hcloser => exact closerAtEnd_closed _ ho hcloser _
  | @unclosed _ _ c' opener inner after _ ho hnext hinner =>
    obtain rfl : c = c' := by
      by_contra hne
      rw [isNodeOf_other hne (isNodeOf_containerNode c' opener inner none after)] at hd
      exact absurd hd Bool.false_ne_true
    exact closerAtEnd_unclosed ho (closerAtEnd_of_resolved hinner List.mem_cons_self) _
  | group hk =>
    rw [tree, isNodeOf_of_not_isContainer hk] at hd
    exact absurd hd Bool.false_ne_true

/-! ## Nodes whose brackets are paired up -/

/-- Whether the brackets in a draft are paired up, whatever is around it. -/
def IsResolved (d : Draft) : Prop := ∃ e behind, Resolved e behind [d]

theorem everyNode_of_resolved {ds : List Draft} (h : Resolved e behind ds) :
    EveryNode IsResolved ds := by
  induction h with
  | nil => exact everyNode_nil
  | token hl hds ih => exact everyNode_cons (everyNode_leaf _) ih
  | @tooDeep _ _ _ opener _ _ run ho hds ih =>
    exact everyNode_cons (everyNode_node ⟨_, _, (resolved_cons.mp (.tooDeep ho hds)).1⟩
      (everyNode_map_leaf (opener :: run))) ih
  | closed ho hc hinner hds ihinner ih =>
    refine everyNode_cons (everyNode_containerNode
      ⟨_, _, (resolved_cons.mp (.closed ho hc hinner hds)).1⟩ ?_ ihinner) ih
    rintro d ds' rfl
    exact ⟨_, _, .group (isContainer_listKind _) hinner .nil⟩
  | unclosed ho hnext hinner hds ihinner ih =>
    refine everyNode_cons (everyNode_containerNode
      ⟨_, _, (resolved_cons.mp (.unclosed ho hnext hinner hds)).1⟩ ?_ ihinner) ih
    rintro d ds' rfl
    exact ⟨_, _, .group (isContainer_listKind _) hinner .nil⟩
  | group hk hparts hds ihparts ih =>
    exact everyNode_cons
      (everyNode_node ⟨_, _, (resolved_cons.mp (.group hk hparts hds)).1⟩ ihparts) ih

theorem resolved_map_leaf (behind ls : List Lexeme) : Resolved [] behind (ls.map leaf) := by
  induction ls with
  | nil => exact .nil
  | cons l ls ih => exact .token rfl ih

theorem resolved_trailing (ls : List Lexeme) : Resolved [] [] (trailing ls) := by
  cases ls with
  | nil => exact .nil
  | cons l ls => exact .group rfl (resolved_map_leaf _ (l :: ls)) .nil

end

end Draft

/-! ## Closers at the end of a node -/

open Draft

theorem Tree.lastLeaf?_of_endsWithCloser {c : Container} {t : Tree}
    (h : t.endsWithCloser c = true) : t.lastLeaf?.any (·.1 == .token c.closer) = true := by
  rcases Bool.or_eq_true_iff.mp h with hclosed | hdeep
  · obtain ⟨hnode, hclosed⟩ := Bool.and_eq_true_iff.mp hclosed
    rw [Tree.isUnclosed, hnode, Bool.true_and, Bool.not_not] at hclosed
    obtain ⟨u, hu, hcloser⟩ := Option.any_eq_true .. |>.mp hclosed
    obtain ⟨text, rfl⟩ := exists_eq_leaf_of_isTokenOf hcloser
    cases t with
    | leaf => exact absurd hnode Bool.false_ne_true
    | node label children =>
      obtain ⟨front, rfl⟩ := List.getLast?_eq_some_iff.mp hu
      rw [Tree.lastLeaf?, lastLeafList?_append]
      exact beq_self_eq_true _
  · exact (Bool.and_eq_true_iff.mp hdeep).2

theorem View.endsWith_eq {kind : NodeKind} {s : Site} {v : View kind} (h : s.view? kind = some v)
    (token : TokenKind) : v.endsWith token = s.tree.lastLeaf?.any (·.1 == .token token) := by
  rw [View.endsWith, Site.view?_eq_some h, View.site]
  cases (Tree.node (.node kind) v.children).lastLeaf? <;> rfl

theorem lastToken_eq {x y : Standing} (hx : x.IsPlaced)
    (hy : y ∈ standings x.offset x.before x.draft) (hstop : y.site.stop = x.site.stop) :
    y.draft.lastToken = x.draft.lastToken := by
  obtain ⟨front, back, hlexemes, hoffset⟩ := among_of_mem_standings _ _ _ y hy
  rw [Standing.stop_site_eq, Standing.stop_site_eq, hoffset, hlexemes, Lexeme.sizeList_append,
    Lexeme.sizeList_append] at hstop
  rw [Standing.IsPlaced, hlexemes] at hx
  cases back with
  | nil =>
    obtain ⟨ls, l, hls, hl⟩ := exists_lexemes_eq_append x.draft
    obtain ⟨ms, m, hms, hm⟩ := exists_lexemes_eq_append y.draft
    rw [hls, hms, List.append_nil, ← List.append_assoc] at hlexemes
    rw [← hl, ← hm, (List.append_singleton_inj.mp hlexemes).2]
  | cons l back =>
    -- something behind it would make the node longer
    obtain ⟨hle, hlt, hend, -⟩ := placed_cons (placed_append.mp hx).2
    rw [Lexeme.sizeList_cons] at hstop
    omega

/-- A container ends with a closer of its sort if and only if something that ends where it does has
this closer for its own. -/
theorem endsWith_iff {x : Standing} {c : Container} (hx : x.IsPlaced) (hr : IsResolved x.draft)
    {v : View c.nodeKind} (hv : x.site.view? c.nodeKind = some v) :
    v.endsWith c.closer = true ↔ ∃ t ∈ x.site.descendants, t.stop = x.site.stop ∧
      t.tree.endsWithCloser c = true := by
  rw [View.endsWith_eq hv, Standing.site, tree_siteOf, ← map_site_standings]
  constructor
  · intro hlast
    obtain ⟨e, behind, hr⟩ := hr
    obtain ⟨ls, l, hls, hl⟩ := exists_lexemes_eq_append x.draft
    have hkind : l.kind = c.closer := by
      rw [lastLeaf?_tree, ← hl] at hlast
      exact Label.token.inj (beq_iff_eq.mp hlast)
    have hnode : x.draft.tree.isNodeOf c.nodeKind = true := by
      have htree : x.draft.tree = .node (.node c.nodeKind) v.children := Site.view?_eq_some hv
      rw [htree]
      exact beq_self_eq_true _
    obtain ⟨y, hy, hstop, hends⟩ := closerAtEnd_container hr hnode x.offset x.before l
      (by rw [lexemesList_singleton, hls]; simp) hkind
    rw [standingsRow_singleton] at hy
    rw [lexemesList_singleton] at hstop
    exact ⟨y.site, List.mem_map_of_mem hy, by rw [hstop, stop_siteOf], hends⟩
  · rintro ⟨t, ht, hstop, hends⟩
    obtain ⟨y, hy, rfl⟩ := List.mem_map.mp ht
    have hlast := Tree.lastLeaf?_of_endsWithCloser hends
    rw [Standing.site, tree_siteOf, lastLeaf?_tree, lastToken_eq hx hy hstop] at hlast
    rw [lastLeaf?_tree]
    exact hlast

/-! ## Documents -/

namespace Parse

theorem isResolved_of_mem_standings {source : Text} {x : Standing} (h : x ∈ standings source) :
    IsResolved x.draft := by
  let input := Lexemes.ofTokens (tokenize source) source.size
  have hdrafts : EveryNode IsResolved (documentDrafts input.eof input.lexemes) := by
    rcases resolved_documentDrafts input.eof input.lexemes with ⟨d, rest, hdrafts, hd⟩ | hdrafts
    · rw [hdrafts]
      exact everyNode_cons (everyNode_of_resolved hd)
        (everyNode_of_resolved (resolved_trailing rest))
    · rw [hdrafts]
      exact everyNode_of_resolved (resolved_trailing _)
  exact hdrafts 0 [] x h

end Parse

/-- The nodes of a document and the errors noted at each of them. A node notes a missing closer if
and only if it is a container whose last part is not its closer; it does so once, where it ends. But
the view of a container says that it is closed if and only if something in it that ends where it
does, or the container itself, has a closer of its sort. -/
theorem isClosed_iff (source : Text) :
    (parse source).sites =
      Site.root (parse source).tree :: (Parse.standings source).map Standing.site ∧
    ((Parse.standings source).flatMap (·.draft.notes)).Perm (parse source).errors ∧
    ∀ x ∈ Parse.standings source,
      (∀ c, closerRanges c x.draft.notes =
        if x.site.tree.isUnclosed c then [.empty x.site.stop] else []) ∧
      (∀ v, x.site.view? .object = some v → (View.Object.isClosed v = true ↔
        ∃ t ∈ x.site.descendants, t.stop = x.site.stop ∧ t.tree.endsWithCloser .object = true)) ∧
      ∀ v, x.site.view? .array = some v → (View.Array.isClosed v = true ↔
        ∃ t ∈ x.site.descendants, t.stop = x.site.stop ∧ t.tree.endsWithCloser .array = true) := by
  refine ⟨Parse.sites_parse source, Parse.perm_errors_parse source, ?_⟩
  intro x hx
  have hp := Parse.isPlaced_of_mem_standings hx
  have hr := Parse.isResolved_of_mem_standings hx
  refine ⟨fun c => ?_, fun v hv => ?_, fun v hv => ?_⟩
  · rw [closerRanges_notes (Parse.formed_of_mem_standings hx) hp, Standing.stop_site_eq]
    rfl
  · exact endsWith_iff (c := .object) hp hr hv
  · exact endsWith_iff (c := .array) hp hr hv

/-- In `[[]` the outer array has no closer, and notes that at the end, but its view ends with the
closer of the inner one. -/
theorem isClosed_of_inner : ∃ x ∈ Parse.standings ['[', '[', ']'],
    closerRanges .array x.draft.notes = [.empty 3] ∧
    ∃ v, x.site.view? .array = some v ∧ View.Array.isClosed v = true := by
  obtain ⟨-, -, hnodes⟩ := isClosed_iff ['[', '[', ']']
  let x := (Parse.standings ['[', '[', ']']).get ⟨1, by decide +kernel⟩
  have hnode : x.site.tree.isNodeOf .array = true := by decide +kernel
  obtain ⟨v, hv⟩ := Option.isSome_iff_exists.mp (Site.isSome_view? hnode)
  obtain ⟨hranges, -, harray⟩ := hnodes x (List.get_mem ..)
  refine ⟨x, List.get_mem .., ?_, v, hv, (harray v hv).mpr ?_⟩
  · rw [hranges, if_pos (by decide +kernel)]
    decide +kernel
  · exact ⟨x.site.descendants.get ⟨3, by decide +kernel⟩, List.get_mem .., by decide +kernel,
      by decide +kernel⟩

/-- So the view of a container does not tell whether the last part of it is its closer. -/
theorem not_isClosed_iff : ¬ ∀ s ∈ (parse ['[', '[', ']']).sites, ∀ v, s.view? .array = some v →
    (View.Array.isClosed v = true ↔ s.tree.isUnclosed .array = false) := by
  intro h
  let s := (parse ['[', '[', ']']).sites.get ⟨2, by decide +kernel⟩
  have hnode : s.tree.isNodeOf .array = true := by decide +kernel
  obtain ⟨v, hv⟩ := Option.isSome_iff_exists.mp (Site.isSome_view? hnode)
  have hview : View.Array.isClosed v = true := by
    rw [View.Array.isClosed, View.endsWith_eq hv]
    decide +kernel
  have hclosed := (h s (List.get_mem ..) v hv).mp hview
  exact absurd hclosed (by decide +kernel)

end Maml
