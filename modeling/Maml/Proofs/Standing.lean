import Maml.Proofs.Defects

/-! The nodes of drafts in their places.

A `Standing` is a node of a draft together with where it stands, as a `Site` is a
node of a tree.

1. The nodes of a row stand where the nodes of its trees do (`map_site_standingsRow`),
   and the mistakes in the row are those noted at its nodes (`perm_errorsList`).
2. The lexemes of a node are among those of its row, where they stand
   (`among_of_mem_standingsRow`), so a node of placed lexemes is placed.
3. What holds of every node does not depend on where the row stands (`everyNode_iff`) and is
   proved node by node (`everyNode_cons`, `everyNode_node`). So every node that reading can
   make has one of the forms that `Formed` lists (`everyNode_of_shaped`).
4. So the nodes of a document's tree are the document and those of its `Parse.standings`,
   each of one of these forms, and their notes are the errors (`Parse.sites_parse`,
   `Parse.perm_errors_parse`). -/
namespace Maml

/-- A draft in its place; the trivia in front of it comes behind the offset. -/
structure Standing where
  offset : Nat
  /-- The slots in front of the trivia, nearest first. -/
  before : List (Option Text)
  draft : Draft

namespace Draft

def notes : Draft → List ParseError
  | leaf _ => []
  | node _ before _ _ after => before.toList ++ after.toList

@[simp] theorem notes_plain (kind : NodeKind) (first : Draft) (rest : List Draft) :
    (plain kind first rest).notes = [] := rfl

end Draft

namespace Standing

open Draft

def site (x : Standing) : Site := siteOf x.offset x.before x.draft

/-- Whether a draft stands where its lexemes follow one another. -/
def IsPlaced (x : Standing) : Prop := Placed x.offset x.draft.lexemes

theorem offset_site {x : Standing} (h : x.IsPlaced) :
    x.site.offset = x.draft.firstToken.span.start := by
  rw [span_firstToken h]
  rfl

/-- Whether the lexemes of a draft are among those from an offset on, where they stand. -/
def Among (x : Standing) (o : Nat) (ls : List Lexeme) : Prop :=
  ∃ front back, ls = front ++ x.draft.lexemes ++ back ∧ x.offset = o + Lexeme.sizeList front

theorem Among.append_right {x : Standing} {o : Nat} {ls : List Lexeme} (h : x.Among o ls)
    (ms : List Lexeme) : x.Among o (ls ++ ms) := by
  obtain ⟨front, back, rfl, ho⟩ := h
  exact ⟨front, back ++ ms, by simp, ho⟩

theorem Among.append_left {x : Standing} {o : Nat} {ls ms : List Lexeme}
    (h : x.Among (o + Lexeme.sizeList ms) ls) : x.Among o (ms ++ ls) := by
  obtain ⟨front, back, rfl, ho⟩ := h
  exact ⟨ms ++ front, back, by simp, by rw [ho, Lexeme.sizeList_append]; omega⟩

end Standing

namespace Draft

/-! ## The nodes of a row -/

mutual

/-- The nodes at and below a draft in their places, parents first. -/
def standings (o : Nat) (b : List (Option Text)) : Draft → List Standing
  | leaf _ => []
  | node kind before first rest after =>
    ⟨o, b, node kind before first rest after⟩ :: (standings o b first ++
      standingsRow (o + Lexeme.sizeList first.lexemes) (slotsBehind b first) rest)

def standingsRow (o : Nat) (b : List (Option Text)) : List Draft → List Standing
  | [] => []
  | d :: ds =>
    standings o b d ++ standingsRow (o + Lexeme.sizeList d.lexemes) (slotsBehind b d) ds

end

theorem mem_standingsRow_cons {x : Standing} {o : Nat} {b : List (Option Text)} {d : Draft}
    {ds : List Draft} : x ∈ standingsRow o b (d :: ds) ↔ x ∈ standings o b d ∨
      x ∈ standingsRow (o + Lexeme.sizeList d.lexemes) (slotsBehind b d) ds :=
  List.mem_append

theorem standings_node (o : Nat) (b : List (Option Text)) (kind : NodeKind)
    (before after : Option ParseError) (first : Draft) (rest : List Draft) :
    standings o b (node kind before first rest after) =
      ⟨o, b, node kind before first rest after⟩ :: standingsRow o b (first :: rest) := rfl

theorem standingsRow_singleton (o : Nat) (b : List (Option Text)) (d : Draft) :
    standingsRow o b [d] = standings o b d := List.append_nil _

theorem standingsRow_append (o : Nat) (b : List (Option Text)) (ds es : List Draft) :
    standingsRow o b (ds ++ es) = standingsRow o b ds ++
      standingsRow (o + Lexeme.sizeList (lexemesList ds)) (ds.foldl slotsBehind b) es := by
  induction ds generalizing o b with
  | nil => rfl
  | cons d ds ih =>
    rw [List.cons_append, standingsRow, ih, standingsRow, lexemesList_cons,
      Lexeme.sizeList_append, List.append_assoc, Nat.add_assoc]
    rfl

mutual

theorem map_site_standings (o : Nat) (b : List (Option Text)) : ∀ d : Draft,
    (standings o b d).map Standing.site = (siteOf o b d).descendants
  | leaf l => rfl
  | node kind before first rest after => by
    rw [descendants_siteOf_node, nodesOfRow_trees_cons, standings, List.map_cons, List.map_append,
      map_site_standings, map_site_standingsRow]
    rfl

/-- The nodes of a row of drafts stand where those of its trees do. -/
theorem map_site_standingsRow (o : Nat) (b : List (Option Text)) : ∀ ds : List Draft,
    (standingsRow o b ds).map Standing.site = Site.nodesOfRow o b (trees ds)
  | [] => rfl
  | d :: ds => by
    rw [nodesOfRow_trees_cons, standingsRow, List.map_append, map_site_standings,
      map_site_standingsRow]

end

mutual

theorem perm_errors (o : Nat) (b : List (Option Text)) : ∀ d : Draft,
    ((standings o b d).flatMap (·.draft.notes)).Perm d.errors
  | leaf l => List.Perm.refl _
  | node kind before first rest after => by
    rw [standings, List.flatMap_cons, List.flatMap_append, errors_node, notes, List.append_assoc,
      List.append_assoc, List.append_assoc]
    refine List.Perm.append_left _ ?_
    -- the last note comes behind the parts in the order of reading
    refine List.perm_append_comm.trans ?_
    rw [List.append_assoc]
    exact (perm_errors o b first).append ((perm_errorsList _ _ rest).append_right _)

/-- The mistakes in a row of drafts are those noted at its nodes. -/
theorem perm_errorsList (o : Nat) (b : List (Option Text)) : ∀ ds : List Draft,
    ((standingsRow o b ds).flatMap (·.draft.notes)).Perm (errorsList ds)
  | [] => List.Perm.refl _
  | d :: ds => by
    rw [standingsRow, List.flatMap_append]
    exact (perm_errors o b d).append (perm_errorsList _ _ ds)

end

mutual

theorem among_of_mem_standings (o : Nat) (b : List (Option Text)) : ∀ d : Draft,
    ∀ x ∈ standings o b d, x.Among o d.lexemes
  | leaf l => by simp [standings]
  | node kind before first rest after => by
    intro x hx
    rcases List.mem_cons.mp hx with rfl | hx
    · exact ⟨[], [], by simp, rfl⟩
    rcases List.mem_append.mp hx with hx | hx
    · exact (among_of_mem_standings o b first x hx).append_right _
    · exact (among_of_mem_standingsRow _ _ rest x hx).append_left

/-- The lexemes of a node are among those of its row. -/
theorem among_of_mem_standingsRow (o : Nat) (b : List (Option Text)) : ∀ ds : List Draft,
    ∀ x ∈ standingsRow o b ds, x.Among o (lexemesList ds)
  | [] => by simp [standingsRow]
  | d :: ds => by
    intro x hx
    rcases mem_standingsRow_cons.mp hx with hx | hx
    · exact (among_of_mem_standings o b d x hx).append_right _
    · exact (among_of_mem_standingsRow _ _ ds x hx).append_left

end

theorem isPlaced_of_mem_standingsRow {o : Nat} {b : List (Option Text)} {x : Standing}
    {ds : List Draft} (hp : Placed o (lexemesList ds)) (h : x ∈ standingsRow o b ds) :
    x.IsPlaced := by
  obtain ⟨front, back, hlexemes, ho⟩ := among_of_mem_standingsRow o b ds x h
  rw [hlexemes] at hp
  rw [Standing.IsPlaced, ho]
  exact (placed_append.mp (placed_append.mp hp).1).2

/-! ## What holds of every node -/

mutual

theorem map_draft_standings (o o' : Nat) (b b' : List (Option Text)) : ∀ d : Draft,
    (standings o b d).map Standing.draft = (standings o' b' d).map Standing.draft
  | leaf l => rfl
  | node kind before first rest after => by
    rw [standings, standings, List.map_cons, List.map_cons, List.map_append, List.map_append,
      map_draft_standings o o' b b' first, map_draft_standingsRow _ _ _ _ rest]

theorem map_draft_standingsRow (o o' : Nat) (b b' : List (Option Text)) : ∀ ds : List Draft,
    (standingsRow o b ds).map Standing.draft = (standingsRow o' b' ds).map Standing.draft
  | [] => rfl
  | d :: ds => by
    rw [standingsRow, standingsRow, List.map_append, List.map_append,
      map_draft_standings o o' b b' d, map_draft_standingsRow _ _ _ _ ds]

end

/-- Whether something holds of all nodes of a row, wherever it stands. -/
def EveryNode (P : Draft → Prop) (ds : List Draft) : Prop :=
  ∀ o b, ∀ x ∈ standingsRow o b ds, P x.draft

section
variable {P : Draft → Prop}

theorem everyNode_nil : EveryNode P [] := by
  intro o b x hx
  simp [standingsRow] at hx

theorem everyNode_leaf (l : Lexeme) : EveryNode P [leaf l] := by
  intro o b x hx
  simp [standingsRow, standings] at hx

theorem everyNode_cons {d : Draft} {ds : List Draft} (hd : EveryNode P [d])
    (hds : EveryNode P ds) : EveryNode P (d :: ds) := by
  intro o b x hx
  rcases mem_standingsRow_cons.mp hx with hx | hx
  · exact hd o b x (mem_standingsRow_cons.mpr (.inl hx))
  · exact hds _ _ x hx

theorem everyNode_map_leaf (ls : List Lexeme) : EveryNode P (ls.map leaf) := by
  induction ls with
  | nil => exact everyNode_nil
  | cons l ls ih => exact everyNode_cons (everyNode_leaf l) ih

theorem everyNode_node {kind : NodeKind} {before after : Option ParseError} {first : Draft}
    {rest : List Draft} (hnode : P (node kind before first rest after))
    (hparts : EveryNode P (first :: rest)) : EveryNode P [node kind before first rest after] := by
  intro o b x hx
  rw [standingsRow_singleton, standings_node] at hx
  rcases List.mem_cons.mp hx with rfl | hx
  · exact hnode
  · exact hparts o b x hx

/-- What holds of all nodes of a row at one place holds of them everywhere. -/
theorem everyNode_iff {ds : List Draft} (o : Nat) (b : List (Option Text)) :
    EveryNode P ds ↔ ∀ x ∈ standingsRow o b ds, P x.draft := by
  refine ⟨fun h => h o b, fun h o' b' x hx => ?_⟩
  have hdraft : x.draft ∈ (standingsRow o b ds).map Standing.draft := by
    rw [map_draft_standingsRow o o' b b']
    exact List.mem_map_of_mem hx
  obtain ⟨y, hy, heq⟩ := List.mem_map.mp hdraft
  exact heq ▸ h y hy

theorem everyNode_cons_iff {d : Draft} {ds : List Draft} :
    EveryNode P (d :: ds) ↔ EveryNode P [d] ∧ EveryNode P ds := by
  refine ⟨fun h => ⟨?_, ?_⟩, fun h => everyNode_cons h.1 h.2⟩
  · rw [everyNode_iff 0 [], standingsRow_singleton]
    exact fun x hx => h 0 [] x (mem_standingsRow_cons.mpr (.inl hx))
  · rw [everyNode_iff (0 + Lexeme.sizeList d.lexemes) (slotsBehind [] d)]
    exact fun x hx => h 0 [] x (mem_standingsRow_cons.mpr (.inr hx))

theorem everyNode_append_iff {ds es : List Draft} :
    EveryNode P (ds ++ es) ↔ EveryNode P ds ∧ EveryNode P es := by
  induction ds with
  | nil => simp [everyNode_nil]
  | cons d ds ih => rw [List.cons_append, everyNode_cons_iff, ih, @everyNode_cons_iff P d ds,
      and_assoc]

theorem everyNode_node_iff {kind : NodeKind} {before after : Option ParseError} {first : Draft}
    {rest : List Draft} : EveryNode P [node kind before first rest after] ↔
      P (node kind before first rest after) ∧ EveryNode P (first :: rest) := by
  refine ⟨fun h => ⟨?_, ?_⟩, fun h => everyNode_node h.1 h.2⟩
  · exact h 0 [] ⟨0, [], _⟩ (mem_standingsRow_cons.mpr (.inl List.mem_cons_self))
  · rw [everyNode_iff 0 []]
    intro x hx
    exact h 0 [] x (mem_standingsRow_cons.mpr (.inl (List.mem_cons_of_mem _ hx)))

theorem everyNode_containerNode {c : Container} {opener : Lexeme} {ds : List Draft}
    {closer : Option Lexeme} {after : Option ParseError}
    (hnode : P (containerNode c opener ds closer after))
    (hlist : ∀ d ds', ds = d :: ds' → P (plain c.listKind d ds')) (hds : EveryNode P ds) :
    EveryNode P [containerNode c opener ds closer after] := by
  have hcloser : EveryNode P (closer.map leaf).toList := by
    cases closer with
    | none => exact everyNode_nil
    | some l => exact everyNode_leaf l
  refine everyNode_node hnode (everyNode_cons (everyNode_leaf opener) ?_)
  cases ds with
  | nil => exact hcloser
  | cons d ds => exact everyNode_cons (everyNode_node (hlist d ds rfl) hds) hcloser

end

/-! ## The forms of nodes -/

/-- The nodes that reading can make. -/
inductive Formed : Draft → Prop where
  | scalar {l} (hl : l.kind.isScalar = true) : Formed (plain .value (leaf l) [])
  | value {kind before first rest after} (hk : kind ∈ [.object, .array, .invalidValue]) :
      Formed (plain .value (node kind before first rest after) [])
  | invalid {l} (hl : l.kind.startsValue = false) :
      Formed (node .invalidValue (unexpected .value l.token l.token.span) (leaf l) [] none)
  | signed {plus number} (h : isSignedNumber plus.token number.token = true) :
      Formed (node .invalidValue
        (unexpected .value plus.token (plus.token.span.cover number.token.span))
        (leaf plus) [leaf number] none)
  | tooDeep {opener} {run : List Lexeme} (ho : opener.kind.isOpener = true) :
      Formed (node .invalidValue none (leaf opener) (run.map leaf)
        (unexpected .nestingLimit opener.token
          ⟨opener.token.span.start, (lastTokenFrom opener.token (run.map leaf)).span.stop⟩))
  | closed {e c opener ds closer} (ho : opener.kind = c.opener) (hc : closer.kind = c.closer)
      (hds : Shaped (c :: e) (.list c true) ds) :
      Formed (containerNode c opener ds (some closer) none)
  | unclosed {e c opener ds next} (ho : opener.kind = c.opener)
      (hds : Shaped (c :: e) (.list c true) ds) :
      Formed (containerNode c opener ds none
        (missing c.expectedCloser (lastTokenFrom opener.token (wrap c.listKind ds)) next))
  | list {e} {c : Container} {d ds} (hds : Shaped e (.list c true) (d :: ds)) :
      Formed (plain c.listKind d ds)
  | stray {c : Container} {l} (hl : l.kind = .comma) :
      Formed (strayComma c.expectedElement (leaf l))
  | key {l} (hk : isKey l.kind = true) : Formed (plain .key (leaf l) [])
  | keyValue {e key colon note value} (hc : colon.kind = .colon)
      (hv : Shaped e (.behindColon colon note) value) :
      Formed (node .keyValue (keyNote key) (plain .key (leaf key) []) (leaf colon :: value) note)
  | incomplete {key next} : Formed (incomplete key next)
  | skipped {e first rest} (hs : Shaped e .skipped (first :: rest)) :
      Formed (plain .error first rest)
  | literalKey {e key colon note value} (hv : Shaped e (.behindColon colon note) value) :
      Formed (node .error (unexpected .key key.token key.token.span) (leaf key)
        (leaf colon :: value) note)
  | junk {e first rest} (hs : Shaped e .skipped (first :: rest)) : Formed (junk first rest)
  | trailing {l ls} : Formed (trailingError l ls)

/-- A node of a container's kind is a container, with its list between its brackets. -/
theorem exists_containerNode {d : Draft} {c : Container} (h : Formed d)
    (hd : d.tree.isNodeOf c.nodeKind = true) : ∃ e opener ds closer after,
      d = containerNode c opener ds closer after ∧ opener.kind = c.opener ∧
      (∀ l ∈ closer, l.kind = c.closer) ∧ Shaped (c :: e) (.list c true) ds ∧
      (if closer.isSome then after = none
        else ∃ next, after = missing c.expectedCloser
          (lastTokenFrom opener.token (wrap c.listKind ds)) next) := by
  cases h with
  | @closed e c' opener ds closer ho hc hds =>
    obtain rfl : c' = c := by
      cases c' <;> cases c <;> first | rfl | exact absurd hd Bool.false_ne_true
    exact ⟨e, opener, ds, some closer, none, rfl, ho, by simp [hc], hds, rfl⟩
  | @unclosed e c' opener ds next ho hds =>
    obtain rfl : c' = c := by
      cases c' <;> cases c <;> first | rfl | exact absurd hd Bool.false_ne_true
    exact ⟨e, opener, ds, none, _, rfl, ho, by simp, hds, next, rfl⟩
  | @list e c' =>
    cases c' <;> cases c <;> exact absurd hd Bool.false_ne_true
  | _ => cases c <;> exact absurd hd Bool.false_ne_true

theorem everyNode_single {l : Lexeme} (hl : l.kind.startsValue = false) :
    EveryNode Formed [single l] := by
  unfold single
  split
  · rename_i h
    exact everyNode_node (.scalar h) (everyNode_leaf l)
  · exact everyNode_node (.value (by simp)) (everyNode_node (.invalid hl) (everyNode_leaf l))

theorem mem_valueKinds (c : Container) : c.nodeKind ∈ [.object, .array, .invalidValue] := by
  cases c <;> simp [Container.nodeKind]

theorem everyNode_container {e : List Container} {c : Container} {opener : Lexeme}
    {ds : List Draft} {closer : Option Lexeme} (next : Token) (ho : opener.kind = c.opener)
    (hc : ∀ l ∈ closer, l.kind = c.closer) (hs : Shaped (c :: e) (.list c true) ds)
    (hds : EveryNode Formed ds) : EveryNode Formed [container c opener ds closer next] := by
  have hlist : ∀ d ds', ds = d :: ds' → Formed (plain c.listKind d ds') := by
    rintro d ds' rfl
    exact .list hs
  have hvalue {after : Option ParseError} :
      Formed (plain .value (containerNode c opener ds closer after) []) :=
    .value (mem_valueKinds c)
  cases closer with
  | some l =>
    exact everyNode_node hvalue (everyNode_containerNode (.closed ho (hc l rfl) hs) hlist hds)
  | none =>
    have heq : container c opener ds none next = plain .value (containerNode c opener ds none
        (missing c.expectedCloser (lastTokenFrom opener.token (wrap c.listKind ds)) next)) [] := by
      simp [container, containerNode]
    rw [heq]
    exact everyNode_node hvalue (everyNode_containerNode (.unclosed ho hs) hlist hds)

/-- Whatever is read, its nodes have the forms. -/
theorem everyNode_of_shaped {e : List Container} {place : Place} {ds : List Draft}
    (h : Shaped e place ds) : EveryNode Formed ds := by
  have hkey {key : Lexeme} (hk : isKey key.kind = true) :
      EveryNode Formed [plain .key (leaf key) []] :=
    everyNode_node (.key hk) (everyNode_leaf key)
  induction h with
  | scalar hl => exact everyNode_node (.scalar hl) (everyNode_leaf _)
  | invalid hl => exact everyNode_single hl
  | @signed e plus number h =>
    exact everyNode_node (.value (by simp))
      (everyNode_node (.signed h) (everyNode_map_leaf [plus, number]))
  | @tooDeep e opener ls ho he =>
    exact everyNode_node (.value (by simp))
      (everyNode_node (.tooDeep ho) (everyNode_map_leaf (opener :: (balancedRun 1 ls).1)))
  | container next ho he hc hds ih => exact everyNode_container next ho hc hds ih
  | nil => exact everyNode_nil
  | comma hl hds ih => exact everyNode_cons (everyNode_leaf _) ih
  | stray hl hds ih => exact everyNode_cons (everyNode_node (.stray hl) (everyNode_leaf _)) ih
  | item hd hds ihd ih => exact everyNode_cons ihd ih
  | keyValue hk hc hv hds ihv ih =>
    exact everyNode_cons (everyNode_node (.keyValue hc hv)
      (everyNode_cons (hkey hk) (everyNode_cons (everyNode_leaf _) ihv))) ih
  | incomplete hk hne hds ih =>
    exact everyNode_cons (everyNode_node .incomplete (hkey hk)) ih
  | incompleteSkipped hk hs hds ihs ih =>
    exact everyNode_cons (everyNode_node .incomplete (hkey hk))
      (everyNode_cons (everyNode_node (.skipped hs) ihs) ih)
  | literalKey hk hc hv hds ihv ih =>
    exact everyNode_cons (everyNode_node (.literalKey hv)
      (everyNode_cons (everyNode_leaf _) (everyNode_cons (everyNode_leaf _) ihv))) ih
  | junk hs hq hds ihs ih => exact everyNode_cons (everyNode_node (.junk hs) ihs) ih
  | missing => exact everyNode_nil
  | present hd ih => exact ih
  | skippedNil => exact everyNode_nil
  | skippedToken hl ho hds ih => exact everyNode_cons (everyNode_leaf _) ih
  | skippedValue hd hds ihd ih => exact everyNode_cons ihd ih

theorem everyNode_trailing (ls : List Lexeme) : EveryNode Formed (trailing ls) := by
  cases ls with
  | nil => exact everyNode_nil
  | cons l ls => exact everyNode_node .trailing (everyNode_map_leaf (l :: ls))

theorem everyNode_documentDrafts (eof : Token) (ls : List Lexeme) :
    EveryNode Formed (documentDrafts eof ls) := by
  rcases documentDrafts_cases eof ls with ⟨d, rest, hdrafts, hd⟩ | hdrafts
  · rw [hdrafts]
    exact everyNode_cons (everyNode_of_shaped hd) (everyNode_trailing rest)
  · rw [hdrafts]
    exact everyNode_trailing ls

end Draft

/-! ## Documents -/

open Draft

namespace Parse

/-- The nodes of a document in their places, but for the document itself. -/
def standings (source : Text) : List Standing :=
  let input := Lexemes.ofTokens (tokenize source) source.size
  standingsRow 0 [] (documentDrafts input.eof input.lexemes)

theorem formed_of_mem_standings {source : Text} {x : Standing} (h : x ∈ standings source) :
    Formed x.draft :=
  everyNode_documentDrafts _ _ 0 [] x h

theorem isPlaced_of_mem_standings {source : Text} {x : Standing} (h : x ∈ standings source) :
    x.IsPlaced := by
  refine isPlaced_of_mem_standingsRow ?_ h
  rw [lexemes_documentDrafts]
  exact placed_tokenize source

/-- The nodes of a document's tree are the document and those of its drafts. -/
theorem sites_parse (source : Text) :
    (parse source).sites =
      Site.root (parse source).tree :: (standings source).map Standing.site := by
  rw [standings, map_site_standingsRow]
  exact descendants_root_ofLexemes _

theorem descendants_root (source : Text) : (Site.root (parse source).tree).descendants =
    Site.root (parse source).tree :: (standings source).map Standing.site :=
  sites_parse source

/-- The errors of a document are those noted at its nodes. -/
theorem perm_errors_parse (source : Text) :
    ((standings source).flatMap (·.draft.notes)).Perm (parse source).errors :=
  perm_errorsList 0 [] _

end Parse

end Maml
