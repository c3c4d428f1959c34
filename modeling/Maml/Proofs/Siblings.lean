import Maml.Proofs.Silence
import Maml.Proofs.Spots
import Maml.Proofs.Standing

/-! Siblings on one line, in drafts.

`Draft.siblings` finds in a row of drafts what `Validation.neighbours` finds in its trees.

1. On the way through trivia only line breaks are seen (`neighbours_trivia`), so the two
   agree on gaps and commas (`map_neighbours`).
2. So the missing commas of a list, and the lines to be broken in it, are told by the
   siblings in its row (`missingCommas_viewOf`). -/
namespace Maml

open Validation

namespace Draft

/-- Two drafts of a row that stand on one line, and the comma between them if there is one. -/
structure Siblings where
  first : Draft
  comma : Option Lexeme
  next : Draft

namespace Siblings

def gap (p : Siblings) : Span := ⟨p.first.lastToken.span.stop, p.next.firstToken.span.start⟩

def commaStop (p : Siblings) : Option Nat := p.comma.map (·.token.span.stop)

/-- What is between two siblings, behind the comma if there is one. -/
def blanks (p : Siblings) : Span := ⟨p.commaStop.getD p.gap.start, p.gap.stop⟩

end Siblings

def isNodeOf (kind : NodeKind) : Draft → Bool
  | node k .. => k == kind
  | leaf _ => false

/-- The drafts of a kind that stand on one line with the one in front of them. What was seen behind
that one is the last comma, and whether there was a line break; a node of another kind makes it
forgotten. -/
def siblings (kind : NodeKind) (previous : Option Draft) (comma : Option Lexeme)
    (lineBreak : Bool) : List Draft → List Siblings
  | [] => []
  | d :: ds =>
    let broken := lineBreak || d.firstLexeme.onNewLine
    match d with
    | node k .. =>
      if k = kind then
        (if broken then [] else previous.toList.map (⟨·, comma, d⟩)) ++
          siblings kind (some d) none false ds
      else
        siblings kind none comma broken ds
    | leaf l => siblings kind previous (if l.kind = .comma then some l else comma) broken ds

/-! ## Sites and drafts -/

/-- On the way through trivia every line break is seen, and nothing else. -/
theorem neighbours_trivia (kind : NodeKind) (previous : Option Site) (comma : Option Nat)
    {ts : List Token} (hts : ∀ t ∈ ts, t.isTrivia = true) (sites : List Site) :
    ∀ (lineBreak : Bool) (o : Nat) (b : List (Option Text)),
      neighbours kind previous comma lineBreak (Site.row o b (ts.map tokenLeaf) ++ sites) =
        neighbours kind previous comma
          (lineBreak || ts.any fun t => t.kind == .whitespace && t.text.any Lexer.isLineBreak)
          sites := by
  induction ts with
  | nil => simp [Site.row]
  | cons t ts ih =>
    intro lineBreak o b
    have ht : t.kind ≠ .comma := by
      intro h
      have htrivia : t.kind.isTrivia = true := hts t List.mem_cons_self
      rw [h] at htrivia
      exact Bool.false_ne_true htrivia
    rw [List.map_cons, Site.row, List.cons_append, neighbours_token _ _ _ _ _ _ ht,
      ih fun u hu => hts u (List.mem_cons_of_mem _ hu), List.any_cons, Bool.or_assoc]

theorem neighbours_siteOf_node (kind : NodeKind) (previous : Option Site) (comma : Option Nat)
    (lineBreak : Bool) (o : Nat) (b : List (Option Text)) (k : NodeKind)
    (before after : Option ParseError) (first : Draft) (rest : List Draft) (sites : List Site) :
    neighbours kind previous comma lineBreak
        (siteOf o b (node k before first rest after) :: sites) =
      if k = kind then
        (if lineBreak then [] else
          previous.toList.map (⟨·, comma, siteOf o b (node k before first rest after)⟩)) ++
          neighbours kind (some (siteOf o b (node k before first rest after))) none false sites
      else neighbours kind none comma lineBreak sites := by
  simp only [neighbours, tree_siteOf, tree, Label.node.injEq]
  split
  · cases previous <;> cases lineBreak <;> rfl
  · rfl

theorem neighbours_siteOf_leaf (kind : NodeKind) (previous : Option Site) (comma : Option Nat)
    (lineBreak : Bool) (o : Nat) (b : List (Option Text)) {l : Lexeme}
    (hl : l.token.isTrivia = false) (sites : List Site) :
    neighbours kind previous comma lineBreak (siteOf o b (leaf l) :: sites) =
      neighbours kind previous
        (if l.kind = .comma then some (siteOf o b (leaf l)).stop else comma) lineBreak sites := by
  by_cases hcomma : l.kind = .comma
  · rw [if_pos hcomma]
    have hcomma : l.token.kind = .comma := hcomma
    simp [neighbours, tokenLeaf, tree, hcomma]
  · have hspace : (l.token.kind == .whitespace) = false := by
      apply beq_false_of_ne
      intro h
      have htrivia : l.token.kind.isTrivia = false := hl
      rw [h] at htrivia
      exact Bool.false_ne_true htrivia.symm
    rw [if_neg hcomma]
    exact (neighbours_token kind previous comma lineBreak _ _ hcomma sites).trans
      (by rw [hspace, Bool.false_and, Bool.or_false])

/-- What two siblings are told by: the gap between them and the end of the comma in it. -/
def Siblings.place (p : Siblings) : Span × Option Nat := (p.gap, p.commaStop)

theorem stop_siteOf_of_placed {o : Nat} {d : Draft} (hp : Placed o d.lexemes)
    (b : List (Option Text)) : (siteOf o b d).stop = d.lastToken.span.stop := by
  rw [stop_siteOf, stop_lastToken hp]

theorem offset_siteOf_of_placed {o : Nat} {d : Draft} (hp : Placed o d.lexemes)
    (b : List (Option Text)) : (siteOf o b d).offset = d.firstToken.span.start := by
  rw [span_firstToken hp]
  rfl

/-- The siblings that are found in the trees of a row are those that are found in its drafts. -/
theorem map_neighbours (kind : NodeKind) {ds : List Draft} :
    ∀ {o : Nat} (b : List (Option Text)) {previous : Option Site} {first : Option Draft}
      {comma : Option Nat} {separator : Option Lexeme} (lineBreak : Bool),
      Placed o (lexemesList ds) → previous.map Site.stop = first.map (·.lastToken.span.stop) →
      comma = separator.map (·.token.span.stop) →
      (neighbours kind previous comma lineBreak (Site.row o b (trees ds))).map
          (fun n => (n.gap, n.comma)) =
        (siblings kind first separator lineBreak ds).map Siblings.place := by
  induction ds with
  | nil => intros; rfl
  | cons d ds ih =>
    rintro o b previous first comma separator lineBreak hp hprevious rfl
    rw [lexemesList_cons] at hp
    obtain ⟨hd, hds⟩ := placed_append.mp hp
    have hline : (d.trivia.any fun t =>
        t.kind == .whitespace && t.text.any Lexer.isLineBreak) = d.firstLexeme.onNewLine := rfl
    rw [row_trees_cons, neighbours_trivia _ _ _ (forall_trivia_of_placed hd), hline]
    cases d with
    | leaf l =>
      have hl : l.token.isTrivia = false := (hd.2 l List.mem_cons_self).2
      rw [neighbours_siteOf_leaf _ _ _ _ _ _ hl, siblings]
      refine ih _ _ hds hprevious ?_
      split
      · exact congrArg some (stop_siteOf_of_placed hd b)
      · rfl
    | node k before parts rest after =>
      rw [neighbours_siteOf_node, siblings]
      split
      · rw [List.map_append, List.map_append]
        congr 1
        · -- the pair with this node as its second sibling
          split
          · rfl
          · have hstart := offset_siteOf_of_placed hd b
            cases previous <;> cases first <;>
              simp_all [Siblings.place, Siblings.gap, Siblings.commaStop, Neighbours.gap]
        · exact ih _ _ hds (congrArg some (stop_siteOf_of_placed hd b)) rfl
      · exact ih _ _ hds rfl rfl

theorem neighbours_none (kind : NodeKind) (sites : List Site) :
    ∀ (comma comma' : Option Nat) (lineBreak lineBreak' : Bool),
      neighbours kind none comma lineBreak sites =
        neighbours kind none comma' lineBreak' sites := by
  induction sites with
  | nil => intros; rfl
  | cons s sites ih =>
    intro comma comma' lineBreak lineBreak'
    rw [neighbours, neighbours]
    cases s.tree with
    | node label children =>
      simp only
      split
      · rfl
      · exact ih _ _ _ _
    | leaf label text =>
      simp only
      split
      · exact ih _ _ _ _
      split
      · exact ih _ _ _ _
      · exact ih _ _ _ _

theorem map_neighbours_viewOf {o : Nat} (b : List (Option Text)) (kind k : NodeKind)
    {first : Draft} {rest : List Draft} (hp : Placed o (lexemesList (first :: rest))) :
    (neighbours kind none none false (viewOf o b k first rest).parts).map
        (fun n => (n.gap, n.comma)) =
      (siblings kind none none false (first :: rest)).map Siblings.place := by
  have htrivia := forall_trivia_of_placed (placed_append.mp hp).1
  rw [← @map_neighbours kind (first :: rest) o b none none none none false hp rfl rfl,
    parts_viewOf o b k, neighbours_trivia _ _ _ htrivia]
  exact congrArg _ (neighbours_none _ _ _ _ _ _)

/-! ## Missing commas -/

/-- The fix that begins a line, with the given indent, between any two siblings on one line. -/
def lineBreaks (indent : Text) (pairs : List Siblings) : Fix :=
  ⟨"Put each item on its own line", pairs.map fun p => ⟨p.blanks, '\n' :: indent⟩⟩

def commaDiagnostic (lines : Fix) (gap : Span) : Diagnostic :=
  let d := Diagnostic.ofParseError ⟨.comma, .eof, [], gap⟩
  { d with fixes := d.fixes ++ [lines] }

def commaGaps (kind : NodeKind) (ds : List Draft) : List Span :=
  ((siblings kind none none false ds).filter (·.comma.isNone)).map Siblings.gap

/-- What is told of a list follows from the siblings in it. -/
theorem missingCommas_viewOf {o : Nat} (b : List (Option Text)) (kind k : NodeKind)
    {first : Draft} {rest : List Draft} (hp : Placed o (lexemesList (first :: rest))) :
    missingCommas kind (viewOf o b k first rest) =
      (commaGaps kind (first :: rest)).map (commaDiagnostic
        (lineBreaks (viewOf o b k first rest).site.indent
          (siblings kind none none false (first :: rest)))) := by
  have hplaces := map_neighbours_viewOf b kind k hp
  have hlines : breakLines (viewOf o b k first rest).site.indent
      (neighbours kind none none false (viewOf o b k first rest).parts) =
        lineBreaks (viewOf o b k first rest).site.indent
          (siblings kind none none false (first :: rest)) := by
    have hblanks := congrArg (List.map fun (p : Span × Option Nat) =>
      Edit.mk ⟨p.2.getD p.1.start, p.1.stop⟩
        ('\n' :: (viewOf o b k first rest).site.indent)) hplaces
    rw [List.map_map, List.map_map] at hblanks
    exact congrArg (Fix.mk _) hblanks
  have hgaps : ((neighbours kind none none false (viewOf o b k first rest).parts).filter
      (·.comma.isNone)).map Neighbours.gap = commaGaps kind (first :: rest) := by
    have hfilter := congrArg (fun ps => (ps.filter fun (p : Span × Option Nat) => p.2.isNone).map
      Prod.fst) hplaces
    simp only [List.filter_map, List.map_map] at hfilter
    rw [commaGaps]
    refine hfilter.trans (congrArg (List.map Siblings.gap) (congrArg (List.filter · _) ?_))
    funext p
    exact Option.isNone_map
  calc missingCommas kind (viewOf o b k first rest)
      = (((neighbours kind none none false (viewOf o b k first rest).parts).filter
          (·.comma.isNone)).map Neighbours.gap).map (commaDiagnostic
            (breakLines (viewOf o b k first rest).site.indent
              (neighbours kind none none false (viewOf o b k first rest).parts))) := by
        rw [List.map_map]
        rfl
    _ = _ := by rw [hgaps, hlines]

/-! ## All gaps of a row -/

def ownGaps : Draft → List Span
  | node .members _ first rest _ => commaGaps .keyValue (first :: rest)
  | node .items _ first rest _ => commaGaps .value (first :: rest)
  | _ => []

mutual

/-- The gaps at and below a draft in which a comma is missing, parents first. -/
def gaps : Draft → List Span
  | leaf _ => []
  | node kind before first rest after =>
    ownGaps (node kind before first rest after) ++ (gaps first ++ gapsList rest)

def gapsList : List Draft → List Span
  | [] => []
  | d :: ds => gaps d ++ gapsList ds

end

mutual

theorem flatMap_ownGaps (o : Nat) (b : List (Option Text)) : ∀ d : Draft,
    (standings o b d).flatMap (·.draft.ownGaps) = gaps d
  | leaf l => rfl
  | node kind before first rest after => by
    rw [standings, List.flatMap_cons, List.flatMap_append, flatMap_ownGaps, flatMap_ownGapsList,
      gaps]

theorem flatMap_ownGapsList (o : Nat) (b : List (Option Text)) : ∀ ds : List Draft,
    (standingsRow o b ds).flatMap (·.draft.ownGaps) = gapsList ds
  | [] => rfl
  | d :: ds => by
    rw [standingsRow, List.flatMap_append, flatMap_ownGaps, flatMap_ownGapsList, gapsList]

end

/-! ## No two gaps begin at one place -/

theorem sizeList_pos {o : Nat} {d : Draft} (hp : Placed o d.lexemes) :
    0 < Lexeme.sizeList d.lexemes := by
  have hbounds := bounds_of_placed hp d.firstLexeme (by
    obtain ⟨ls, hls⟩ := exists_lexemes_eq_cons d
    exact hls ▸ List.mem_cons_self)
  omega

/-- Whether an offset is strictly inside one of the drafts of a row. -/
def Inside (o : Nat) : List Draft → Nat → Prop
  | [], _ => False
  | d :: ds, p => (o < p ∧ p < o + Lexeme.sizeList d.lexemes) ∨
      Inside (o + Lexeme.sizeList d.lexemes) ds p

/-- Whether an offset is between two of the drafts of a row. -/
def Between (o : Nat) (ds : List Draft) (p : Nat) : Prop :=
  ∃ front back, ds = front ++ back ∧ front ≠ [] ∧ back ≠ [] ∧
    p = o + Lexeme.sizeList (lexemesList front)

section
variable {o p : Nat} {ds : List Draft}

theorem bounds_of_inside (h : Inside o ds p) : o < p ∧ p < o + Lexeme.sizeList (lexemesList ds) := by
  induction ds generalizing o with
  | nil => exact h.elim
  | cons d ds ih =>
    rw [lexemesList_cons, Lexeme.sizeList_append]
    rcases h with h | h
    · omega
    · have := ih h
      omega

theorem Between.bounds (h : Between o ds p) (hp : Placed o (lexemesList ds)) :
    o < p ∧ p < o + Lexeme.sizeList (lexemesList ds) := by
  obtain ⟨front, back, rfl, hfront, hback, rfl⟩ := h
  obtain ⟨d, front, rfl⟩ := List.exists_cons_of_ne_nil hfront
  obtain ⟨e, back, rfl⟩ := List.exists_cons_of_ne_nil hback
  rw [lexemesList_append, lexemesList_cons, lexemesList_cons] at hp
  have hd := sizeList_pos (placed_append.mp (placed_append.mp hp).1).1
  have he := sizeList_pos (placed_append.mp (placed_append.mp hp).2).1
  simp only [lexemesList_append, lexemesList_cons, Lexeme.sizeList_append]
  omega

theorem Between.cons (h : Between (o + Lexeme.sizeList d.lexemes) ds p) :
    Between o (d :: ds) p := by
  obtain ⟨front, back, rfl, -, hback, rfl⟩ := h
  refine ⟨d :: front, back, rfl, List.cons_ne_nil _ _, hback, ?_⟩
  rw [lexemesList_cons, Lexeme.sizeList_append, Nat.add_assoc]

theorem Between.not_inside (h : Between o ds p) (hp : Placed o (lexemesList ds)) :
    ¬ Inside o ds p := by
  obtain ⟨front, back, rfl, -, -, rfl⟩ := h
  induction front generalizing o with
  | nil =>
    intro hinside
    have := (bounds_of_inside hinside).1
    simp [Lexeme.sizeList] at this
  | cons d front ih =>
    rw [List.cons_append, lexemesList_cons] at hp
    have hrest := ih (placed_append.mp hp).2
    rw [lexemesList_cons, Lexeme.sizeList_append, ← Nat.add_assoc]
    rintro (h | h)
    · omega
    · exact hrest h

/-- The siblings of a row follow one another: each gap but the first begins where a draft of the
row ends, and not at the end of the row. -/
theorem pairwise_siblings (kind : NodeKind) {first : Option Draft} {comma : Option Lexeme}
    {lineBreak : Bool} (hp : Placed o (lexemesList ds))
    (hfirst : ∀ d ∈ first, d.lastToken.span.stop ≤ o) :
    (∀ q ∈ siblings kind first comma lineBreak ds,
        (∃ d ∈ first, q.gap.start = d.lastToken.span.stop) ∨ Between o ds q.gap.start) ∧
      (siblings kind first comma lineBreak ds).Pairwise fun q r => q.gap.start < r.gap.start := by
  induction ds generalizing o first comma lineBreak with
  | nil => exact ⟨by simp [siblings], .nil⟩
  | cons d ds ih =>
    rw [lexemesList_cons] at hp
    obtain ⟨hd, hds⟩ := placed_append.mp hp
    have hsize := sizeList_pos hd
    have hstop := stop_lastToken hd
    have hle : ∀ e ∈ first, e.lastToken.span.stop ≤ o + Lexeme.sizeList d.lexemes :=
      fun e he => Nat.le_trans (hfirst e he) (Nat.le_add_right _ _)
    cases d with
    | leaf l =>
      rw [siblings]
      obtain ⟨hmem, hpairs⟩ := ih hds hle
      exact ⟨fun q hq => (hmem q hq).imp id Between.cons, hpairs⟩
    | node k before parts rest after =>
      rw [siblings]
      split
      · generalize node k before parts rest after = d at *
        obtain ⟨hmem, hpairs⟩ := @ih _ (some d) none false hds (by simp [hstop])
        -- behind the node, gaps begin at its end or later
        have hlater : ∀ q ∈ siblings kind (some d) none false ds,
            Between o (d :: ds) q.gap.start := by
          intro q hq
          rcases hmem q hq with ⟨e, he, hstart⟩ | hbetween
          · obtain rfl := Option.some.inj he
            refine ⟨[d], ds, rfl, List.cons_ne_nil _ _, ?_, by rw [hstart, hstop]; simp⟩
            rintro rfl
            exact absurd hq List.not_mem_nil
          · exact hbetween.cons
        have hfront : ∀ q ∈ (if (lineBreak || d.firstLexeme.onNewLine) = true then []
            else first.toList.map fun e => (⟨e, comma, d⟩ : Siblings)),
            ∃ e ∈ first, q.gap.start = e.lastToken.span.stop := by
          intro q hq
          split at hq
          · exact absurd hq List.not_mem_nil
          · obtain ⟨e, he, rfl⟩ := List.mem_map.mp hq
            exact ⟨e, Option.mem_toList.mp he, rfl⟩
        refine ⟨fun q hq => ?_, List.pairwise_append.mpr ⟨?_, hpairs, fun q hq r hr => ?_⟩⟩
        · exact (List.mem_append.mp hq).imp (hfront q) (hlater q)
        · split
          · exact .nil
          · cases first <;> simp
        · obtain ⟨e, he, hstart⟩ := hfront q hq
          have hbounds := (hlater r hr).bounds (by rw [lexemesList_cons]; exact hp)
          rw [hstart]
          exact Nat.lt_of_le_of_lt (hfirst e he) hbounds.1
      · obtain ⟨hmem, hpairs⟩ := @ih _ none comma _ hds (by simp)
        exact ⟨fun q hq => .inr ((hmem q hq).elim (by simp) Between.cons), hpairs⟩

theorem pairwise_ownGaps {d : Draft} (hp : Placed o d.lexemes) :
    ∀ kind before first rest after, d = node kind before first rest after →
      (∀ g ∈ d.ownGaps, Between o (first :: rest) g.start) ∧
        d.ownGaps.Pairwise fun g h => g.start < h.start := by
  rintro kind before first rest after rfl
  have hall (k : NodeKind) : (∀ g ∈ commaGaps k (first :: rest),
      Between o (first :: rest) g.start) ∧
        (commaGaps k (first :: rest)).Pairwise fun g h => g.start < h.start := by
    obtain ⟨hmem, hpairs⟩ := @pairwise_siblings o (first :: rest) k none none false
      hp (by simp)
    refine ⟨fun g hg => ?_, List.pairwise_map.mpr (hpairs.filter _)⟩
    obtain ⟨q, hq, rfl⟩ := List.mem_map.mp hg
    exact (hmem q (List.mem_filter.mp hq).1).elim (by simp) id
  cases kind with
  | members => exact hall .keyValue
  | items => exact hall .value
  | _ => exact ⟨fun g hg => absurd hg List.not_mem_nil, .nil⟩

/-- Whether gaps begin at different places, all of them inside the drafts of a row. -/
def StartInside (o : Nat) (ds : List Draft) (gs : List Span) : Prop :=
  (gs.map Span.start).Nodup ∧ ∀ g ∈ gs, Inside o ds g.start

/-- Whether gaps begin at different places, all of them strictly inside a draft. -/
def StartWithin (o : Nat) (d : Draft) (gs : List Span) : Prop :=
  (gs.map Span.start).Nodup ∧ ∀ g ∈ gs, o < g.start ∧ g.start < o + Lexeme.sizeList d.lexemes

theorem startInside_cons {d : Draft} {gs hs : List Span} (hd : StartWithin o d gs)
    (hds : StartInside (o + Lexeme.sizeList d.lexemes) ds hs) :
    StartInside o (d :: ds) (gs ++ hs) := by
  constructor
  · rw [List.map_append]
    refine List.nodup_append.mpr ⟨hd.1, hds.1, ?_⟩
    intro p hp q hq
    obtain ⟨g, hg, rfl⟩ := List.mem_map.mp hp
    obtain ⟨h, hh, rfl⟩ := List.mem_map.mp hq
    have hinside := (hd.2 g hg).2
    have hbehind := (bounds_of_inside (hds.2 h hh)).1
    omega
  · intro g hg
    exact (List.mem_append.mp hg).imp (hd.2 g) (hds.2 g)

theorem startWithin_node {kind : NodeKind} {before after : Option ParseError} {first : Draft}
    {rest : List Draft} {gs : List Span}
    (hp : Placed o (node kind before first rest after).lexemes)
    (hparts : StartInside o (first :: rest) gs) :
    StartWithin o (node kind before first rest after)
      ((node kind before first rest after).ownGaps ++ gs) := by
  obtain ⟨hown, hpairs⟩ := pairwise_ownGaps hp kind before first rest after rfl
  constructor
  · rw [List.map_append]
    refine List.nodup_append.mpr ⟨?_, hparts.1, ?_⟩
    · exact List.pairwise_map.mpr (hpairs.imp fun hlt => Nat.ne_of_lt hlt)
    · intro p hp' q hq
      obtain ⟨g, hg, rfl⟩ := List.mem_map.mp hp'
      obtain ⟨h, hh, rfl⟩ := List.mem_map.mp hq
      intro heq
      exact (hown g hg).not_inside hp (heq ▸ hparts.2 h hh)
  · intro g hg
    rcases List.mem_append.mp hg with hg | hg
    · exact (hown g hg).bounds hp
    · exact bounds_of_inside (hparts.2 g hg)

end

mutual

theorem startWithin_gaps (o : Nat) : ∀ d : Draft, Placed o d.lexemes →
    StartWithin o d (gaps d)
  | leaf _, _ => ⟨List.nodup_nil, fun _ h => absurd h List.not_mem_nil⟩
  | node kind before first rest after, hp => by
    obtain ⟨hfirst, hrest⟩ := placed_append.mp hp
    exact startWithin_node hp (startInside_cons (startWithin_gaps o first hfirst)
      (startInside_gapsList _ rest hrest))

/-- No two gaps of a row begin at one place; each begins inside one of its drafts. -/
theorem startInside_gapsList (o : Nat) : ∀ ds : List Draft, Placed o (lexemesList ds) →
    StartInside o ds (gapsList ds)
  | [], _ => ⟨List.nodup_nil, fun _ h => absurd h List.not_mem_nil⟩
  | d :: ds, hp => by
    rw [lexemesList_cons] at hp
    obtain ⟨hd, hds⟩ := placed_append.mp hp
    exact startInside_cons (startWithin_gaps o d hd) (startInside_gapsList _ ds hds)

end

end Draft

end Maml
