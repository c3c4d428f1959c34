import Maml.Depth
import Maml.Proofs.Edges
import Maml.Proofs.Elsewhere
import Maml.Proofs.Forms
import Maml.Proofs.Regrouping
import Maml.Proofs.Shape
import Maml.Proofs.Totality

/-! Nesting is bounded, and what is nested deeper is cut off exactly.

1. A run of tokens inside open brackets goes on to the first point at which all of them
   are closed, or to the end of the input (`Draft.balancedRun_spec`).
2. `Draft.Nested n behind ds` says that a row with `n` containers around it goes no deeper
   than the limit, and that what is cut off in it is such a run. Pairing brackets makes
   such rows (`Draft.nested_pieceAt_pieces`), and regrouping keeps them
   (`Draft.nested_of_regrouped`).
3. So in a document the limit is kept, and every node is a nested draft at the depth of the
   node (`Draft.reached_of_nested`, `reached_of_mem_spots`). A node that is nested too deep
   is one that was cut off (`Draft.exists_tooDeep`), so its leaves are such a run
   (`tooDeep_of_reached`).
4. Reading faults where a closer would be counted below zero, and it never faults
   (`nesting_bounded`).
5. Something is cut off as soon as there are more openers one behind the other than the
   limit allows (`exists_tooDeep_of_openers`). -/
namespace Maml

namespace Draft

/-! ## Brackets of a run -/

def opened (ls : List Lexeme) : Nat := ls.countP (·.kind.isOpener)

def closed (ls : List Lexeme) : Nat := ls.countP (·.kind.isCloser)

theorem opened_cons (l : Lexeme) (ls : List Lexeme) :
    opened (l :: ls) = opened [l] + opened ls := by
  rw [opened, opened, opened, List.countP_cons, List.countP_singleton, Nat.add_comm]

theorem closed_cons (l : Lexeme) (ls : List Lexeme) :
    closed (l :: ls) = closed [l] + closed ls := by
  rw [closed, closed, closed, List.countP_cons, List.countP_singleton, Nat.add_comm]

theorem opened_opener {l : Lexeme} (h : l.kind.isOpener = true) :
    opened [l] = 1 ∧ closed [l] = 0 := by
  rw [opened, closed, List.countP_singleton, List.countP_singleton, if_pos h,
    not_isCloser_of_isOpener h]
  exact ⟨rfl, rfl⟩

/-- As long as a bracket is open, the count changes by what a token opens and closes. -/
theorem depthAfter_add_closed {depth : Nat} (hdepth : 0 < depth) (l : Lexeme) :
    depthAfter depth l.kind + closed [l] = depth + opened [l] := by
  rw [depthAfter]
  split
  · rename_i ho
    rw [(opened_opener ho).1, (opened_opener ho).2]
  · rename_i ho
    rw [opened, closed, List.countP_singleton, List.countP_singleton, if_neg ho]
    split
    · omega
    · omega

/-- A run goes on to the first point at which all brackets are closed, or to the end. -/
theorem balancedRun_spec {depth : Nat} {ls run : List Lexeme}
    (hrun : (balancedRun depth ls).1 = run) :
    (∀ k < run.length, closed (run.take k) < depth + opened (run.take k)) ∧
      (closed run = depth + opened run ∨ (closed run < depth + opened run ∧ run = ls)) := by
  induction ls generalizing depth run with
  | nil =>
    obtain rfl : [] = run := hrun
    refine ⟨fun k hk => absurd hk (Nat.not_lt_zero k), ?_⟩
    rcases Nat.eq_zero_or_pos depth with rfl | hpos
    · exact .inl rfl
    · exact .inr ⟨by simpa [opened, closed] using hpos, rfl⟩
  | cons l ls ih =>
    rw [balancedRun] at hrun
    split at hrun
    · rename_i hdepth
      obtain rfl : [] = run := hrun
      exact ⟨fun k hk => absurd hk (Nat.not_lt_zero k), .inl (by rw [hdepth]; rfl)⟩
    · rename_i hdepth
      obtain rfl : l :: (balancedRun (depthAfter depth l.kind) ls).1 = run := hrun
      have hpos : 0 < depth := Nat.pos_of_ne_zero hdepth
      have hstep := depthAfter_add_closed hpos l
      obtain ⟨hbefore, hend⟩ := ih (rfl : (balancedRun (depthAfter depth l.kind) ls).1 = _)
      constructor
      · intro k hk
        cases k with
        | zero => simpa [opened, closed] using hpos
        | succ k =>
          have hrest := hbefore k (Nat.lt_of_succ_lt_succ hk)
          rw [List.take_succ_cons, opened_cons, closed_cons]
          omega
      · rw [opened_cons, closed_cons]
        rcases hend with hclosed | ⟨hopen, hall⟩
        · exact .inl (by omega)
        · exact .inr ⟨by omega, by rw [hall]⟩

/-! ## Nested rows -/

/-- How a row with a number of containers around it is nested, in front of the lexemes `behind`. -/
inductive Nested : Nat → List Lexeme → List Draft → Prop where
  | nil {n behind} : Nested n behind []
  | token {n behind l ds} (hl : l.kind.opens? = none) (hds : Nested n behind ds) :
      Nested n behind (leaf l :: ds)
  | tooDeep {n behind before opener after ds} {run : List Lexeme}
      (ho : opener.kind.isOpener = true) (hn : Container.maxDepth ≤ n)
      (hrun : (balancedRun 1 (run ++ (lexemesList ds ++ behind))).1 = run)
      (hds : Nested n behind ds) :
      Nested n behind (node .invalidValue before (leaf opener) (run.map leaf) after :: ds)
  | container {n behind c opener inner closer after ds} (hn : n < Container.maxDepth)
      (hinner : Nested (n + 1) (closer.toList ++ (lexemesList ds ++ behind)) inner)
      (hds : Nested n behind ds) :
      Nested n behind (containerNode c opener inner closer after :: ds)
  | group {n behind kind before first rest after ds} (hk : NodeKind.isContainer kind = false)
      (hparts : Nested n (lexemesList ds ++ behind) (first :: rest)) (hds : Nested n behind ds) :
      Nested n behind (node kind before first rest after :: ds)
  | unread {n behind before l after ds} {ls : List Lexeme} (hds : Nested n behind ds) :
      Nested n behind (node .error before (leaf l) (ls.map leaf) after :: ds)

theorem nested_cons {n : Nat} {behind : List Lexeme} {d : Draft} {ds : List Draft} :
    Nested n behind (d :: ds) ↔ Nested n (lexemesList ds ++ behind) [d] ∧ Nested n behind ds := by
  constructor
  · intro h
    cases h with
    | token hl hds => exact ⟨.token hl .nil, hds⟩
    | tooDeep ho hn hrun hds => exact ⟨.tooDeep ho hn hrun .nil, hds⟩
    | container hn hinner hds => exact ⟨.container hn hinner .nil, hds⟩
    | group hk hparts hds => exact ⟨.group hk hparts .nil, hds⟩
    | unread hds => exact ⟨.unread .nil, hds⟩
  · rintro ⟨h, hds⟩
    cases h with
    | token hl => exact .token hl hds
    | tooDeep ho hn hrun => exact .tooDeep ho hn hrun hds
    | container hn hinner => exact .container hn hinner hds
    | group hk hparts => exact .group hk hparts hds
    | unread => exact .unread hds

theorem nested_append {n : Nat} {behind : List Lexeme} {ds es : List Draft} :
    Nested n behind (ds ++ es) ↔ Nested n (lexemesList es ++ behind) ds ∧ Nested n behind es := by
  induction ds with
  | nil => simp [Nested.nil]
  | cons d ds ih =>
    have hcons : Nested n (lexemesList es ++ behind) (d :: ds) ↔
        Nested n (lexemesList ds ++ (lexemesList es ++ behind)) [d] ∧
          Nested n (lexemesList es ++ behind) ds := nested_cons
    rw [List.cons_append, nested_cons, hcons, ih, lexemesList_append, List.append_assoc, and_assoc]

/-- Regrouping does not change how a row is nested. -/
theorem nested_of_regrouped {ds es : List Draft} (h : Regrouped ds es) {n : Nat}
    {behind : List Lexeme} (hds : Nested n behind ds) : Nested n behind es := by
  induction h with
  | nil => exact hds
  | keep d h ih =>
    rw [nested_cons] at hds ⊢
    rw [lexemesList_of_regrouped h]
    exact ⟨hds.1, ih hds.2⟩
  | group hk h ih =>
    obtain ⟨hparts, hes⟩ := nested_append.mp (ih hds)
    exact .group hk hparts hes

/-! ## Pieces -/

theorem nested_tooDeep {n : Nat} {opener : Lexeme} (ho : opener.kind.isOpener = true)
    (hn : Container.maxDepth ≤ n) (ls : List Lexeme) :
    Nested n (balancedRun 1 ls).2 [tooDeep opener (balancedRun 1 ls).1] := by
  have hrun : (balancedRun 1 ((balancedRun 1 ls).1 ++ (lexemesList [] ++ (balancedRun 1 ls).2))).1 =
      (balancedRun 1 ls).1 := by
    rw [lexemesList_nil, List.nil_append, append_balancedRun]
  exact .group rfl (.tooDeep ho hn hrun .nil) .nil

theorem nested_close {n : Nat} {eof : Token} (c : Container) (opener : Lexeme) {ds : List Draft}
    {rest : List Lexeme} (hn : n < Container.maxDepth) (hds : Nested (n + 1) rest ds) :
    Nested n (close eof c opener ds rest).2 [(close eof c opener ds rest).1] := by
  have hinner (stop : Token) : Nested (n + 1) rest (contents c stop ds) :=
    nested_of_regrouped (regrouped_contents c stop ds) hds
  cases rest with
  | nil => exact .group rfl (.container hn (hinner eof) .nil) .nil
  | cons l ls =>
    rw [close]
    split
    · exact .group rfl (.container hn (hinner l.token) .nil) .nil
    · exact .group rfl (.container hn (hinner l.token) .nil) .nil

/-- Pairing brackets nests containers up to the limit and cuts off what is nested deeper. -/
theorem nested_pieceAt_pieces (eof : Token) :
    (∀ (e : List Container) l ls,
      Nested e.length (pieceAt eof e l ls).2 [(pieceAt eof e l ls).1]) ∧
    ∀ (e : List Container) ls, Nested e.length (pieces eof e ls).2 (pieces eof e ls).1 := by
  apply pieceAt_pieces_induction eof
  case token =>
    intro e l ls ho
    rw [pieceAt_of_opens?_eq_none ho]
    exact .token ho .nil
  case nested =>
    intro e l ls c ho he ih
    rw [pieceAt_of_opens?_eq_some ho, if_pos he]
    exact nested_close c l he ih
  case deep =>
    intro e l ls c ho he
    rw [pieceAt_of_opens?_eq_some ho, if_neg (by omega)]
    exact nested_tooDeep (isOpener_of_opens? ho) he ls
  case nil =>
    intro e
    rw [pieces_nil]
    exact .nil
  case cons =>
    intro e l ls hpiece hmore
    rw [pieces_cons]
    split
    · exact .nil
    · refine nested_cons.mpr ⟨?_, hmore⟩
      rwa [lexemes_pieces]

theorem nested_trailing (ls : List Lexeme) : Nested 0 [] (trailing ls) := by
  cases ls with
  | nil => exact .nil
  | cons l ls => exact .unread .nil

theorem nested_documentDrafts (eof : Token) (ls : List Lexeme) :
    Nested 0 [] (documentDrafts eof ls) := by
  unfold documentDrafts
  split
  · exact .nil
  · rename_i l ls
    split
    · refine nested_cons.mpr ⟨?_, nested_trailing _⟩
      rw [lexemesList_trailing, List.append_nil]
      exact nested_of_regrouped (regrouped_asValue _ .nil) ((nested_pieceAt_pieces eof).1 [] l ls)
    · exact nested_trailing _

/-! ## The depth of parts -/

theorem isContainer_node (kind : NodeKind) (before after : Option ParseError) (first : Draft)
    (rest : List Draft) :
    (node kind before first rest after).tree.isContainer = kind.isContainer := by
  rw [Tree.isContainer, isNodeOf_node, isNodeOf_node]
  cases kind <;> rfl

/-- What is known of a part of a row of lexemes. -/
structure Reached (ls : List Lexeme) (x : Spot) : Prop where
  bounded : x.depth ≤ Container.maxDepth
  /-- A node is a draft that is nested at the depth of the node. -/
  node : x.site.tree.isNode = true → ∃ (s : Standing) (front behind : List Lexeme),
    x.site = s.site ∧ s.offset = Lexeme.sizeList front ∧
      ls = front ++ (s.draft.lexemes ++ behind) ∧ Nested x.depth behind [s.draft]

section
variable {ls : List Lexeme} {n : Nat} {behind : List Lexeme}

theorem reached_token {x : Spot} {t : Token} (htree : x.site.tree = tokenLeaf t)
    (hn : x.depth ≤ Container.maxDepth) : Reached ls x := by
  refine ⟨hn, fun hnode => ?_⟩
  rw [htree] at hnode
  exact absurd hnode Bool.false_ne_true

/-- Whether all parts of a draft are reached, wherever it stands among lexemes. -/
def ReachedAt (ls : List Lexeme) (n : Nat) (behind : List Lexeme) (d : Draft) : Prop :=
  ∀ around b front, ls = front ++ (d.lexemes ++ behind) → containersAmong around = n →
    ∀ x ∈ spots around (Lexeme.sizeList front) b d, Reached ls x

def AllReached (ls : List Lexeme) (n : Nat) (behind : List Lexeme) (ds : List Draft) : Prop :=
  ∀ around b front, ls = front ++ (lexemesList ds ++ behind) → containersAmong around = n →
    ∀ x ∈ Site.spotsOfRow around (Lexeme.sizeList front) b (trees ds), Reached ls x

theorem allReached_nil : AllReached ls n behind [] := by
  intro around b front _ _ x hx
  exact absurd hx List.not_mem_nil

theorem allReached_cons (hn : n ≤ Container.maxDepth) {d : Draft} {ds : List Draft}
    (hd : ReachedAt ls n (lexemesList ds ++ behind) d) (hds : AllReached ls n behind ds) :
    AllReached ls n behind (d :: ds) := by
  intro around b front hls hdepth x hx
  rw [lexemesList_cons, List.append_assoc] at hls
  rcases mem_spotsOfRow_cons hx with ⟨haround, t, -, htree⟩ | hx | hx
  · refine reached_token htree ?_
    rw [Spot.depth, haround, hdepth]
    exact hn
  · exact hd around b front hls hdepth x hx
  · rw [← Lexeme.sizeList_append] at hx
    exact hds around _ (front ++ d.lexemes) (by rw [hls, List.append_assoc]) hdepth x hx

theorem reachedAt_leaf (hn : n ≤ Container.maxDepth) (l : Lexeme) :
    ReachedAt ls n behind (leaf l) := by
  intro around b front _ hdepth x hx
  obtain rfl := mem_spots_leaf hx
  have hbounded : containersAmong around ≤ Container.maxDepth := hdepth ▸ hn
  exact reached_token (rfl : (leaf l).tree = tokenLeaf l.token) hbounded

theorem reachedAt_node (hn : n ≤ Container.maxDepth) {kind : NodeKind}
    {before after : Option ParseError} {first : Draft} {rest : List Draft}
    (hnested : Nested n behind [node kind before first rest after])
    (hparts : AllReached ls (n + if kind.isContainer then 1 else 0) behind (first :: rest)) :
    ReachedAt ls n behind (node kind before first rest after) := by
  intro around b front hls hdepth x hx
  rcases mem_spots_node hx with rfl | hx
  · subst hdepth
    exact ⟨hn, fun _ => ⟨⟨_, b, _⟩, front, behind, rfl, rfl, hls, hnested⟩⟩
  · refine hparts _ b front hls ?_ x hx
    rw [containersAmong, List.countP_cons, tree_siteOf, isContainer_node, ← containersAmong, hdepth]

theorem allReached_map_leaf (hn : n ≤ Container.maxDepth) (ms : List Lexeme) :
    AllReached ls n behind (ms.map leaf) := by
  induction ms with
  | nil => exact allReached_nil
  | cons m ms ih => exact allReached_cons hn (reachedAt_leaf hn m) ih

/-- A container that is not nested too deep is reached if what is in it is. -/
theorem reachedAt_container (hn : n < Container.maxDepth) {c : Container} {opener : Lexeme}
    {inner : List Draft} {closer : Option Lexeme} {after : Option ParseError}
    (hinner : Nested (n + 1) (closer.toList ++ behind) inner)
    (hreached : AllReached ls (n + 1) (closer.toList ++ behind) inner) :
    ReachedAt ls n behind (containerNode c opener inner closer after) := by
  have hk : c.nodeKind.isContainer = true := by cases c <;> rfl
  have hlist : c.listKind.isContainer = false := by cases c <;> rfl
  have hclosers : (closer.map leaf).toList = closer.toList.map leaf := by cases closer <;> rfl
  have hnested : Nested n behind [containerNode c opener inner closer after] :=
    .container hn hinner .nil
  refine reachedAt_node (Nat.le_of_lt hn) hnested ?_
  rw [hk, if_pos rfl]
  refine allReached_cons hn (reachedAt_leaf hn opener) ?_
  rw [hclosers]
  have hend : AllReached ls (n + 1) behind (closer.toList.map leaf) :=
    allReached_map_leaf hn closer.toList
  cases inner with
  | nil => exact hend
  | cons d ds =>
    -- the list is a node of its own, at the same depth as what is in it
    have hbehind : lexemesList (closer.toList.map leaf) ++ behind = closer.toList ++ behind := by
      rw [lexemesList_map_leaf]
    have hnode : ReachedAt ls (n + 1) (lexemesList (closer.toList.map leaf) ++ behind)
        (plain c.listKind d ds) := by
      rw [hbehind]
      exact reachedAt_node hn (.group hlist hinner .nil) (by rw [hlist]; exact hreached)
    exact allReached_cons hn hnode hend

theorem reached_of_nested {ds : List Draft} (h : Nested n behind ds)
    (hn : n ≤ Container.maxDepth) : AllReached ls n behind ds := by
  induction h with
  | nil => exact allReached_nil
  | token hl hds ih => exact allReached_cons hn (reachedAt_leaf hn _) (ih hn)
  | @tooDeep n behind before opener after ds run ho hdeep hrun hds ih =>
    refine allReached_cons hn (reachedAt_node hn (.tooDeep ho hdeep hrun .nil) ?_) (ih hn)
    exact allReached_map_leaf hn (opener :: run)
  | container hlt hinner hds ihinner ih =>
    exact allReached_cons hn (reachedAt_container hlt hinner (ihinner hlt)) (ih hn)
  | group hk hparts hds ihparts ih =>
    refine allReached_cons hn (reachedAt_node hn (.group hk hparts .nil) ?_) (ih hn)
    rw [hk]
    exact ihparts hn
  | @unread n behind before l after ds ms hds ih =>
    refine allReached_cons hn (reachedAt_node hn (.unread .nil) ?_) (ih hn)
    exact allReached_map_leaf hn (l :: ms)

end

/-! ## What is cut off -/

theorem exists_opener_of_isTooDeep {kind : NodeKind} {before after : Option ParseError}
    {first : Draft} {rest : List Draft}
    (hform : (node kind before first rest after).tree.hasForm = true)
    (hdeep : (node kind before first rest after).tree.isTooDeep = true) :
    kind = .invalidValue ∧ ∃ l, first = leaf l ∧ l.kind.isOpener = true := by
  obtain ⟨hnode, hbegins⟩ := Bool.and_eq_true_iff.mp hdeep
  rw [beginsWith_tree] at hbegins
  rw [isNodeOf_node, beq_iff_eq] at hnode
  refine ⟨hnode, ?_⟩
  cases first with
  | leaf l => exact ⟨l, rfl, hbegins⟩
  | node =>
    -- an invalid value has no node in it
    subst hnode
    exact absurd hform Bool.false_ne_true

theorem exists_tooDeep {n : Nat} {behind : List Lexeme} {d : Draft} (h : Nested n behind [d])
    (hform : d.tree.hasForm = true) (hdeep : d.tree.isTooDeep = true) :
    Container.maxDepth ≤ n ∧ ∃ opener run, d.lexemes = opener :: run ∧
      opener.kind.isOpener = true ∧ (balancedRun 1 (run ++ behind)).1 = run := by
  cases h with
  | token => exact absurd hdeep Bool.false_ne_true
  | @tooDeep _ _ before opener after _ run ho hn hrun =>
    exact ⟨hn, opener, run, by rw [lexemes_node, lexemesList_map_leaf]; rfl, ho, hrun⟩
  | @container _ _ c =>
    obtain ⟨hkind, -⟩ := exists_opener_of_isTooDeep hform hdeep
    cases c <;> exact absurd hkind (by decide)
  | group hk hparts =>
    -- its first part would be a token that opens nothing
    obtain ⟨-, l, rfl, ho⟩ := exists_opener_of_isTooDeep hform hdeep
    cases hparts with
    | token hl => exact absurd ho (by rw [not_isOpener_of_opens? hl]; decide)
  | unread =>
    obtain ⟨hkind, -⟩ := exists_opener_of_isTooDeep hform hdeep
    exact absurd hkind (by decide)

/-! ## Runs of leaves -/

theorem openers_map_view (ls : List Lexeme) :
    LeafView.openers (ls.map Lexeme.view) = opened ls := by
  rw [LeafView.openers, List.countP_map]
  rfl

theorem closers_map_view (ls : List Lexeme) :
    LeafView.closers (ls.map Lexeme.view) = closed ls := by
  rw [LeafView.closers, List.countP_map]
  rfl

/-- In what is cut off, all brackets are closed at its end or nowhere. -/
theorem cutOff_spec {opener : Lexeme} {run behind : List Lexeme}
    (ho : opener.kind.isOpener = true) (hrun : (balancedRun 1 (run ++ behind)).1 = run) :
    (∀ k < run.length, closed (opener :: run.take k) < opened (opener :: run.take k)) ∧
      (opened (opener :: run) = closed (opener :: run) ∨
        (closed (opener :: run) < opened (opener :: run) ∧ run = run ++ behind)) := by
  obtain ⟨hbefore, hend⟩ := balancedRun_spec hrun
  obtain ⟨hopened, hclosed⟩ := opened_opener ho
  constructor
  · intro k hk
    have hlt := hbefore k hk
    rw [opened_cons, closed_cons]
    omega
  · rw [opened_cons opener run, closed_cons opener run]
    rcases hend with hbalanced | ⟨hlt, hall⟩
    · exact .inl (by omega)
    · exact .inr ⟨by omega, hall⟩

section
variable {opener : Lexeme} {run behind : List Lexeme} (ho : opener.kind.isOpener = true)
  (hrun : (balancedRun 1 (run ++ behind)).1 = run)

include ho hrun

theorem isShortestBalanced_map_view :
    LeafView.IsShortestBalanced ((opener :: run).map Lexeme.view)
      ((opener :: (run ++ behind)).map Lexeme.view) := by
  obtain ⟨hopen, hend⟩ := cutOff_spec ho hrun
  refine ⟨?_, by simp, fun k hpos hlength => ?_, ?_⟩
  · rw [← List.cons_append, List.map_append]
    exact List.prefix_append _ _
  · obtain ⟨k, rfl⟩ := Nat.exists_eq_succ_of_ne_zero (Nat.ne_of_gt hpos)
    rw [List.length_map, List.length_cons] at hlength
    rw [← List.map_take, List.take_succ_cons, openers_map_view, closers_map_view]
    exact Nat.ne_of_gt (hopen k (Nat.lt_of_succ_lt_succ hlength))
  · rw [openers_map_view, closers_map_view]
    rcases hend with hbalanced | ⟨-, hall⟩
    · exact .inl hbalanced
    · exact .inr (by rw [← hall])

/-- In what is cut off, no bracket is closed that was not opened. -/
theorem closers_take_le_openers_take (k : Nat) :
    LeafView.closers (((opener :: run).map Lexeme.view).take k) ≤
      LeafView.openers (((opener :: run).map Lexeme.view).take k) := by
  obtain ⟨hopen, hend⟩ := cutOff_spec ho hrun
  rw [← List.map_take, openers_map_view, closers_map_view]
  cases k with
  | zero => exact Nat.le_refl _
  | succ k =>
    rw [List.take_succ_cons]
    rcases Nat.lt_or_ge k run.length with hk | hk
    · exact Nat.le_of_lt (hopen k hk)
    · rw [List.take_of_length_le hk]
      rcases hend with hbalanced | ⟨hlt, -⟩
      · exact Nat.le_of_eq hbalanced.symm
      · exact Nat.le_of_lt hlt

end

/-! ## Openers in a row -/

theorem exists_opens?_of_isOpener {kind : TokenKind} (h : kind.isOpener = true) :
    ∃ c, kind.opens? = some c := by
  cases hopens : kind.opens? with
  | some c => exact ⟨c, rfl⟩
  | none => exact absurd h (by rw [not_isOpener_of_opens? hopens]; decide)

theorem beginsDocument_of_isOpener : ∀ {kind : TokenKind}, kind.isOpener = true →
    beginsDocument kind = true := by
  decide

theorem not_shallow_pieceAt (eof : Token) {e : List Container} {l : Lexeme} (ls : List Lexeme)
    (ho : l.kind.isOpener = true) (he : Container.maxDepth ≤ e.length) :
    ¬ Shallow [(pieceAt eof e l ls).1] := by
  obtain ⟨c, hc⟩ := exists_opens?_of_isOpener ho
  rw [pieceAt_of_opens?_eq_some hc, if_neg (Nat.not_lt.mpr he)]
  exact not_shallow_tooDeep ho

/-- Of openers one behind the other that are more than the limit allows, one is cut off. -/
theorem not_shallow_openers (eof : Token) {e : List Container} {l : Lexeme} {ls : List Lexeme}
    (rest : List Lexeme) (hopeners : ∀ m ∈ l :: ls, m.kind.isOpener = true)
    (hlength : Container.maxDepth ≤ e.length + ls.length) :
    ¬ Shallow [(pieceAt eof e l (ls ++ rest)).1] := by
  induction ls generalizing e l with
  | nil => exact not_shallow_pieceAt eof _ (hopeners l List.mem_cons_self) hlength
  | cons m ls ih =>
    have ho := hopeners l List.mem_cons_self
    rcases Nat.lt_or_ge e.length Container.maxDepth with hroom | hfull
    · -- what is in the container begins with the next opener
      have hnext := hopeners m (List.mem_cons_of_mem _ List.mem_cons_self)
      obtain ⟨c, hc⟩ := exists_opens?_of_isOpener ho
      rw [pieceAt_of_opens?_eq_some hc, if_pos hroom]
      intro h
      have hinside := everyNode_of_close h
      rw [List.cons_append, pieces_cons, closesAny_opener _ hnext] at hinside
      have hfirst : Shallow [(pieceAt eof (c :: e) m (ls ++ rest)).1] :=
        (everyNode_cons_iff.mp hinside).1
      refine ih (fun k hk => hopeners k (List.mem_cons_of_mem _ hk)) ?_ hfirst
      rw [List.length_cons] at hlength ⊢
      omega
    · exact not_shallow_pieceAt eof _ ho hfull

theorem not_shallow_documentDrafts (eof : Token) {l : Lexeme} {ls : List Lexeme}
    (rest : List Lexeme) (hopeners : ∀ m ∈ l :: ls, m.kind.isOpener = true)
    (hlength : Container.maxDepth ≤ ls.length) :
    ¬ Shallow (documentDrafts eof (l :: (ls ++ rest))) := by
  have hbegins := beginsDocument_of_isOpener (hopeners l List.mem_cons_self)
  intro h
  rw [documentDrafts, if_pos hbegins] at h
  have hvalue : Shallow [(pieceAt eof [] l (ls ++ rest)).1.asValue] := (everyNode_cons_iff.mp h).1
  have hpiece := everyNode_of_regrouped (regrouped_asValue _ .nil) hvalue
  refine not_shallow_openers eof rest hopeners ?_ hpiece
  rwa [List.length_nil, Nat.zero_add]

end Draft

/-! ## Documents -/

open Draft

theorem isNode_of_isTooDeep {t : Tree} (h : t.isTooDeep = true) : t.isNode = true := by
  cases t with
  | node => rfl
  | leaf => exact absurd h Bool.false_ne_true

/-- Every part of a document is the document or one that is reached in its lexemes. -/
theorem reached_of_mem_spots {source : Text} {x : Spot} (hx : x ∈ (parse source).spots) :
    x = ⟨[], Site.root (parse source).tree⟩ ∨ Reached (Parse.lexemes source) x := by
  let input := Lexemes.ofTokens (tokenize source) source.size
  have hlexemes : Parse.lexemes source =
      [] ++ (lexemesList (documentDrafts input.eof input.lexemes) ++ []) := by
    rw [lexemes_documentDrafts, List.append_nil]
    rfl
  rcases List.mem_cons.mp hx with rfl | hx
  · exact .inl rfl
  right
  have hdepth : containersAmong [Site.root (parse source).tree] = 0 := rfl
  change x ∈ Site.spotsOfRow [Site.root (parse source).tree] 0 []
    (trees (documentDrafts input.eof input.lexemes) ++ input.trailing.map tokenLeaf) at hx
  rw [spotsOfRow_append] at hx
  rcases List.mem_append.mp hx with hx | hx
  · have hreached : AllReached (Parse.lexemes source) 0 [] (documentDrafts input.eof input.lexemes) :=
      reached_of_nested (nested_documentDrafts _ _) (Nat.zero_le _)
    exact hreached _ [] [] hlexemes hdepth x hx
  · -- trivia at the end
    obtain ⟨haround, t, -, htree⟩ := mem_spotsOfRow_tokens hx
    refine reached_token htree ?_
    rw [Spot.depth, haround, hdepth]
    exact Nat.zero_le _

theorem significantLeaves_standing {source : Text} {x : Standing} {l : Lexeme}
    {front ls behind : List Lexeme} (hx : x.draft.lexemes = l :: ls)
    (hoffset : x.offset = Lexeme.sizeList front)
    (hlexemes : Parse.lexemes source = front ++ (x.draft.lexemes ++ behind)) :
    x.site.significantLeaves = (l :: ls).map Lexeme.view ∧
      (parse source).significantLeaves.filter (x.site.offset ≤ ·.offset) =
        (l :: (ls ++ behind)).map Lexeme.view := by
  have hplaced : x.IsPlaced := by
    have hall : Placed 0 (Parse.lexemes source) := placed_tokenize source
    rw [hlexemes, placed_append, placed_append, Nat.zero_add, ← hoffset] at hall
    exact hall.2.1
  have hfirst : x.site.offset = l.token.span.start := by
    obtain ⟨ms, hms⟩ := exists_lexemes_eq_cons x.draft
    obtain rfl : x.draft.firstLexeme = l := (List.cons.inj (hms.symm.trans hx)).1
    exact Standing.offset_site hplaced
  constructor
  · rw [Standing.significantLeaves_site hplaced, hx]
  · rw [hx, List.cons_append] at hlexemes
    rw [hfirst, Parse.filter_significantLeaves_parse hlexemes]

/-- What is cut off in a document is at the limit, and its tokens are the shortest balanced run. -/
theorem tooDeep_of_reached {source : Text} {x : Spot} (h : Reached (Parse.lexemes source) x)
    (hform : x.site.tree.hasForm = true) (hdeep : x.site.tree.isTooDeep = true) :
    x.depth = Container.maxDepth ∧
      LeafView.IsShortestBalanced x.site.significantLeaves
        ((parse source).significantLeaves.filter (x.site.offset ≤ ·.offset)) ∧
      ∀ k, LeafView.closers (x.site.significantLeaves.take k) ≤
        LeafView.openers (x.site.significantLeaves.take k) := by
  obtain ⟨s, front, behind, hsite, hoffset, hlexemes, hnested⟩ :=
    h.node (isNode_of_isTooDeep hdeep)
  rw [hsite] at hform hdeep ⊢
  obtain ⟨hdepth, opener, run, hrow, ho, hrun⟩ := exists_tooDeep hnested hform hdeep
  obtain ⟨hleaves, hbehind⟩ := significantLeaves_standing hrow hoffset hlexemes
  rw [hleaves, hbehind]
  exact ⟨Nat.le_antisymm h.bounded hdepth, isShortestBalanced_map_view ho hrun,
    closers_take_le_openers_take ho hrun⟩

/-- A document that begins with more openers than the limit allows is cut off somewhere. -/
theorem exists_tooDeep_of_openers {source : Text}
    (hlength : Container.maxDepth < (Parse.lexemes source).length)
    (hopeners : ∀ l ∈ (Parse.lexemes source).take (Container.maxDepth + 1),
      l.kind.isOpener = true) :
    ∃ x ∈ (parse source).spots, x.site.tree.isTooDeep = true := by
  obtain ⟨l, rest, hrow⟩ : ∃ l rest, Parse.lexemes source = l :: rest :=
    List.exists_cons_of_length_pos (Nat.zero_lt_of_lt hlength)
  have hsplit : Parse.lexemes source =
      l :: (rest.take Container.maxDepth ++ rest.drop Container.maxDepth) := by
    rw [hrow, List.take_append_drop]
  rw [hrow, List.length_cons] at hlength
  rw [hrow, List.take_succ_cons] at hopeners
  have henough : Container.maxDepth ≤ (rest.take Container.maxDepth).length := by
    rw [List.length_take]
    omega
  let input := Lexemes.ofTokens (tokenize source) source.size
  have hdeep : ¬ Shallow (documentDrafts input.eof (Parse.lexemes source)) := by
    rw [hsplit]
    exact not_shallow_documentDrafts _ _ hopeners henough
  rw [Shallow, everyNode_iff 0 []] at hdeep
  push Not at hdeep
  obtain ⟨s, hs, hcut⟩ := hdeep
  have hsite : s.site ∈ (parse source).sites := by
    rw [Parse.sites_parse]
    exact List.mem_cons_of_mem _ (List.mem_map_of_mem hs)
  obtain ⟨x, hx, -, hxs⟩ := mem_sites_iff.mp hsite
  refine ⟨x, hx, ?_⟩
  rw [hxs]
  exact Bool.of_not_eq_false hcut

/-- Containers are nested in one another up to the limit, in every document. A container that is
nested deeper is cut off: the node in its place has as many containers around it as the limit
allows, and its significant tokens are the shortest run from its opener on in which as many
brackets are closed as opened, of either sort, or all tokens behind if there is no such run. On
the way no bracket is closed that was not opened, so the count of them never falls below zero:
reading ends without a fault. -/
theorem nesting_bounded (source : Text) :
    (∀ x ∈ (parse source).spots, x.depth ≤ Container.maxDepth) ∧
      (∀ x ∈ (parse source).spots, x.site.tree.isTooDeep = true →
        x.depth = Container.maxDepth ∧
        LeafView.IsShortestBalanced x.site.significantLeaves
          ((parse source).significantLeaves.filter (x.site.offset ≤ ·.offset)) ∧
        ∀ k, LeafView.closers (x.site.significantLeaves.take k) ≤
          LeafView.openers (x.site.significantLeaves.take k)) ∧
      Reader.Reads (.ofText source) (.ok (parse source)) ∧
      ∀ fault, ¬ Reader.Reads (.ofText source) (.error fault) := by
  refine ⟨fun x hx => ?_, fun x hx hdeep => ?_, ?_, fun fault hfault => ?_⟩
  · rcases reached_of_mem_spots hx with rfl | h
    · exact Nat.zero_le _
    · exact h.bounded
  · rcases reached_of_mem_spots hx with rfl | h
    · exact absurd hdeep Bool.false_ne_true
    · refine tooDeep_of_reached h ?_ hdeep
      exact hasForm_of_mem_descendants (mem_sites_iff.mpr ⟨x, hx, isNode_of_isTooDeep hdeep, rfl⟩)
  · rw [Reader.reads_iff]
    exact Reader.parse_ofText source
  · rw [Reader.reads_iff, Reader.parse_ofText] at hfault
    exact nomatch hfault

/-- Of 257 brackets that are opened and closed again, the innermost pair is cut off. -/
theorem nesting_bounded_brackets :
    let source := List.replicate 257 '[' ++ List.replicate 257 ']'
    ∃ x ∈ (parse source).spots, x.site.tree.isTooDeep = true ∧ x.depth = Container.maxDepth ∧
      LeafView.IsShortestBalanced x.site.significantLeaves
        ((parse source).significantLeaves.filter (x.site.offset ≤ ·.offset)) := by
  intro source
  have hlength : Container.maxDepth < (Parse.lexemes source).length := by decide +kernel
  have hopeners : ∀ l ∈ (Parse.lexemes source).take (Container.maxDepth + 1),
      l.kind.isOpener = true := by
    decide +kernel
  obtain ⟨x, hx, hdeep⟩ := exists_tooDeep_of_openers hlength hopeners
  have hcut := (nesting_bounded source).2.1 x hx hdeep
  exact ⟨x, hx, hdeep, hcut.1, hcut.2.1⟩

end Maml
