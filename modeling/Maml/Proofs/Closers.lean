import Maml.Proofs.Forms
import Maml.Proofs.Resolution
import Maml.Proofs.Spots

/-! Closers go to the nearest container they can close.

1. `Around` says which containers are open around a row, and that a closer behind the row
   that one of them waits for ends the innermost of its sort. It passes from a row to the
   rows of its parts (`Around.append`, `Around.node`, `Around.container`).
2. By induction on how the brackets of a row pair up, every closer and every container
   without one is `Settled` (`settled_of_resolved`).
3. So it is in a document (`closers_resolved`). -/
namespace Maml

namespace Draft

/-! ## What is around a row -/

/-- What is open around a row, and what its closers are. -/
structure Around (e : List Container) (around : List Site) (behind : List Lexeme) : Prop where
  /-- No other containers are around the row. -/
  others : ∀ c, c ∉ e → c.nearest? around = none
  /-- A closer behind the row that a container waits for ends the innermost of its sort. -/
  ends : ∀ l ∈ behind.head?, ∀ c ∈ e, l.kind = c.closer →
    (c.nearest? around).bind Site.end? = some l.view

theorem closesAny_eq_false_iff {e : List Container} {c : Container} :
    closesAny e c.closer = false ↔ c ∉ e := by
  have hcloser : ∀ c' : Container, c'.closer = c.closer ↔ c' = c := by
    cases c <;> decide
  simp only [closesAny, List.any_eq_false, beq_iff_eq, hcloser]
  constructor
  · intro h hc
    exact h c hc rfl
  · rintro h c' hc' rfl
    exact h hc'

theorem closesAny_opener (e : List Container) {kind : TokenKind} (h : kind.isOpener = true) :
    closesAny e kind = false := by
  rw [closesAny, List.any_eq_false]
  intro c _
  cases c <;> cases kind <;> simp_all [Container.closer, TokenKind.isOpener]

theorem isOpener_opener (c : Container) : c.opener.isOpener = true := by
  cases c <;> rfl

theorem closesAny_firstLexeme {e : List Container} {behind : List Lexeme} {d : Draft}
    {ds : List Draft} (h : Resolved e behind (d :: ds)) :
    closesAny e d.firstLexeme.kind = false := by
  generalize hrow : d :: ds = row at h
  induction h generalizing d ds with
  | nil => simp at hrow
  | token hl hds ih =>
    obtain ⟨rfl, -⟩ := List.cons.inj hrow
    exact hl
  | tooDeep ho hds ih =>
    obtain ⟨rfl, -⟩ := List.cons.inj hrow
    exact closesAny_opener _ ho
  | @closed e behind c opener inner closer after ds ho hc hinner hds ihinner ih =>
    obtain ⟨rfl, -⟩ := List.cons.inj hrow
    have hopener : opener.kind.isOpener = true := ho ▸ isOpener_opener c
    exact closesAny_opener e hopener
  | @unclosed e behind c opener inner after ds ho hnext hinner hds ihinner ih =>
    obtain ⟨rfl, -⟩ := List.cons.inj hrow
    have hopener : opener.kind.isOpener = true := ho ▸ isOpener_opener c
    exact closesAny_opener e hopener
  | @group e behind kind before first rest after ds hk hparts hds ihparts ih =>
    obtain ⟨rfl, -⟩ := List.cons.inj hrow
    exact ihparts (d := first) rfl

section
variable {e : List Container} {around : List Site} {behind : List Lexeme}

/-- Behind a draft comes the rest of its row, which closes nothing around it. -/
theorem Around.append (h : Around e around behind) {ds : List Draft}
    (hds : Resolved e behind ds) : Around e around (lexemesList ds ++ behind) := by
  refine ⟨h.others, ?_⟩
  cases ds with
  | nil => exact h.ends
  | cons d ds =>
    obtain ⟨ls, hls⟩ := exists_lexemes_eq_cons d
    have hfirst := closesAny_firstLexeme hds
    intro l hl c hc hkind
    obtain rfl : d.firstLexeme = l := by simpa [hls] using hl
    rw [hkind, closesAny_eq_false_iff] at hfirst
    exact absurd hc hfirst

theorem nearest?_cons_of_not {c : Container} {s : Site} (h : s.tree.isNodeOf c.nodeKind = false) :
    c.nearest? (s :: around) = c.nearest? around :=
  List.find?_cons_of_neg (by simp [h])

theorem nearest?_cons {c : Container} {s : Site} (h : s.tree.isNodeOf c.nodeKind = true) :
    c.nearest? (s :: around) = some s :=
  List.find?_cons_of_pos h

/-- A node that is no container opens nothing. -/
theorem Around.node (h : Around e around behind) {s : Site}
    (hs : ∀ c : Container, s.tree.isNodeOf c.nodeKind = false) : Around e (s :: around) behind := by
  constructor
  · intro c hc
    rw [nearest?_cons_of_not (hs c)]
    exact h.others c hc
  · intro l hl c hc hkind
    rw [nearest?_cons_of_not (hs c)]
    exact h.ends l hl c hc hkind

theorem isNodeOf_other {c c' : Container} (hne : c' ≠ c) {t : Tree}
    (ht : t.isNodeOf c.nodeKind = true) : t.isNodeOf c'.nodeKind = false := by
  cases t with
  | leaf => rfl
  | node label children =>
    obtain rfl : label = .node c.nodeKind := by simpa [Tree.isNodeOf] using ht
    cases c <;> cases c' <;> first | exact absurd rfl hne | rfl

/-- In a container, the next closer that anything waits for is its own, or it is none of its sort
and ends something further out. -/
theorem Around.container (h : Around e around behind) {c : Container} {s : Site}
    (hs : s.tree.isNodeOf c.nodeKind = true) {next : List Lexeme}
    (hnext : ∀ l ∈ next.head?, (l.kind = c.closer ∧ s.end? = some l.view) ∨
      (l.kind ≠ c.closer ∧ l ∈ behind.head?)) : Around (c :: e) (s :: around) next := by
  constructor
  · intro c' hc'
    obtain ⟨hne, hc'⟩ : c' ≠ c ∧ c' ∉ e := by simpa using hc'
    rw [nearest?_cons_of_not (isNodeOf_other hne hs)]
    exact h.others c' hc'
  · intro l hl c' hc' hkind
    rcases hnext l hl with ⟨hown, hend⟩ | ⟨hne, hl⟩
    · obtain rfl : c' = c := by
        rw [hown] at hkind
        revert hkind
        cases c <;> cases c' <;> decide
      rw [nearest?_cons hs]
      exact hend
    · have hother : c' ≠ c := by
        rintro rfl
        exact hne hkind
      rw [nearest?_cons_of_not (isNodeOf_other hother hs)]
      exact h.ends l hl c' ((List.mem_cons.mp hc').resolve_left hother) hkind

end

/-! ## Settled parts -/

/-- What becomes of a closer, and of a container without one, among the lexemes `ls`. -/
structure Settled (ls : List Lexeme) (x : Spot) : Prop where
  /-- A closer ends its container, or no container of its sort is around it, or nothing around it
  was looked into. -/
  closer : ∀ c : Container, x.site.tree.isTokenOf c.closer = true →
    (∃ s ∈ x.around.head?, s.tree.isNodeOf c.nodeKind = true ∧ s.parts.getLast? = some x.site) ∨
      c.nearest? x.around = none ∨ x.around.any (·.tree.isTooDeep) = true
  /-- Behind a container without its closer is the end, or the closer of one of the other sort. -/
  unclosed : ∀ c : Container, x.site.tree.isUnclosed c = true → ∃ front back, ls = front ++ back ∧
    x.site.stop = Lexeme.sizeList front ∧ ∀ l ∈ back.head?, ∃ c' : Container, c' ≠ c ∧
      l.kind = c'.closer ∧ (c'.nearest? x.around).bind Site.end? = some l.view

section
variable {ls : List Lexeme}

theorem settled_token {x : Spot} {t : Token} (htree : x.site.tree = tokenLeaf t)
    (ht : ∀ c : Container, t.kind ≠ c.closer) : Settled ls x := by
  constructor
  · intro c hc
    rw [htree] at hc
    exact absurd (by simpa [tokenLeaf, Tree.isTokenOf] using hc) (ht c)
  · intro c hc
    rw [htree] at hc
    simp [tokenLeaf, Tree.isUnclosed, Tree.isNodeOf] at hc

theorem settled_trivia {x : Spot} {d : Draft} {o : Nat} (hp : Placed o d.lexemes)
    (hx : ∃ t ∈ d.trivia, x.site.tree = tokenLeaf t) : Settled ls x := by
  obtain ⟨t, ht, htree⟩ := hx
  have htrivia : t.kind.isTrivia = true := forall_trivia_of_placed hp t ht
  refine settled_token htree ?_
  rintro c hc
  rw [hc] at htrivia
  cases c <;> simp [Container.closer, TokenKind.isTrivia] at htrivia

theorem isNodeOf_of_not_isContainer {kind : NodeKind} (hk : kind.isContainer = false)
    (children : List Tree) (c : Container) :
    (Tree.node (.node kind) children).isNodeOf c.nodeKind = false := by
  cases c <;> cases kind <;> first | rfl | exact absurd hk (by decide)

theorem settled_node {x : Spot} {kind : NodeKind} (hk : kind.isContainer = false)
    {children : List Tree} (htree : x.site.tree = .node (.node kind) children) : Settled ls x := by
  constructor
  · intro c hc
    rw [htree] at hc
    exact absurd hc Bool.false_ne_true
  · intro c hc
    rw [htree, Tree.isUnclosed, isNodeOf_of_not_isContainer hk, Bool.false_and] at hc
    exact absurd hc Bool.false_ne_true

/-- Whether all parts of a draft are settled, wherever it stands among lexemes. -/
def SettledAt (ls : List Lexeme) (e : List Container) (behind : List Lexeme) (d : Draft) : Prop :=
  ∀ around b front, ls = front ++ (d.lexemes ++ behind) → Around e around behind →
    ∀ x ∈ spots around (Lexeme.sizeList front) b d, Settled ls x

/-- Whether all parts of a row are settled, wherever it stands among lexemes. -/
def AllSettled (ls : List Lexeme) (e : List Container) (behind : List Lexeme) (ds : List Draft) :
    Prop :=
  ∀ around b front, ls = front ++ (lexemesList ds ++ behind) → Around e around behind →
    ∀ x ∈ Site.spotsOfRow around (Lexeme.sizeList front) b (trees ds), Settled ls x

variable {e : List Container} {behind : List Lexeme}

theorem allSettled_nil : AllSettled ls e behind [] := by
  intro around b front _ _ x hx
  simp [trees, Site.spotsOfRow] at hx

theorem allSettled_cons (hp : Placed 0 ls) {d : Draft} {ds : List Draft}
    (hd : SettledAt ls e (lexemesList ds ++ behind) d) (hrow : Resolved e behind ds)
    (hds : AllSettled ls e behind ds) : AllSettled ls e behind (d :: ds) := by
  intro around b front hls ha x hx
  rw [lexemesList_cons, List.append_assoc] at hls
  rcases mem_spotsOfRow_cons hx with hx | hx | hx
  · rw [hls] at hp
    exact settled_trivia (placed_append.mp (placed_append.mp hp).2).1 hx.2
  · exact hd around b front hls (ha.append hrow) x hx
  · rw [← Lexeme.sizeList_append] at hx
    exact hds around _ (front ++ d.lexemes) (by rw [hls, List.append_assoc]) ha x hx

theorem settledAt_leaf {l : Lexeme} (hl : closesAny e l.kind = false) :
    SettledAt ls e behind (leaf l) := by
  intro around b front hls ha x hx
  obtain rfl := mem_spots_leaf hx
  constructor
  · intro c hc
    have hkind : l.kind = c.closer := by simpa using hc
    rw [hkind, closesAny_eq_false_iff] at hl
    exact .inr (.inl (ha.others c hl))
  · intro c hc
    exact absurd hc Bool.false_ne_true

theorem settledAt_node {kind : NodeKind} {before after : Option ParseError} {first : Draft}
    {rest : List Draft} (hk : kind.isContainer = false)
    (hparts : AllSettled ls e behind (first :: rest)) :
    SettledAt ls e behind (node kind before first rest after) := by
  intro around b front hls ha x hx
  rcases mem_spots_node hx with rfl | hx
  · exact settled_node hk rfl
  · exact hparts _ b front hls (ha.node (isNodeOf_of_not_isContainer hk _)) x hx

theorem isTooDeep_node (before : Option ParseError) {opener : Lexeme} (rest : List Draft)
    (after : Option ParseError) (ho : opener.kind.isOpener = true) :
    (node .invalidValue before (leaf opener) rest after).tree.isTooDeep = true := by
  rw [Tree.isTooDeep, isNodeOf_node, beginsWith_tree]
  exact ho

/-- In a container nested too deep, nothing was looked into. -/
theorem settledAt_tooDeep {before after : Option ParseError} {opener : Lexeme} {run : List Lexeme}
    (ho : opener.kind.isOpener = true) :
    SettledAt ls e behind (node .invalidValue before (leaf opener) (run.map leaf) after) := by
  intro around b front hls ha x hx
  rcases mem_spots_node hx with rfl | hx
  · exact settled_node rfl rfl
  have hdeep := isTooDeep_node before (run.map leaf) after ho
  rw [← List.map_cons] at hx
  obtain ⟨haround, t, htree⟩ := mem_spotsOfRow_leaves hx
  constructor
  · intro c _
    refine .inr (.inr ?_)
    rw [haround, List.any_cons, tree_siteOf, hdeep, Bool.true_or]
  · intro c hc
    rw [htree] at hc
    exact absurd hc Bool.false_ne_true

/-! ## Settled containers -/

theorem isContainer_listKind (c : Container) : c.listKind.isContainer = false := by
  cases c <;> rfl

theorem closer_injective {c c' : Container} (h : c.closer = c'.closer) : c = c' := by
  revert h
  cases c <;> cases c' <;> decide

theorem allSettled_opened (hp : Placed 0 ls) {c : Container} {opener : Lexeme}
    {inner : List Draft} (ho : opener.kind = c.opener) (hinner : Resolved e behind inner)
    (hsettled : AllSettled ls e behind inner) :
    AllSettled ls e behind (leaf opener :: wrap c.listKind inner) := by
  have hopener : closesAny e opener.kind = false := closesAny_opener e (ho ▸ isOpener_opener c)
  have hk := isContainer_listKind c
  cases inner with
  | nil => exact allSettled_cons hp (settledAt_leaf hopener) .nil allSettled_nil
  | cons d ds =>
    exact allSettled_cons hp (settledAt_leaf hopener) (.group hk hinner .nil)
      (allSettled_cons hp (settledAt_node hk hsettled) .nil allSettled_nil)

theorem isNodeOf_containerNode (c : Container) (opener : Lexeme) (inner : List Draft)
    (closer : Option Lexeme) (after : Option ParseError) :
    (containerNode c opener inner closer after).tree.isNodeOf c.nodeKind = true := by
  rw [containerNode, isNodeOf_node]
  exact beq_self_eq_true _

theorem settledAt_closed (hp : Placed 0 ls) {c : Container} {opener closer : Lexeme}
    {inner : List Draft} (after : Option ParseError) (ho : opener.kind = c.opener)
    (hc : closer.kind = c.closer) (hinner : Resolved (c :: e) (closer :: behind) inner)
    (hsettled : AllSettled ls (c :: e) (closer :: behind) inner) :
    SettledAt ls e behind (containerNode c opener inner (some closer) after) := by
  intro around b front hls ha x hx
  have hs := isNodeOf_containerNode c opener inner (some closer) after
  have hclosed : (containerNode c opener inner (some closer) after).tree.isUnclosed c = false :=
    isUnclosed_containerNode inner ho (by simp [hc]) after
  have hlast := getLast?_parts (Lexeme.sizeList front) b c.nodeKind none after (leaf opener)
    (leaf closer) (wrap c.listKind inner)
  rw [containerNode] at hs hclosed hls hx
  simp only [Option.map_some, Option.toList_some] at hs hclosed hls hx
  have hlexemes : ls = (front ++ lexemesList (leaf opener :: wrap c.listKind inner)) ++
      ([closer] ++ behind) := by
    rw [hls]
    simp [lexemesList_append]
  have hplaced : Placed (0 + Lexeme.sizeList (front ++
      lexemesList (leaf opener :: wrap c.listKind inner))) [closer] := by
    rw [hlexemes] at hp
    exact (placed_append.mp (placed_append.mp hp).2).1
  rw [Nat.zero_add, Lexeme.sizeList_append] at hplaced
  have hend := leaf?_siteOf hplaced (Tree.slotsAfterRow b
    (trees (leaf opener :: wrap c.listKind inner)))
  rcases mem_spots_node hx with rfl | hx
  · -- the container itself has its closer
    constructor
    · intro c' hc'
      exact absurd hc' Bool.false_ne_true
    · intro c' hc'
      by_cases hcc : c' = c
      · subst hcc
        rw [tree_siteOf, hclosed] at hc'
        exact absurd hc' Bool.false_ne_true
      · rw [tree_siteOf, Tree.isUnclosed, isNodeOf_other hcc hs, Bool.false_and] at hc'
        exact absurd hc' Bool.false_ne_true
  have hnext : ∀ l ∈ (closer :: behind).head?, (l.kind = c.closer ∧
      (siteOf (Lexeme.sizeList front) b (node c.nodeKind none (leaf opener)
        (wrap c.listKind inner ++ [leaf closer]) after)).end? = some l.view) ∨
      (l.kind ≠ c.closer ∧ l ∈ behind.head?) := by
    intro l hl
    obtain rfl : closer = l := by simpa using hl
    exact .inl ⟨hc, by rw [Site.end?, hlast]; exact hend⟩
  have haround := ha.container hs hnext
  rw [← List.cons_append] at hx
  rcases mem_spotsOfRow_concat hx with hx | hx | hx
  · have hopened : ls = front ++ (lexemesList (leaf opener :: wrap c.listKind inner) ++
        closer :: behind) := by
      rw [hlexemes, List.append_assoc]
      rfl
    exact allSettled_opened hp ho hinner hsettled _ b front hopened haround x hx
  · exact settled_trivia (d := leaf closer) hplaced hx
  · -- the closer ends the container
    obtain rfl := mem_spots_leaf hx
    constructor
    · intro c' hc'
      have hkind : closer.kind = c'.closer := by simpa using hc'
      obtain rfl : c = c' := closer_injective (hc ▸ hkind)
      exact .inl ⟨_, rfl, hs, hlast⟩
    · intro c' hc'
      exact absurd hc' Bool.false_ne_true

theorem settledAt_unclosed (hp : Placed 0 ls) {c : Container} {opener : Lexeme}
    {inner : List Draft} (after : Option ParseError) (ho : opener.kind = c.opener)
    (hnext : ∀ l ∈ behind.head?, closesAny e l.kind = true ∧ l.kind ≠ c.closer)
    (hinner : Resolved (c :: e) behind inner) (hsettled : AllSettled ls (c :: e) behind inner) :
    SettledAt ls e behind (containerNode c opener inner none after) := by
  intro around b front hls ha x hx
  have hs := isNodeOf_containerNode c opener inner none after
  rw [containerNode] at hs hls hx
  simp only [Option.map_none, Option.toList_none, List.append_nil] at hs hls hx
  rcases mem_spots_node hx with rfl | hx
  · -- what comes next is the closer of something further out
    constructor
    · intro c' hc'
      exact absurd hc' Bool.false_ne_true
    · intro c' hc'
      obtain rfl : c' = c := by
        by_contra hcc
        rw [tree_siteOf, Tree.isUnclosed, isNodeOf_other hcc hs, Bool.false_and] at hc'
        exact absurd hc' Bool.false_ne_true
      refine ⟨_, behind, by rw [hls, List.append_assoc], ?_, ?_⟩
      · rw [stop_siteOf, Lexeme.sizeList_append]
      · intro l hl
        obtain ⟨hany, hne⟩ := hnext l hl
        obtain ⟨c', hc', hkind⟩ := List.any_eq_true.mp hany
        have hkind : l.kind = c'.closer := (beq_iff_eq.mp hkind).symm
        refine ⟨c', ?_, hkind, ha.ends l hl c' hc' hkind⟩
        rintro rfl
        exact hne hkind
  · have haround := ha.container (s := siteOf (Lexeme.sizeList front) b
      (node c.nodeKind none (leaf opener) (wrap c.listKind inner) after)) hs
      fun l hl => .inr ⟨(hnext l hl).2, hl⟩
    exact allSettled_opened hp ho hinner hsettled _ b front hls haround x hx

/-- However brackets pair up, every closer and every container without one is settled. -/
theorem settled_of_resolved (hp : Placed 0 ls) {ds : List Draft} (h : Resolved e behind ds) :
    AllSettled ls e behind ds := by
  induction h with
  | nil => exact allSettled_nil
  | token hl hds ih => exact allSettled_cons hp (settledAt_leaf hl) hds ih
  | tooDeep ho hds ih => exact allSettled_cons hp (settledAt_tooDeep ho) hds ih
  | closed ho hc hinner hds ihinner ih =>
    exact allSettled_cons hp (settledAt_closed hp _ ho hc hinner ihinner) hds ih
  | unclosed ho hnext hinner hds ihinner ih =>
    exact allSettled_cons hp (settledAt_unclosed hp _ ho hnext hinner ihinner) hds ih
  | group hk hparts hds ihparts ih => exact allSettled_cons hp (settledAt_node hk ihparts) hds ih

end

end Draft

/-! ## Forms with closers -/

namespace Container

theorem not_mem_of_separates {c c' : Container} {b : Bool} {text : Text} {ts : List Tree}
    (h : c.separates b ts = true) : Tree.leaf (.token c'.closer) text ∉ ts := by
  induction ts generalizing b with
  | nil => exact List.not_mem_nil
  | cons t ts ih =>
    intro hmem
    rw [separates] at h
    rcases List.mem_cons.mp hmem with rfl | hmem
    · cases c <;> cases c' <;> simp [Tree.isTokenOf, closer, isElement, Tree.isNodeOf] at h
    · split at h
      · exact ih (Bool.and_eq_true_iff.mp h).2 hmem
      · exact ih (Bool.and_eq_true_iff.mp h).2 hmem

theorem eq_of_encloses {c c' : Container} {text : Text} {ts : List Tree}
    (h : c.encloses ts = true) (hmem : Tree.leaf (.token c'.closer) text ∈ ts) : c' = c := by
  unfold encloses at h
  split at h
  case h_4 => exact absurd h Bool.false_ne_true
  all_goals
    simp only [List.mem_cons, List.not_mem_nil, or_false] at hmem
    cases c <;> cases c' <;> grind [Tree.isTokenOf, Tree.isNodeOf, closer, opener]

end Container

/-- A closer is in a container of its sort, or in a node of tokens that do not fit. -/
theorem holds_closer {c : Container} {t u : Tree} (ht : t.hasForm = true) (hu : u ∈ t.children)
    (hc : u.isTokenOf c.closer = true) : t.isNodeOf c.nodeKind = true ∨
      t.isNodeOf .error = true ∨ t.isNodeOf .invalidValue = true := by
  obtain ⟨text, rfl⟩ := exists_eq_leaf_of_isTokenOf hc
  have hsignificant : Tree.leaf (.token c.closer) text ∈ t.significantChildren :=
    List.mem_filter.mpr ⟨hu, by cases c <;> rfl⟩
  unfold Tree.hasForm at ht
  split at ht
  · rename_i kind children
    change _ ∈ children.filter (!·.isTrivia) at hsignificant
    generalize children.filter (!·.isTrivia) = ts at ht hsignificant
    cases kind with
    | object =>
      obtain rfl := Container.eq_of_encloses ht hsignificant
      exact .inl rfl
    | array =>
      obtain rfl := Container.eq_of_encloses ht hsignificant
      exact .inl rfl
    | error => exact .inr (.inl rfl)
    | invalidValue => exact .inr (.inr rfl)
    | members =>
      cases ts with
      | nil => exact absurd hsignificant List.not_mem_nil
      | cons => exact absurd hsignificant (Container.not_mem_of_separates ht)
    | items =>
      cases ts with
      | nil => exact absurd hsignificant List.not_mem_nil
      | cons => exact absurd hsignificant (Container.not_mem_of_separates ht)
    | _ =>
      -- the other kinds have at most three children, none of them a closer
      have hnode (k : NodeKind) : (Tree.leaf (.token c.closer) text).isNodeOf k = false := rfl
      have hcolon : (Tree.leaf (.token c.closer) text).isTokenOf .colon = false := by
        cases c <;> rfl
      have hscalar : (Tree.leaf (.token c.closer) text).isTokenWith (·.isScalar) = false := by
        cases c <;> rfl
      have hkey : (Tree.leaf (.token c.closer) text).isTokenWith Draft.isKey = false := by
        cases c <;> rfl
      unfold NodeKind.admits at ht
      split at ht <;> grind
  · exact absurd ht Bool.false_ne_true

/-! ## Documents -/

open Draft

theorem settled_trailing {ls rest : List Lexeme} {o : Nat} (hp : Placed o rest) {root : Site}
    {b : List (Option Text)} {x : Spot}
    (hx : x ∈ Site.spotsOfRow [root] o b (trees (trailing rest))) :
    Settled ls x ∨ (x.isUnread = true ∧ x.site.tree.isNode = false) := by
  cases rest with
  | nil => simp [trailing, trees, Site.spotsOfRow] at hx
  | cons l rest =>
    have hp : Placed o (trailingError l rest).lexemes := by simpa [trailingError] using hp
    rcases mem_spotsOfRow_cons hx with hx | hx | hx
    · exact .inl (settled_trivia hp hx.2)
    · rcases mem_spots_node hx with rfl | hx
      · exact .inl (settled_node rfl rfl)
      · rw [← List.map_cons] at hx
        obtain ⟨haround, t, htree⟩ := mem_spotsOfRow_leaves hx
        refine .inr ⟨?_, htree ▸ rfl⟩
        rw [Spot.isUnread, haround]
        exact Bool.or_true _
    · simp [trees, Site.spotsOfRow] at hx

/-- Every part of a document is settled, or a token that was not looked into. -/
theorem settled_of_mem_spots {source : Text} {x : Spot} (hx : x ∈ (parse source).spots) :
    Settled (Parse.lexemes source) x ∨ (x.isUnread = true ∧ x.site.tree.isNode = false) := by
  let input := Lexemes.ofTokens (tokenize source) source.size
  have hp : Placed 0 (Parse.lexemes source) := placed_tokenize source
  have hlexemes : lexemesList (documentDrafts input.eof input.lexemes) = Parse.lexemes source :=
    lexemes_documentDrafts _ _
  rcases List.mem_cons.mp hx with rfl | hx
  · exact .inl (settled_node rfl rfl)
  have hroot : ∀ c : Container, (Site.root (parse source).tree).tree.isNodeOf c.nodeKind = false :=
    isNodeOf_of_not_isContainer rfl _
  change x ∈ Site.spotsOfRow [Site.root (parse source).tree] 0 []
    (trees (documentDrafts input.eof input.lexemes) ++ input.trailing.map tokenLeaf) at hx
  generalize Site.root (parse source).tree = root at hx hroot
  rw [spotsOfRow_append] at hx
  rcases List.mem_append.mp hx with hx | hx
  · rcases resolved_documentDrafts input.eof input.lexemes with ⟨d, rest, hdrafts, hd⟩ | hdrafts
    · -- the document's value, and everything behind it
      rw [hdrafts] at hx hlexemes
      rw [lexemesList_cons, lexemesList_trailing] at hlexemes
      have hplaced := placed_append.mp (hlexemes ▸ hp)
      rcases mem_spotsOfRow_cons hx with hx | hx | hx
      · exact .inl (settled_trivia hplaced.1 hx.2)
      · have haround : Around [] [root] rest :=
          ⟨fun c _ => nearest?_cons_of_not (hroot c), by simp⟩
        refine .inl (settled_of_resolved hp hd _ [] [] ?_ haround x ?_)
        · rw [← hlexemes]
          simp
        · rw [trees, spotsOfRow_append, Site.spotsOfRow]
          refine List.mem_append_right _ (List.mem_append_left _ ?_)
          rw [sizeList_map_tokenLeaf]
          exact hx
      · exact settled_trailing hplaced.2 hx
    · rw [hdrafts] at hx
      exact settled_trailing hp hx
  · -- trivia at the end
    obtain ⟨-, t, ht, htree⟩ := mem_spotsOfRow_tokens hx
    have htrivia : t.kind.isTrivia = true := isTrivia_of_mem_trailing _ t ht
    refine .inl (settled_token htree ?_)
    rintro c hc
    rw [hc] at htrivia
    cases c <;> simp [Container.closer, TokenKind.isTrivia] at htrivia

/-- Closers go to the nearest container they can close. A closer that was looked into ends a
container of its sort, or it is among tokens that do not fit and no container of its sort is around
it. Behind a container without its closer comes the end of the document, or the closer of one of the
other sort, which ends the nearest around it. -/
theorem closers_resolved (source : Text) :
    (∀ x ∈ (parse source).spots, ∀ c : Container, x.site.tree.isTokenOf c.closer = true →
      x.isUnread = false → ∃ s ∈ x.around.head?,
        (s.tree.isNodeOf c.nodeKind = true ∧ s.parts.getLast? = some x.site) ∨
        ((s.tree.isNodeOf .error = true ∨ s.tree.isNodeOf .invalidValue = true) ∧
          c.nearest? x.around = none)) ∧
    ∀ x ∈ (parse source).spots, ∀ c : Container, x.site.tree.isUnclosed c = true →
      ∀ l, (parse source).leafBehind? x.site.stop = some l → ∃ c' : Container, c' ≠ c ∧
        l.label = .token c'.closer ∧ (c'.nearest? x.around).bind Site.end? = some l := by
  constructor
  · intro x hx c hc hread
    have hleaf : x.site.tree.isNode = false := by
      obtain ⟨text, htree⟩ := exists_eq_leaf_of_isTokenOf hc
      rw [htree]
      rfl
    obtain ⟨s, outer, haround, hs, hpart⟩ := parent_of_mem_spots hx hleaf
    have hform := holds_closer (hasForm_of_mem_descendants hs) (Site.tree_mem_of_mem_row hpart) hc
    have hdeep : x.around.any (·.tree.isTooDeep) = false := (Bool.or_eq_false_iff.mp hread).1
    rw [haround, List.head?_cons]
    refine ⟨s, rfl, ?_⟩
    rcases settled_of_mem_spots hx with hsettled | ⟨hunread, -⟩
    · rcases hsettled.closer c hc with ⟨s', hs', hown⟩ | hnone | htrue
      · obtain rfl : s = s' := by simpa [haround] using hs'
        exact .inl hown
      · -- nothing of its sort is around, so the node it is in is none either
        have hnot : s.tree.isNodeOf c.nodeKind = false := by
          rw [haround, Container.nearest?, List.find?_eq_none] at hnone
          simpa using hnone s List.mem_cons_self
        rw [← haround]
        exact .inr ⟨hform.resolve_left (by simp [hnot]), hnone⟩
      · rw [hdeep] at htrue
        exact absurd htrue Bool.false_ne_true
    · rw [hread] at hunread
      exact absurd hunread Bool.false_ne_true
  · intro x hx c hc l hl
    rcases settled_of_mem_spots hx with hsettled | ⟨-, hleaf⟩
    · obtain ⟨front, back, hlexemes, hstop, hnext⟩ := hsettled.unclosed c hc
      rw [hstop, Parse.leafBehind?_parse hlexemes] at hl
      obtain ⟨m, hm, rfl⟩ := Option.map_eq_some_iff.mp hl
      obtain ⟨c', hne, hkind, hend⟩ := hnext m hm
      exact ⟨c', hne, congrArg Label.token hkind, hend⟩
    · obtain ⟨around, o, b, t⟩ := x
      cases t with
      | leaf => exact absurd hc Bool.false_ne_true
      | node => exact absurd hleaf Bool.false_ne_true.symm

/-- In `[},{]` the brace that closes nothing and the bracket behind the object without a closer are
where they belong. -/
theorem closers_resolved_in_array :
    (∃ x ∈ (parse ['[', '}', ',', '{', ']']).spots,
      x.site.tree.isTokenOf Container.object.closer = true ∧ x.isUnread = false ∧
      ∃ s ∈ x.around.head?,
        (s.tree.isNodeOf .object = true ∧ s.parts.getLast? = some x.site) ∨
        ((s.tree.isNodeOf .error = true ∨ s.tree.isNodeOf .invalidValue = true) ∧
          Container.object.nearest? x.around = none)) ∧
    ∃ x ∈ (parse ['[', '}', ',', '{', ']']).spots, x.site.tree.isUnclosed .object = true ∧
      ∃ l, (parse ['[', '}', ',', '{', ']']).leafBehind? x.site.stop = some l ∧
        ∃ c' : Container, c' ≠ .object ∧ l.label = .token c'.closer ∧
          (c'.nearest? x.around).bind Site.end? = some l := by
  obtain ⟨hcloser, hunclosed⟩ := closers_resolved ['[', '}', ',', '{', ']']
  constructor
  · refine ⟨(parse ['[', '}', ',', '{', ']']).spots.get ⟨7, by decide +kernel⟩, List.get_mem ..,
      by decide +kernel, by decide +kernel, ?_⟩
    exact hcloser _ (List.get_mem ..) .object (by decide +kernel) (by decide +kernel)
  · refine ⟨(parse ['[', '}', ',', '{', ']']).spots.get ⟨10, by decide +kernel⟩, List.get_mem ..,
      by decide +kernel, ⟨4, .token .rBracket, [']']⟩, by decide +kernel, ?_⟩
    exact hunclosed _ (List.get_mem ..) .object (by decide +kernel) _ (by decide +kernel)

end Maml
