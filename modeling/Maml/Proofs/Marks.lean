import Maml.Proofs.Appearance

/-! The marks that the nodes of a tree call for.

1. What an error says and where is its `mark`; `Site.marks` are those that a node
   calls for by its shape. A node of one kind calls for one sort of mark only
   (`marks_node`), and each sort belongs to one defect (`rangesOf_marks_key` and those
   beside it).
2. A row of drafts calls for what its drafts call for (`rowMarks_cons`), a list
   also for what its skipped elements do (`placeMarks_cons`). -/
namespace Maml

/-! ## Marks -/

/-- What was expected, whether it is missing, and where. -/
abbrev Mark := Expected × Bool × Span

def ParseError.mark (e : ParseError) : Mark := (e.expected, e.isMissing, e.range)

/-- The mark of something missing at an offset, if a test says so. -/
def Mark.gap (test : Bool) (expected : Expected) (offset : Nat) : List Mark :=
  if test then [(expected, true, .empty offset)] else []

/-- The mark of tokens that do not fit, if a test says so. -/
def Mark.stretch (test : Bool) (expected : Expected) (range : Span) : List Mark :=
  if test then [(expected, false, range)] else []

namespace Site

/-- The marks of a node of skipped tokens in the place of a member. -/
def memberMarks (s : Site) : List Mark :=
  (.key, false, s.firstTokenRange) :: Mark.gap s.tree.isBareLiteralKey .value s.stop

/-- The marks that a node calls for by its shape. -/
def marks (s : Site) : List Mark :=
  Mark.gap (s.tree.isUnclosed .object) .rBrace s.stop ++
    Mark.gap (s.tree.isUnclosed .array) .rBracket s.stop ++
    Mark.stretch s.tree.lacksColon .colon s.range ++
    Mark.stretch s.tree.isTooDeep .nestingLimit s.range ++
    Mark.stretch s.tree.isNoValue .value s.range ++
    s.skippedItems.map (fun t => (.value, false, t.range)) ++
    Mark.gap s.tree.lacksValue .value s.stop ++
    s.skippedMembers.flatMap memberMarks ++
    Mark.stretch s.tree.isUnterminatedKey .key s.range ++
    s.skippedBehind.map (fun t => (.eof, false, t.range))

end Site

/-! ## Sorts of marks -/

namespace Mark

/-- The ranges of the marks whose other two parts pass a test. -/
def rangesOf (test : Expected → Bool → Bool) (ms : List Mark) : List Span :=
  (ms.filter fun m => test m.1 m.2.1).map (·.2.2)

variable (test : Expected → Bool → Bool)

@[simp] theorem rangesOf_nil : rangesOf test [] = [] := rfl

@[simp] theorem rangesOf_cons (m : Mark) (ms : List Mark) :
    rangesOf test (m :: ms) = (if test m.1 m.2.1 then [m.2.2] else []) ++ rangesOf test ms := by
  rw [rangesOf, List.filter_cons]
  split <;> rfl

@[simp] theorem rangesOf_append (ms ns : List Mark) :
    rangesOf test (ms ++ ns) = rangesOf test ms ++ rangesOf test ns := by
  rw [rangesOf, List.filter_append, List.map_append]
  rfl

@[simp] theorem rangesOf_flatMap {α : Type} (as : List α) (f : α → List Mark) :
    rangesOf test (as.flatMap f) = as.flatMap fun a => rangesOf test (f a) := by
  rw [rangesOf, List.filter_flatMap, List.map_flatMap]
  rfl

@[simp] theorem rangesOf_map {α : Type} (as : List α) (expected : Expected) (f : α → Span) :
    rangesOf test (as.map fun a => (expected, false, f a)) =
      if test expected false then as.map f else [] := by
  induction as with
  | nil => simp
  | cons a as ih =>
    rw [List.map_cons, rangesOf_cons, ih]
    split <;> rfl

@[simp] theorem rangesOf_gap (present : Bool) (expected : Expected) (offset : Nat) :
    rangesOf test (gap present expected offset) =
      if test expected true && present then [.empty offset] else [] := by
  cases present <;> simp [gap]

@[simp] theorem rangesOf_stretch (present : Bool) (expected : Expected) (range : Span) :
    rangesOf test (stretch present expected range) =
      if test expected false && present then [range] else [] := by
  cases present <;> simp [stretch]

end Mark

theorem flatMap_ite {α β : Type} (test : α → Bool) (f : α → β) (as : List α) :
    (as.flatMap fun a => if test a then [f a] else []) = (as.filter test).map f := by
  induction as with
  | nil => rfl
  | cons a as ih =>
    rw [List.flatMap_cons, ih, List.filter_cons]
    split <;> rfl

theorem rangesOf_marks_closer (s : Site) (c : Container) :
    Mark.rangesOf (fun e _ => e == c.expectedCloser) s.marks =
      if s.tree.isUnclosed c then [.empty s.stop] else [] := by
  cases c <;> simp [Site.marks, Container.expectedCloser, Site.memberMarks]

theorem rangesOf_marks_colon (s : Site) :
    Mark.rangesOf (fun e _ => e == .colon) s.marks =
      if s.tree.lacksColon then [s.range] else [] := by
  simp [Site.marks, Site.memberMarks]

theorem rangesOf_marks_nestingLimit (s : Site) :
    Mark.rangesOf (fun e _ => e == .nestingLimit) s.marks =
      if s.tree.isTooDeep then [s.range] else [] := by
  simp [Site.marks, Site.memberMarks]

theorem rangesOf_marks_noValue (s : Site) :
    Mark.rangesOf (fun e missing => e == .value && !missing) s.marks =
      (if s.tree.isNoValue then [s.range] else []) ++ s.skippedItems.map Site.range := by
  simp [Site.marks, Site.memberMarks]

theorem rangesOf_marks_missingValue (s : Site) :
    Mark.rangesOf (fun e missing => e == .value && missing) s.marks =
      (if s.tree.lacksValue then [.empty s.stop] else []) ++
        (s.skippedMembers.filter (·.tree.isBareLiteralKey)).map (Span.empty ·.stop) := by
  simp [Site.marks, Site.memberMarks, flatMap_ite]

theorem rangesOf_marks_key (s : Site) :
    Mark.rangesOf (fun e _ => e == .key) s.marks =
      s.skippedMembers.map Site.firstTokenRange ++
        if s.tree.isUnterminatedKey then [s.range] else [] := by
  simp [Site.marks, Site.memberMarks, ← List.map_eq_flatMap]

theorem rangesOf_marks_eof (s : Site) :
    Mark.rangesOf (fun e _ => e == .eof) s.marks = s.skippedBehind.map Site.range := by
  simp [Site.marks, Site.memberMarks]

theorem rangesOf_marks_comma (s : Site) :
    Mark.rangesOf (fun e _ => e == .comma) s.marks = [] := by
  simp [Site.marks, Site.memberMarks]

namespace Draft

/-! ## Marks of one node -/

/-- The marks that a document calls for because of what is behind its value. -/
def behindMarks (sites : List Site) : List Mark :=
  (Site.errorsAmong sites).map fun t => (.eof, false, t.range)

/-- The marks that a node of a kind calls for: most kinds have one sort of defect only. -/
def marksAs (s : Site) : NodeKind → List Mark
  | .file => behindMarks s.parts
  | .value | .error => []
  | .object => Mark.gap (s.tree.isUnclosed .object) .rBrace s.stop
  | .members => (Site.errorsNotFollowing false s.parts).flatMap Site.memberMarks
  | .keyValue => Mark.gap s.tree.lacksValue .value s.stop
  | .incompleteKeyValue => Mark.stretch s.tree.lacksColon .colon s.range
  | .key => Mark.stretch s.tree.isUnterminatedKey .key s.range
  | .array => Mark.gap (s.tree.isUnclosed .array) .rBracket s.stop
  | .items => (Site.errorsAmong s.parts).map fun t => (.value, false, t.range)
  | .invalidValue =>
    [(if s.tree.beginsWith (·.isOpener) then .nestingLimit else .value, false, s.range)]

theorem marks_node (o : Nat) (b : List (Option Text)) (kind : NodeKind) (children : List Tree) :
    (⟨o, b, .node (.node kind) children⟩ : Site).marks =
      marksAs ⟨o, b, .node (.node kind) children⟩ kind := by
  -- every sort of mark tests the kind of the node first, so one of them is left for each kind
  cases kind
  all_goals
    simp [Site.marks, marksAs, behindMarks, Mark.gap, Mark.stretch, Tree.isUnclosed,
      Tree.lacksColon, Tree.isTooDeep, Tree.isNoValue, Tree.lacksValue, Tree.isUnterminatedKey,
      Tree.isNodeOf, Site.skippedItems, Site.skippedMembers, Site.skippedBehind,
      Container.nodeKind]
  split <;> simp_all

theorem marks_siteOf_node (o : Nat) (b : List (Option Text)) (kind : NodeKind)
    (before after : Option ParseError) (first : Draft) (rest : List Draft) :
    (siteOf o b (node kind before first rest after)).marks =
      marksAs (siteOf o b (node kind before first rest after)) kind :=
  marks_node _ _ kind _

theorem memberMarks_siteOf {o : Nat} {before after : Option ParseError} {first : Draft}
    {rest : List Draft} (hp : Placed o (first.lexemes ++ lexemesList rest))
    (b : List (Option Text)) :
    (siteOf o b (node .error before first rest after)).memberMarks =
      (.key, false, first.firstToken.span) ::
        Mark.gap (first.isQuotableToken && rest.length == 1 && startsWithColon rest) .value
          (o + Lexeme.sizeList (first.lexemes ++ lexemesList rest)) := by
  have hfirst := firstTokenRange_siteOf (d := node .error before first rest after) hp b
  rw [Site.memberMarks, hfirst, tree_siteOf, isBareLiteralKey_tree hp, stop_siteOf]
  rfl

theorem mark_unexpected {o : Nat} {d : Draft} (hp : Placed o d.lexemes) (expected : Expected) :
    (unexpected expected d.firstToken d.firstToken.span).toList.map ParseError.mark =
      [(expected, false, d.firstToken.span)] :=
  congrArg (fun m => [(expected, m, d.firstToken.span)]) (isEmpty_span_firstToken hp)

theorem mark_missing (expected : Expected) (previous next : Token) :
    (missing expected previous next).toList.map ParseError.mark =
      [(expected, true, .empty previous.span.stop)] :=
  congrArg (fun m => [(expected, m, Span.empty previous.span.stop)]) (beq_self_eq_true _)

/-! ## Marks of rows -/

def rowMarks (o : Nat) (b : List (Option Text)) (ds : List Draft) : List Mark :=
  (Site.nodesOfRow o b (trees ds)).flatMap Site.marks

@[simp] theorem rowMarks_nil (o : Nat) (b : List (Option Text)) : rowMarks o b [] = [] := rfl

theorem rowMarks_cons (o : Nat) (b : List (Option Text)) (d : Draft) (ds : List Draft) :
    rowMarks o b (d :: ds) = rowMarks o b [d] ++
      rowMarks (o + Lexeme.sizeList d.lexemes) (slotsBehind b d) ds := by
  rw [rowMarks, rowMarks, nodesOfRow_trees_cons, nodesOfRow_trees_cons, List.flatMap_append]
  simp [rowMarks, trees, Site.nodesOfRow]

theorem rowMarks_node (o : Nat) (b : List (Option Text)) (kind : NodeKind)
    (before after : Option ParseError) (first : Draft) (rest ds : List Draft) :
    rowMarks o b (node kind before first rest after :: ds) =
      (siteOf o b (node kind before first rest after)).marks ++ rowMarks o b (first :: rest) ++
        rowMarks (o + Lexeme.sizeList (lexemesList (first :: rest)))
          (slotsBehind b (node kind before first rest after)) ds := by
  rw [rowMarks, nodesOfRow_trees_cons, descendants_siteOf_node, List.flatMap_append,
    List.flatMap_cons]
  rfl

theorem rowMarks_leaf (o : Nat) (b : List (Option Text)) (l : Lexeme) (ds : List Draft) :
    rowMarks o b (leaf l :: ds) =
      rowMarks (o + Lexeme.sizeList [l]) (slotsBehind b (leaf l)) ds := by
  rw [rowMarks, nodesOfRow_trees_cons, descendants_siteOf_leaf, List.nil_append]
  rfl

@[simp] theorem rowMarks_map_leaf (o : Nat) (b : List (Option Text)) (ls : List Lexeme) :
    rowMarks o b (ls.map leaf) = [] := by
  induction ls generalizing o b with
  | nil => rfl
  | cons l ls ih => rw [List.map_cons, rowMarks_leaf, ih]

theorem rowMarks_key {o : Nat} {key : Lexeme} (hp : Placed o [key]) (b : List (Option Text))
    (ds : List Draft) :
    rowMarks o b (plain .key (leaf key) [] :: ds) =
      (keyNote key).toList.map ParseError.mark ++
        rowMarks (o + Lexeme.sizeList [key]) (slotsBehind b (plain .key (leaf key) [])) ds := by
  have hrange := range_siteOf (d := plain .key (leaf key) []) hp b
  have hmarks : Mark.stretch (plain .key (leaf key) []).tree.isUnterminatedKey .key
      key.token.span = (keyNote key).toList.map ParseError.mark := by
    have hkey : (plain .key (leaf key) []).tree.isUnterminatedKey =
        (key.kind == .unterminatedString) := by
      rw [Tree.isUnterminatedKey, beginsWith_tree]
      exact Bool.true_and _
    rw [hkey, Mark.stretch, keyNote]
    split
    · exact (mark_unexpected (d := leaf key) hp .key).symm
    · rfl
  rw [plain] at hrange hmarks ⊢
  rw [rowMarks_node, marks_siteOf_node, marksAs, hrange, tree_siteOf, rowMarks_leaf, rowMarks_nil,
    List.append_nil, lexemesList_cons, lexemesList_nil, List.append_nil]
  exact congrArg (· ++ _) hmarks

/-! ## Marks of places -/

def placeMarks : Place → List Site → List Mark
  | .list .array _, sites => (Site.errorsAmong sites).map fun t => (.value, false, t.range)
  | .list .object _, sites => (Site.errorsNotFollowing false sites).flatMap Site.memberMarks
  | _, _ => []

/-- The marks that an element of a list calls for if it is made of skipped tokens. -/
def elementMarks : Container → Site → List Mark
  | .array, s => [(.value, false, s.range)]
  | .object, s => s.memberMarks

theorem placeMarks_cons {o : Nat} {d : Draft} (hd : Placed o d.lexemes)
    (hi : d.isIncomplete = false) (c : Container) (s : Bool) (b : List (Option Text))
    (ds : List Draft) :
    placeMarks (.list c s) (Site.row o b (trees (d :: ds))) =
      (if d.isError then elementMarks c (siteOf o b d) else []) ++
        placeMarks (.list c s)
          (Site.row (o + Lexeme.sizeList d.lexemes) (slotsBehind b d) (trees ds)) := by
  cases c with
  | array =>
    simp only [placeMarks, elementMarks]
    rw [errorsAmong_row, List.map_append]
    split <;> rfl
  | object =>
    simp only [placeMarks, elementMarks]
    rw [errorsNotFollowing_row hd, hi, List.flatMap_append]
    cases d.isError <;> simp

theorem rowMarks_wrap {o : Nat} {b : List (Option Text)} {c : Container} {ds : List Draft}
    (hp : Placed o (lexemesList ds)) (ls : List Lexeme) :
    (rowMarks o b (wrap c.listKind ds ++ ls.map leaf)).Perm
      (rowMarks o b ds ++ placeMarks (.list c true) (Site.row o b (trees ds))) := by
  cases ds with
  | nil =>
    rw [wrap, List.nil_append, rowMarks_map_leaf]
    cases c <;> exact List.Perm.refl _
  | cons d ds =>
    have htrivia := forall_trivia_of_placed (placed_append.mp hp).1
    have hmarks : marksAs (siteOf o b (node c.listKind none d ds none)) c.listKind =
        placeMarks (.list c true) (Site.row o b (trees (d :: ds))) := by
      rw [row_trees_parts o b c.listKind none none]
      cases c with
      | object =>
        rw [placeMarks, errorsNotFollowing_append (isTrivia_of_mem_row htrivia o b)]
        rfl
      | array =>
        rw [placeMarks, errorsAmong_append, errorsAmong_row_tokenLeaf]
        rfl
    -- the node of the list is behind what is in it, where the place of a list comes first
    rw [wrap, plain, List.singleton_append, rowMarks_node, marks_siteOf_node, hmarks,
      rowMarks_map_leaf, List.append_nil]
    exact List.perm_append_comm

end Draft

end Maml
