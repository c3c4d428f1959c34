import Maml.Proofs.Marks

/-! What is noted in reading is what the tree calls for.

A row is `Accounted` for if the errors noted in it are the marks that its nodes and
its place call for, each once. So is every form that can be read: values
(`accounted_container` and those before it), the elements of a list, and keys
without a colon, behind which skipped tokens call for nothing
(`accounted_incomplete`). An induction over the forms puts these together
(`accounted_of_shaped`). -/
namespace Maml.Draft

/-- Whether the errors noted in a row are those that it calls for in its place. -/
def Accounted (place : Place) (ds : List Draft) : Prop :=
  ∀ o b, Placed o (lexemesList ds) →
    ((errorsList ds).map ParseError.mark).Perm
      (rowMarks o b ds ++ placeMarks place (Site.row o b (trees ds)))

/-! ## Values -/

theorem accounted_plain_value {first : Draft}
    (h : ∀ o b, Placed o first.lexemes →
      (first.errors.map ParseError.mark).Perm (rowMarks o b [first])) :
    Accounted .value [plain .value first []] := by
  intro o b hp
  have hfirst : Placed o first.lexemes := by simpa using hp
  rw [plain, rowMarks_node, marks_siteOf_node]
  simpa [marksAs, placeMarks] using h o b hfirst

theorem accounted_leaf_value (l : Lexeme) : Accounted .value [plain .value (leaf l) []] :=
  accounted_plain_value fun o b _ => by simp [rowMarks_leaf]

theorem accounted_invalidValue {before after : Option ParseError} {l : Lexeme} (ls : List Lexeme)
    {e : ParseError} (he : before.toList ++ after.toList = [e]) (hexpected : e.expected =
      if l.kind.isOpener then .nestingLimit else .value)
    (hrange : ∀ o, Placed o (l :: ls) →
      e.range = ⟨l.token.span.start, (lastTokenFrom l.token (ls.map leaf)).span.stop⟩) :
    Accounted .value [plain .value (node .invalidValue before (leaf l) (ls.map leaf) after) []] := by
  apply accounted_plain_value
  intro o b hp
  have hlexemes : (node .invalidValue before (leaf l) (ls.map leaf) after).lexemes = l :: ls := by
    simp
  have hr := range_siteOf hp b
  have hne := isEmpty_range hp
  rw [hlexemes] at hp
  have hmark : e.mark = (if l.kind.isOpener then .nestingLimit else .value, false,
      (siteOf o b (node .invalidValue before (leaf l) (ls.map leaf) after)).range) := by
    rw [ParseError.mark, ParseError.isMissing, hexpected, hr, hrange o hp]
    exact Prod.ext rfl (Prod.ext hne rfl)
  have herrors : (node .invalidValue before (leaf l) (ls.map leaf) after).errors = [e] := by
    simpa using he
  have hrow : rowMarks o b (leaf l :: ls.map leaf) = [] := rowMarks_map_leaf o b (l :: ls)
  rw [rowMarks_node, marks_siteOf_node, marksAs, herrors, tree_siteOf, beginsWith_tree, hrow,
    List.map_singleton, hmark]
  exact List.Perm.refl _

theorem accounted_invalid {l : Lexeme} (hl : l.kind.startsValue = false) :
    Accounted .value [single l] := by
  obtain ⟨ho, hs⟩ := Bool.or_eq_false_iff.mp hl
  rw [single, if_neg (by simp [hs])]
  refine accounted_invalidValue [] (e := .ofToken .value l.token l.token.span) rfl ?_ ?_
  · rw [if_neg (by simp [ho])]
    rfl
  · exact fun _ _ => rfl

theorem accounted_signed {plus number : Lexeme}
    (h : isSignedNumber plus.token number.token = true) : Accounted .value [signed plus number] := by
  have hplus : plus.kind = .badCharacter := (isSignedNumber_eq_true.mp h).1
  refine accounted_invalidValue [number]
    (e := .ofToken .value plus.token (plus.token.span.cover number.token.span)) rfl ?_ ?_
  · rw [hplus]
    rfl
  · -- the number is directly behind the plus sign, so the cover is from end to end
    intro o hp
    obtain ⟨hp₁, hp₂⟩ := placed_append.mp (show Placed o ([plus] ++ [number]) from hp)
    exact cover_of_isSignedNumber h (ordered_firstToken (d := leaf plus) hp₁)
      (ordered_firstToken (d := leaf number) hp₂)

theorem accounted_tooDeep {opener : Lexeme} {run : List Lexeme}
    (ho : opener.kind.isOpener = true) : Accounted .value [tooDeep opener run] := by
  refine accounted_invalidValue run (e := .ofToken .nestingLimit opener.token _) rfl ?_ fun _ _ => rfl
  rw [if_pos ho]
  rfl

theorem accounted_containerNode {c : Container} {opener : Lexeme} {ds : List Draft}
    {closer : Option Lexeme} {after : Option ParseError} (ho : opener.kind = c.opener)
    (hc : ∀ l ∈ closer, l.kind = c.closer) (h : Accounted (.list c true) ds)
    (hafter : ∀ o, Placed o (containerNode c opener ds closer after).lexemes →
      after.toList.map ParseError.mark = Mark.gap closer.isNone c.expectedCloser
        (o + Lexeme.sizeList (containerNode c opener ds closer after).lexemes)) :
    Accounted .value [plain .value (containerNode c opener ds closer after) []] := by
  apply accounted_plain_value
  intro o b hp
  have hmarks : (siteOf o b (containerNode c opener ds closer after)).marks =
      after.toList.map ParseError.mark := by
    have hunclosed := isUnclosed_containerNode ds ho hc after
    rw [hafter o hp, ← stop_siteOf o b, ← hunclosed, containerNode, marks_siteOf_node]
    cases c <;> rfl
  rw [lexemes_containerNode] at hp
  have hinside : Placed (o + Lexeme.sizeList [opener]) (lexemesList ds) :=
    (placed_append.mp (placed_append.mp (show Placed o ([opener] ++ _) from hp)).2).1
  have hlist := h _ (slotsBehind b (leaf opener)) hinside
  have hwrap := rowMarks_wrap (b := slotsBehind b (leaf opener)) (c := c) hinside closer.toList
  have hcloser : (closer.map leaf).toList = closer.toList.map leaf := by
    cases closer <;> rfl
  rw [errors_containerNode, List.map_append]
  rw [containerNode] at hmarks ⊢
  rw [rowMarks_node, hmarks, rowMarks_leaf, hcloser, rowMarks_nil, List.append_nil]
  -- the note of a missing closer comes last, and the node that calls for it first
  exact List.perm_append_comm.trans ((hlist.trans hwrap.symm).append_left _)

theorem accounted_container {c : Container} {opener : Lexeme} {ds : List Draft}
    {closer : Option Lexeme} (next : Token) (ho : opener.kind = c.opener)
    (hc : ∀ l ∈ closer, l.kind = c.closer) (h : Accounted (.list c true) ds) :
    Accounted .value [container c opener ds closer next] := by
  apply accounted_containerNode ho hc h
  intro o hp
  cases closer with
  | some l => rfl
  | none =>
    have hstop := stop_lastToken hp
    have hmark := mark_missing c.expectedCloser
      (lastTokenFrom opener.token (wrap c.listKind ds ++ [])) next
    have hlast : (containerNode c opener ds none none).lastToken =
        lastTokenFrom opener.token (wrap c.listKind ds ++ []) := rfl
    rw [← hlast] at hmark
    rw [← hstop]
    exact hmark

/-! ## Rows -/

theorem accounted_leaf (l : Lexeme) : Accounted .value [leaf l] := by
  intro o b _
  rw [rowMarks_leaf]
  exact List.Perm.refl _

theorem accounted_skippedNil : Accounted .skipped [] := by
  intro o b _
  exact List.Perm.refl _

theorem accounted_skipped_cons {d : Draft} {ds : List Draft} (hd : Accounted .value [d])
    (hds : Accounted .skipped ds) : Accounted .skipped (d :: ds) := by
  intro o b hp
  rw [lexemesList_cons] at hp
  obtain ⟨hp₁, hp₂⟩ := placed_append.mp hp
  have h₁ := hd o b (by simpa using hp₁)
  have h₂ := hds _ (slotsBehind b d) hp₂
  rw [rowMarks_cons, errorsList_cons, List.map_append]
  simp only [placeMarks, List.append_nil, errorsList_cons, errorsList_nil] at h₁ h₂ ⊢
  exact h₁.append h₂

/-! ## Lists -/

theorem accounted_list_nil (c : Container) (s : Bool) : Accounted (.list c s) [] := by
  intro o b _
  cases c <;> exact List.Perm.refl _

theorem accounted_list_cons {c : Container} {s s' : Bool} {d : Draft} {ds : List Draft}
    (hi : d.isIncomplete = false)
    (hd : ∀ o b, Placed o d.lexemes → (d.errors.map ParseError.mark).Perm
      (rowMarks o b [d] ++ if d.isError then elementMarks c (siteOf o b d) else []))
    (hds : Accounted (.list c s) ds) : Accounted (.list c s') (d :: ds) := by
  intro o b hp
  rw [lexemesList_cons] at hp
  obtain ⟨hp₁, hp₂⟩ := placed_append.mp hp
  have h₁ := hd o b hp₁
  have h₂ := hds _ (slotsBehind b d) hp₂
  have hplace := placeMarks_cons hp₁ hi c s' b ds
  have hsame : placeMarks (.list c s') (Site.row (o + Lexeme.sizeList d.lexemes) (slotsBehind b d)
      (trees ds)) = placeMarks (.list c s) (Site.row (o + Lexeme.sizeList d.lexemes)
      (slotsBehind b d) (trees ds)) := by
    cases c <;> rfl
  rw [rowMarks_cons, errorsList_cons, List.map_append, hplace, hsame]
  -- both say the same, only what the place calls for comes after all nodes on one side
  apply (h₁.append h₂).trans
  simp only [List.append_assoc]
  exact (List.perm_append_comm_assoc _ _ _).append_left _

theorem accounted_element {c : Container} {s s' : Bool} {d : Draft} {ds : List Draft}
    (he : d.isError = false) (hi : d.isIncomplete = false) (hd : Accounted .value [d])
    (hds : Accounted (.list c s) ds) : Accounted (.list c s') (d :: ds) := by
  apply accounted_list_cons hi ?_ hds
  intro o b hp
  simpa [placeMarks, he] using hd o b (by simpa using hp)

theorem accounted_comma {c : Container} {l : Lexeme} {ds : List Draft}
    (hds : Accounted (.list c true) ds) : Accounted (.list c false) (leaf l :: ds) :=
  accounted_element rfl rfl (accounted_leaf l) hds

theorem accounted_item {e : List Container} {d : Draft} {ds : List Draft} (s : Bool)
    (hs : Shaped e .value [d]) (hd : Accounted .value [d])
    (hds : Accounted (.list .array false) ds) : Accounted (.list .array s) (d :: ds) := by
  obtain ⟨first, rfl⟩ := exists_plain_of_shaped hs
  exact accounted_element rfl rfl hd hds

/-- A node of skipped tokens notes a missing key where it begins, and perhaps a missing value where
it ends. -/
theorem accounted_error {c : Container} {s s' : Bool} {before after : Option ParseError}
    {first : Draft} {rest ds : List Draft} (hskipped : Accounted .skipped (first :: rest))
    (hmarks : ∀ o b, Placed o (first.lexemes ++ lexemesList rest) →
      before.toList.map ParseError.mark ++ after.toList.map ParseError.mark =
        elementMarks c (siteOf o b (node .error before first rest after)))
    (hds : Accounted (.list c s) ds) :
    Accounted (.list c s') (node .error before first rest after :: ds) := by
  apply accounted_list_cons rfl ?_ hds
  intro o b hp
  rw [lexemes_node] at hp
  have hparts := hskipped o b hp
  simp only [placeMarks, List.append_nil, errorsList_cons] at hparts
  rw [rowMarks_node, marks_siteOf_node, marksAs, isError, if_pos rfl, ← hmarks o b hp,
    errors_node, rowMarks_nil, List.append_nil, List.nil_append]
  simp only [List.map_append] at hparts ⊢
  calc
    _ = before.toList.map ParseError.mark ++
        ((first.errors.map ParseError.mark ++ (errorsList rest).map ParseError.mark) ++
          after.toList.map ParseError.mark) := by simp only [List.append_assoc]
    List.Perm _ (before.toList.map ParseError.mark ++
        (rowMarks o b (first :: rest) ++ after.toList.map ParseError.mark)) :=
      (hparts.append_right _).append_left _
    List.Perm _ _ := List.perm_append_comm_assoc _ _ _

theorem accounted_stray {c : Container} {l : Lexeme} {ds : List Draft}
    (hds : Accounted (.list c false) ds) :
    Accounted (.list c true) (strayComma c.expectedElement (leaf l) :: ds) := by
  have hskipped := accounted_skipped_cons (accounted_leaf l) accounted_skippedNil
  apply accounted_error hskipped ?_ hds
  intro o b hp
  have hmark := mark_unexpected (placed_append.mp hp).1 c.expectedElement
  rw [hmark]
  cases c with
  | array =>
    have hrange := range_siteOf (d := strayComma Container.array.expectedElement (leaf l)) hp b
    rw [strayComma] at hrange
    rw [elementMarks, hrange]
    rfl
  | object =>
    rw [elementMarks, memberMarks_siteOf hp]
    simp [Mark.gap, startsWithColon, Container.expectedElement]

/-! ## Members -/

theorem mark_note {e : List Container} {o : Nat} {front colon : Lexeme}
    {note : Option ParseError} {value : List Draft}
    (hs : Shaped e (.behindColon colon note) value)
    (hp : Placed o ([front] ++ lexemesList (leaf colon :: value))) :
    note.toList.map ParseError.mark = Mark.gap value.isEmpty .value
      (o + Lexeme.sizeList ([front] ++ lexemesList (leaf colon :: value))) := by
  rcases shaped_behindColon hs with ⟨next, rfl, rfl⟩ | ⟨d, rfl, rfl, _⟩
  · have hstop := stop_lastToken (d := node .keyValue none (leaf front) [leaf colon] none) hp
    rw [mark_missing]
    rw [lexemes_node] at hstop
    exact congrArg (fun n => [(Expected.value, true, Span.empty n)]) hstop
  · rfl

theorem accounted_keyValue {e : List Container} {s : Bool} {key colon : Lexeme}
    {note : Option ParseError} {value ds : List Draft}
    (hs : Shaped e (.behindColon colon note) value)
    (hv : Accounted (.behindColon colon note) value) (hds : Accounted (.list .object false) ds) :
    Accounted (.list .object s)
      (node .keyValue (keyNote key) (plain .key (leaf key) []) (leaf colon :: value) note :: ds) := by
  apply accounted_element rfl rfl ?_ hds
  intro o b hp
  rw [lexemesList_cons, lexemes_node, lexemes_plain, lexemes_leaf, lexemesList_nil, List.append_nil,
    List.append_nil] at hp
  have hvalue := accounted_skipped_cons (accounted_leaf colon) hv _
    (slotsBehind b (plain .key (leaf key) [])) (placed_append.mp hp).2
  have hmarks : marksAs (siteOf o b (node .keyValue (keyNote key) (plain .key (leaf key) [])
      (leaf colon :: value) note)) .keyValue = note.toList.map ParseError.mark := by
    rw [marksAs, tree_siteOf, lacksValue_keyValue hs, stop_siteOf, mark_note hs hp]
    simp
  have herrors : (errorsList [node .keyValue (keyNote key) (plain .key (leaf key) [])
      (leaf colon :: value) note]).map ParseError.mark =
      ((keyNote key).toList.map ParseError.mark ++
        (errorsList (leaf colon :: value)).map ParseError.mark) ++
        note.toList.map ParseError.mark := by
    simp
  simp only [placeMarks, List.append_nil] at hvalue ⊢
  rw [rowMarks_node, marks_siteOf_node, hmarks, rowMarks_key (placed_append.mp hp).1, rowMarks_nil,
    List.append_nil, herrors]
  exact ((hvalue.append_left _).append_right _).trans List.perm_append_comm

theorem accounted_literalKey {e : List Container} {s : Bool} {key colon : Lexeme}
    {note : Option ParseError} {value ds : List Draft} (hk : isQuotable key.kind = true)
    (hc : colon.kind = .colon) (hs : Shaped e (.behindColon colon note) value)
    (hv : Accounted (.behindColon colon note) value) (hds : Accounted (.list .object false) ds) :
    Accounted (.list .object s) (node .error (unexpected .key key.token key.token.span) (leaf key)
      (leaf colon :: value) note :: ds) := by
  have hskipped := accounted_skipped_cons (accounted_leaf key)
    (accounted_skipped_cons (accounted_leaf colon) hv)
  apply accounted_error hskipped ?_ hds
  intro o b hp
  have hbare : ((leaf key).isQuotableToken && (leaf colon :: value).length == 1 &&
      startsWithColon (leaf colon :: value)) = value.isEmpty := by
    have hquote : (leaf key).isQuotableToken = true := hk
    have hcolon : startsWithColon (leaf colon :: value) = true := by
      simp [startsWithColon, isToken, hc]
    rw [hquote, hcolon]
    cases value <;> rfl
  rw [elementMarks, memberMarks_siteOf hp, hbare, lexemes_leaf, ← mark_note hs hp]
  exact congrArg (· ++ _) (mark_unexpected (placed_append.mp hp).1 .key)

theorem accounted_junk {s : Bool} {first : Draft} {rest ds : List Draft}
    (hq : first.isQuotableToken = true → startsWithColon rest = false)
    (hskipped : Accounted .skipped (first :: rest)) (hds : Accounted (.list .object false) ds) :
    Accounted (.list .object s) (junk first rest :: ds) := by
  apply accounted_error hskipped ?_ hds
  intro o b hp
  have hbare : (first.isQuotableToken && rest.length == 1 && startsWithColon rest) = false := by
    cases hquote : first.isQuotableToken with
    | false => rfl
    | true => rw [hq hquote, Bool.and_false]
  rw [elementMarks, memberMarks_siteOf hp, hbare, mark_unexpected (placed_append.mp hp).1]
  rfl

/-! ## Keys without a colon -/

theorem isKeyStart_of_isKey : ∀ {kind : TokenKind}, isKey kind = true →
    kind.isKeyStart = !(kind == .unterminatedString) := by
  decide

/-- A key without a colon says so where it stands, unless its closing quote is missing. -/
theorem accounted_incomplete_node {key : Lexeme} (next : Token) (hk : isKey key.kind = true) :
    Accounted .value [incomplete key next] := by
  intro o b hp
  have hp : Placed o [key] := by simpa [incomplete] using hp
  have hrange := range_siteOf (d := incomplete key next) (by simpa [incomplete] using hp) b
  have hmarks : marksAs (siteOf o b (incomplete key next)) .incompleteKeyValue =
      (colonNote key next).toList.map ParseError.mark := by
    have hcolon : (incomplete key next).tree.lacksColon = !(key.kind == .unterminatedString) := by
      rw [Tree.lacksColon, beginsWith_tree, ← isKeyStart_of_isKey hk]
      exact Bool.true_and _
    have hne : key.token.span.isEmpty = false := isEmpty_span_firstToken (d := leaf key) hp
    rw [marksAs, tree_siteOf, hcolon, hrange, Mark.stretch, colonNote]
    cases key.kind == .unterminatedString with
    | true => rfl
    | false => exact congrArg (fun m => [(Expected.colon, m, key.token.span)]) hne.symm
  rw [incomplete] at hmarks ⊢
  rw [rowMarks_node, marks_siteOf_node, hmarks, rowMarks_key hp, rowMarks_nil, rowMarks_nil,
    List.append_nil, List.append_nil]
  simpa [placeMarks] using List.perm_append_comm

/-- Behind a key without a colon, a node of skipped tokens calls for nothing. -/
theorem accounted_incomplete {s : Bool} {key : Lexeme} {ds : List Draft} (next : Token)
    (hk : isKey key.kind = true)
    (hds : ∀ o b, Placed o (lexemesList ds) → ((errorsList ds).map ParseError.mark).Perm
      (rowMarks o b ds ++
        (Site.errorsNotFollowing true (Site.row o b (trees ds))).flatMap Site.memberMarks)) :
    Accounted (.list .object s) (incomplete key next :: ds) := by
  intro o b hp
  rw [lexemesList_cons] at hp
  obtain ⟨hp₁, hp₂⟩ := placed_append.mp hp
  have h₁ := accounted_incomplete_node next hk o b (by simpa using hp₁)
  have h₂ := hds _ (slotsBehind b (incomplete key next)) hp₂
  rw [rowMarks_cons, placeMarks, errorsNotFollowing_row hp₁]
  simp only [placeMarks, List.append_nil, errorsList_cons, errorsList_nil, List.map_append] at h₁ ⊢
  rw [List.append_assoc]
  exact h₁.append h₂

theorem accounted_incomplete_alone {s : Bool} {key : Lexeme} {ds : List Draft} (next : Token)
    (hk : isKey key.kind = true) (hne : ∀ d ∈ ds.head?, d.isError = false)
    (hds : Accounted (.list .object false) ds) :
    Accounted (.list .object s) (incomplete key next :: ds) := by
  apply accounted_incomplete next hk
  intro o b hp
  have hsame : Site.errorsNotFollowing true (Site.row o b (trees ds)) =
      Site.errorsNotFollowing false (Site.row o b (trees ds)) := by
    cases ds with
    | nil => rfl
    | cons d ds =>
      rw [lexemesList_cons] at hp
      have hd := (placed_append.mp hp).1
      rw [errorsNotFollowing_row hd, errorsNotFollowing_row hd, hne d rfl]
      rfl
  rw [hsame]
  exact hds o b hp

theorem accounted_incomplete_skipped {s : Bool} {key : Lexeme} {first : Draft}
    {rest ds : List Draft} (next : Token) (hk : isKey key.kind = true)
    (hskipped : Accounted .skipped (first :: rest)) (hds : Accounted (.list .object false) ds) :
    Accounted (.list .object s) (incomplete key next :: plain .error first rest :: ds) := by
  apply accounted_incomplete next hk
  intro o b hp
  rw [lexemesList_cons] at hp
  obtain ⟨hp₁, hp₂⟩ := placed_append.mp hp
  have h₁ := hskipped o b (by simpa using hp₁)
  have h₂ := hds _ (slotsBehind b (plain .error first rest)) hp₂
  rw [errorsNotFollowing_row hp₁, plain, rowMarks_node, marks_siteOf_node, marksAs]
  simp only [placeMarks, List.append_nil] at h₁ h₂
  have herrors : errorsList (plain .error first rest :: ds) =
      errorsList (first :: rest) ++ errorsList ds := by
    simp
  rw [← plain, herrors, List.map_append, List.nil_append, List.append_assoc]
  exact h₁.append h₂

/-! ## Everything that can be read -/

/-- Whatever is read, the errors noted in it are those that its nodes call for. -/
theorem accounted_of_shaped {e : List Container} {place : Place} {ds : List Draft}
    (h : Shaped e place ds) : Accounted place ds := by
  induction h with
  | scalar hl => exact accounted_leaf_value _
  | invalid hl => exact accounted_invalid hl
  | signed h => exact accounted_signed h
  | tooDeep ho he => exact accounted_tooDeep ho
  | container next ho he hc hds ih => exact accounted_container next ho hc ih
  | nil => exact accounted_list_nil _ _
  | comma hl hds ih => exact accounted_comma ih
  | stray hl hds ih => exact accounted_stray ih
  | item hd hds ihd ihds => exact accounted_item _ hd ihd ihds
  | keyValue hk hc hv hds ihv ihds => exact accounted_keyValue hv ihv ihds
  | incomplete hk hne hds ih => exact accounted_incomplete_alone _ hk hne ih
  | incompleteSkipped hk hs hds ihs ih => exact accounted_incomplete_skipped _ hk ihs ih
  | literalKey hk hc hv hds ihv ihds => exact accounted_literalKey hk hc hv ihv ihds
  | junk hs hq hds ihs ih => exact accounted_junk hq ihs ih
  | missing => exact accounted_skippedNil
  | present hd ih => exact ih
  | skippedNil => exact accounted_skippedNil
  | skippedToken hl ho hds ih => exact accounted_skipped_cons (accounted_leaf _) ih
  | skippedValue hd hds ihd ih => exact accounted_skipped_cons ihd ih

end Maml.Draft
