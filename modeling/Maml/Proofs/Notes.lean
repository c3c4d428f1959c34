import Maml.Proofs.Spots

/-! Where notes are.

1. What is noted at a node marks a gap, or it begins where the node does and, unless it
   asks for a colon, names the token there (`names_of_mem_notes`). So the errors of a row
   mark gaps or begin where one of its tokens does (`start_of_mem_errorsList`).
2. The nodes at and below a node are a block of all nodes in order: those in front of
   the block begin no later than the node, and those behind it begin where the node ends
   or later (`blockIn_standings`).
3. So an error of a document that covers something inside a node, behind its first token,
   is noted at or below that node (`filter_errors_parse`). -/
namespace Maml

namespace Draft

/-! ## Beginnings of notes -/

/-- Whether an error marks a gap or begins at an offset. -/
def BeginsAt (offset : Nat) (err : ParseError) : Prop :=
  err.isMissing = true ∨ err.range.start = offset

/-- Whether an error marks a gap, or begins where a token does and, unless it asks for a colon,
names that token. -/
def Names (t : Token) (err : ParseError) : Prop :=
  err.isMissing = true ∨ err.range.start = t.span.start ∧
    (err.expected = .colon ∨ err.foundKind = t.kind ∧ err.foundText = t.text)

theorem Names.beginsAt {t : Token} {err : ParseError} (h : Names t err) :
    BeginsAt t.span.start err :=
  h.imp_right And.left

theorem names_unexpected {expected : Expected} {found : Token} {range : Span}
    (h : range.start = found.span.start) :
    ∀ err ∈ (unexpected expected found range).toList, Names found err := by
  intro err herr
  obtain rfl : err = .ofToken expected found range := by simpa [unexpected] using herr
  exact .inr ⟨h, .inr ⟨rfl, rfl⟩⟩

theorem isMissing_of_mem_missing {expected : Expected} {previous next : Token} :
    ∀ err ∈ (missing expected previous next).toList, err.isMissing = true := by
  intro err herr
  obtain rfl : err = .ofToken expected next (.empty previous.span.stop) := by
    simpa [missing] using herr
  exact beq_self_eq_true _

theorem names_missing {t : Token} {expected : Expected} {previous next : Token} :
    ∀ err ∈ (missing expected previous next).toList, Names t err :=
  fun err herr => .inl (isMissing_of_mem_missing err herr)

theorem names_keyNote (key : Lexeme) : ∀ err ∈ (keyNote key).toList, Names key.token err := by
  unfold keyNote
  split
  · exact names_unexpected rfl
  · simp

theorem names_note {e : List Container} {colon : Lexeme} {note : Option ParseError}
    {value : List Draft} (h : Shaped e (.behindColon colon note) value) (t : Token) :
    ∀ err ∈ note.toList, Names t err := by
  rcases shaped_behindColon h with ⟨next, -, rfl⟩ | ⟨d, -, rfl, -⟩
  · exact names_missing
  · simp

theorem names_none {t : Token} : ∀ err ∈ (none : Option ParseError).toList, Names t err := by
  simp

theorem names_notes {t : Token} {before after : Option ParseError}
    (hbefore : ∀ err ∈ before.toList, Names t err) (hafter : ∀ err ∈ after.toList, Names t err)
    (kind : NodeKind) (first : Draft) (rest : List Draft) :
    ∀ err ∈ (node kind before first rest after).notes, Names t err :=
  List.forall_mem_append.mpr ⟨hbefore, hafter⟩

/-- What is noted at a node marks a gap, or it begins where the node does and names its first
token, unless it asks for a colon. -/
theorem names_of_mem_notes {o : Nat} {d : Draft} (h : Formed d) (hp : Placed o d.lexemes) :
    ∀ err ∈ d.notes, Names d.firstToken err := by
  cases h with
  | scalar | value | list | key | skipped => simp
  | closed => exact names_notes names_none names_none _ _ _
  | unclosed => exact names_notes names_none names_missing _ _ _
  | invalid | stray | junk => exact names_notes (names_unexpected rfl) names_none _ _ _
  | @signed plus number h =>
    have hplus := ordered_firstToken (d := leaf plus) (placed_append.mp hp).1
    have hnumber := ordered_firstToken (d := leaf number) (placed_append.mp hp).2
    have hcover := cover_of_isSignedNumber h hplus hnumber
    exact names_notes (names_unexpected (by rw [hcover])) names_none _ _ _
  | tooDeep | trailing => exact names_notes names_none (names_unexpected (by rfl)) _ _ _
  | @keyValue e key colon note value hc hv =>
    exact names_notes (names_keyNote key) (names_note hv key.token) _ _ _
  | @incomplete key next =>
    refine names_notes (names_keyNote key) ?_ _ _ _
    unfold colonNote
    split
    · exact names_none
    · -- the error names the token behind the key
      intro err herr
      obtain rfl : err = .ofToken .colon next key.token.span := by simpa [unexpected] using herr
      exact .inr ⟨rfl, .inl rfl⟩
  | @literalKey e key colon note value hv =>
    exact names_notes (names_unexpected rfl) (names_note hv key.token) _ _ _

theorem start_of_mem_notes {o : Nat} {d : Draft} (h : Formed d) (hp : Placed o d.lexemes) :
    ∀ err ∈ d.notes, BeginsAt d.firstToken.span.start err :=
  fun err herr => (names_of_mem_notes h hp err herr).beginsAt

/-- The errors of a row mark gaps or begin where one of its tokens does. -/
theorem start_of_mem_errorsList {o : Nat} {b : List (Option Text)} {ds : List Draft}
    (hds : ∀ x ∈ standingsRow o b ds, Formed x.draft) (hp : Placed o (lexemesList ds)) :
    ∀ err ∈ errorsList ds, ∃ l ∈ lexemesList ds, BeginsAt l.token.span.start err := by
  intro err herr
  obtain ⟨x, hx, hnote⟩ := List.mem_flatMap.mp ((perm_errorsList o b ds).mem_iff.mpr herr)
  obtain ⟨front, back, hlexemes, -⟩ := among_of_mem_standingsRow o b ds x hx
  obtain ⟨ls, hls⟩ := exists_lexemes_eq_cons x.draft
  refine ⟨x.draft.firstLexeme, ?_, ?_⟩
  · rw [hlexemes, hls]
    simp
  · exact start_of_mem_notes (hds x hx) (isPlaced_of_mem_standingsRow hp hx) err hnote

theorem not_beginsAt_of_range {range : Span} (hne : range.isEmpty = false) {err : ParseError}
    (h : err.range = range) {offset : Nat} (hoffset : offset ≠ range.start) :
    ¬ BeginsAt offset err := by
  rintro (hmissing | hsame)
  · rw [ParseError.isMissing, h, hne] at hmissing
    exact absurd hmissing Bool.false_ne_true
  · exact hoffset (hsame.symm.trans (congrArg Span.start h))

theorem filter_errorsList_eq_nil {o : Nat} {b : List (Option Text)} {ds : List Draft}
    (hds : ∀ x ∈ standingsRow o b ds, Formed x.draft) (hp : Placed o (lexemesList ds))
    {range : Span} (hne : range.isEmpty = false)
    (houtside : range.start < o ∨ o + Lexeme.sizeList (lexemesList ds) ≤ range.start) :
    (errorsList ds).filter (·.range == range) = [] := by
  rw [List.filter_eq_nil_iff]
  intro err herr hrange
  obtain ⟨l, hl, hbegins⟩ := start_of_mem_errorsList hds hp err herr
  have hbounds := bounds_of_placed hp l hl
  exact not_beginsAt_of_range hne (beq_iff_eq.mp hrange) (by omega) hbegins

end Draft

/-! ## Nodes in order -/

namespace Standing

open Draft

theorem stop_site_eq (x : Standing) : x.site.stop = x.offset + Lexeme.sizeList x.draft.lexemes :=
  stop_siteOf ..

theorem offset_le_site (x : Standing) : x.offset ≤ x.site.offset := Nat.le_add_right _ _

theorem Among.bounds {x : Standing} {o : Nat} {ls : List Lexeme} (h : x.Among o ls) :
    o ≤ x.offset ∧ x.site.stop ≤ o + Lexeme.sizeList ls := by
  obtain ⟨front, back, rfl, ho⟩ := h
  rw [stop_site_eq, ho, Lexeme.sizeList_append, Lexeme.sizeList_append]
  omega

theorem offset_le_stop (x : Standing) : x.site.offset ≤ x.site.stop := Nat.le_add_right _ _

theorem Among.offset_le {x : Standing} {o : Nat} {d : Draft} (h : x.Among o d.lexemes)
    (b : List (Option Text)) : (siteOf o b d).offset ≤ x.site.offset := by
  obtain ⟨front, back, hlexemes, ho⟩ := h
  obtain ⟨ls, hls⟩ := exists_lexemes_eq_cons d
  obtain ⟨ms, hms⟩ := exists_lexemes_eq_cons x.draft
  have hd : (siteOf o b d).offset = o + Token.sizeList d.firstLexeme.trivia := rfl
  have hx : x.site.offset = x.offset + Token.sizeList x.draft.firstLexeme.trivia := rfl
  cases front with
  | nil =>
    -- it begins with the same lexeme
    rw [hls, hms] at hlexemes
    have hfirst : d.firstLexeme = x.draft.firstLexeme := (List.cons.inj hlexemes).1
    rw [hd, hx, hfirst, ho]
    simp [Lexeme.sizeList]
  | cons l front =>
    rw [hls] at hlexemes
    have hfirst : d.firstLexeme = l := (List.cons.inj hlexemes).1
    have hsize : Token.sizeList l.trivia ≤ Lexeme.sizeList (l :: front) := by
      simp [Lexeme.sizeList, Lexeme.tokens]
    rw [hd, hx, hfirst, ho]
    omega

/-- Whether the nodes at and below a node are a block of given nodes, in order. -/
def BlockIn (x : Standing) (zs : List Standing) : Prop :=
  ∃ front back, zs = front ++ standings x.offset x.before x.draft ++ back ∧
    (∀ z ∈ front, z.site.offset ≤ x.site.offset) ∧ ∀ z ∈ back, x.site.stop ≤ z.site.offset

theorem BlockIn.append_right {x : Standing} {zs ys : List Standing} (h : x.BlockIn zs)
    (hys : ∀ y ∈ ys, x.site.stop ≤ y.site.offset) : x.BlockIn (zs ++ ys) := by
  obtain ⟨front, back, rfl, hfront, hback⟩ := h
  refine ⟨front, back ++ ys, by simp, hfront, ?_⟩
  intro z hz
  rcases List.mem_append.mp hz with hz | hz
  · exact hback z hz
  · exact hys z hz

theorem BlockIn.append_left {x : Standing} {zs ys : List Standing} (h : x.BlockIn zs)
    (hys : ∀ y ∈ ys, y.site.offset ≤ x.site.offset) : x.BlockIn (ys ++ zs) := by
  obtain ⟨front, back, rfl, hfront, hback⟩ := h
  refine ⟨ys ++ front, back, by simp, ?_, hback⟩
  intro z hz
  rcases List.mem_append.mp hz with hz | hz
  · exact hys z hz
  · exact hfront z hz

end Standing

namespace Draft

theorem stop_le_offset {o : Nat} {b b' : List (Option Text)} {d : Draft} {ds : List Draft}
    {x y : Standing} (hx : x ∈ standings o b d)
    (hy : y ∈ standingsRow (o + Lexeme.sizeList d.lexemes) b' ds) :
    x.site.stop ≤ y.site.offset := by
  have hstop := (among_of_mem_standings o b d x hx).bounds.2
  have hoffset := (among_of_mem_standingsRow _ b' ds y hy).bounds.1
  have hle := y.offset_le_site
  omega

theorem blockIn_cons {o : Nat} {b : List (Option Text)} {d : Draft} {ds : List Draft}
    (hd : ∀ x ∈ standings o b d, x.BlockIn (standings o b d))
    (hds : ∀ x ∈ standingsRow (o + Lexeme.sizeList d.lexemes) (slotsBehind b d) ds,
      x.BlockIn (standingsRow (o + Lexeme.sizeList d.lexemes) (slotsBehind b d) ds)) :
    ∀ x ∈ standingsRow o b (d :: ds), x.BlockIn (standingsRow o b (d :: ds)) := by
  intro x hx
  rcases mem_standingsRow_cons.mp hx with hx | hx
  · exact (hd x hx).append_right fun y hy => stop_le_offset hx hy
  · exact (hds x hx).append_left fun y hy => Nat.le_trans y.offset_le_stop (stop_le_offset hy hx)

mutual

theorem blockIn_standings (o : Nat) (b : List (Option Text)) : ∀ d : Draft,
    ∀ x ∈ standings o b d, x.BlockIn (standings o b d)
  | leaf l => by simp [standings]
  | node kind before first rest after => by
    intro x hx
    rcases List.mem_cons.mp hx with rfl | hparts
    · exact ⟨[], [], by simp, by simp, by simp⟩
    have hamong := among_of_mem_standings o b (node kind before first rest after) x hx
    have hrow := blockIn_cons (blockIn_standings o b first) (blockIn_standingsRow _ _ rest) x hparts
    have hself : ∀ y ∈ [(⟨o, b, node kind before first rest after⟩ : Standing)],
        y.site.offset ≤ x.site.offset := by
      intro y hy
      obtain rfl := List.mem_singleton.mp hy
      exact hamong.offset_le b
    exact hrow.append_left hself

theorem blockIn_standingsRow (o : Nat) (b : List (Option Text)) : ∀ ds : List Draft,
    ∀ x ∈ standingsRow o b ds, x.BlockIn (standingsRow o b ds)
  | [] => by simp [standingsRow]
  | d :: ds => blockIn_cons (blockIn_standings o b d) (blockIn_standingsRow _ _ ds)

end

end Draft

open Draft

namespace Parse

/-- An error of a document that covers something inside a node, behind its first token, is noted at
or below that node. -/
theorem filter_errors_parse {source : Text} {x : Standing} (hx : x ∈ standings source)
    {range : Span} (hne : range.isEmpty = false) (hstart : x.site.offset < range.start)
    (hstop : range.start < x.site.stop) :
    (x.draft.errors.filter (·.range == range)).Perm
      ((parse source).errors.filter (·.range == range)) := by
  obtain ⟨front, back, hblock, hfront, hback⟩ := blockIn_standingsRow 0 [] _ x hx
  have hnone (zs : List Standing) (hzs : ∀ z ∈ zs, z ∈ standings source)
      (h : ∀ z ∈ zs, z.site.offset ≠ range.start) :
      (zs.flatMap (·.draft.notes)).filter (·.range == range) = [] := by
    rw [List.filter_eq_nil_iff]
    intro err herr
    obtain ⟨z, hz, hnote⟩ := List.mem_flatMap.mp herr
    have hplaced := isPlaced_of_mem_standings (hzs z hz)
    have hbegins := start_of_mem_notes (formed_of_mem_standings (hzs z hz)) hplaced err hnote
    rw [← Standing.offset_site hplaced] at hbegins
    intro hrange
    exact not_beginsAt_of_range hne (beq_iff_eq.mp hrange) (h z hz) hbegins
  have hall : standings source = front ++ Draft.standings x.offset x.before x.draft ++ back :=
    hblock
  have hfront := hnone front (fun z hz => by rw [hall]; simp [hz])
    fun z hz => by have := hfront z hz; omega
  have hback := hnone back (fun z hz => by rw [hall]; simp [hz])
    fun z hz => by have := hback z hz; omega
  have herrors := (perm_errors_parse source).filter (·.range == range)
  rw [hall, List.flatMap_append, List.flatMap_append, List.filter_append, List.filter_append,
    hfront, hback, List.nil_append, List.append_nil] at herrors
  exact ((perm_errors x.offset x.before x.draft).filter _).symm.trans herrors

end Parse

end Maml
