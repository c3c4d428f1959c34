import Maml.Proofs.Marked

/-! Keys without a colon.

1. Missing colons are told of lexemes that no colon follows, of each at most once
   (`Read.tellsColons`, `Parse.rangesOf_colon_sublist`).
2. Each is told of a key in an object, which is marked (`Read.isOfBareKey`,
   `Parse.exists_bareKey`). -/
namespace Maml

def colonRanges (es : List ParseError) : List Span :=
  (es.filter (·.expected == .colon)).map (·.range)

theorem colonRanges_append (es fs : List ParseError) :
    colonRanges (es ++ fs) = colonRanges es ++ colonRanges fs := by
  rw [colonRanges, List.filter_append, List.map_append]
  rfl

theorem colonRanges_of_ne {es : List ParseError} (h : ∀ e ∈ es, e.expected ≠ .colon) :
    colonRanges es = [] := by
  rw [colonRanges, List.filter_eq_nil_iff.mpr fun e he => by simpa using h e he]
  rfl

def NotesNoColon (note : Option ParseError) : Prop := ∀ e ∈ note.toList, e.expected ≠ .colon

theorem notesNoColon_none : NotesNoColon none := List.forall_mem_nil _

theorem notesNoColon_some {expected : Expected} {t : Token} {range : Span}
    (h : expected ≠ .colon) : NotesNoColon (some (.ofToken expected t range)) :=
  List.forall_mem_singleton.mpr h

/-- The ranges of the lexemes of a row that no colon follows. -/
def bareRanges (behind : List Lexeme) : List Lexeme → List Span
  | [] => []
  | l :: ls =>
    if (ls ++ behind).head?.any (·.kind == .colon) then bareRanges behind ls
    else l.token.span :: bareRanges behind ls

section
variable {behind : List Lexeme}

theorem bareRanges_append (ls ms : List Lexeme) :
    bareRanges behind (ls ++ ms) = bareRanges (ms ++ behind) ls ++ bareRanges behind ms := by
  induction ls with
  | nil => rfl
  | cons l ls ih =>
    rw [List.cons_append, bareRanges, bareRanges, ih, List.append_assoc]
    split <;> rfl

theorem bareRanges_sublist (ls : List Lexeme) :
    (bareRanges behind ls).Sublist (ls.map (·.token.span)) := by
  induction ls with
  | nil => exact .slnil
  | cons l ls ih =>
    rw [bareRanges]
    split
    · exact ih.cons _
    · exact ih.cons_cons _

theorem exists_of_mem_bareRanges {ls : List Lexeme} {s : Span} (h : s ∈ bareRanges behind ls) :
    ∃ front l back, ls = front ++ l :: back ∧ s = l.token.span ∧
      ∀ n ∈ (back ++ behind).head?, n.kind ≠ .colon := by
  induction ls with
  | nil => exact absurd h List.not_mem_nil
  | cons l ls ih =>
    have hbehind : s ∈ bareRanges behind ls → ∃ front m back, l :: ls = front ++ m :: back ∧
        s = m.token.span ∧ ∀ n ∈ (back ++ behind).head?, n.kind ≠ .colon := by
      intro h
      obtain ⟨front, m, back, rfl, hm⟩ := ih h
      exact ⟨l :: front, m, back, rfl, hm⟩
    rw [bareRanges] at h
    split at h
    · exact hbehind h
    · rename_i hnext
      rcases List.mem_cons.mp h with rfl | h
      · refine ⟨[], l, ls, rfl, rfl, fun n hn hcolon => hnext ?_⟩
        rw [Option.mem_def.mp hn]
        simp [hcolon]
      · exact hbehind h

end

namespace Draft

/-! ## Where missing colons are told -/

/-- Whether the missing colons of a row are told of lexemes that no colon follows. -/
def TellsColons (behind : List Lexeme) (ds : List Draft) : Prop :=
  (colonRanges (errorsList ds)).Sublist (bareRanges behind (lexemesList ds))

section
variable {behind : List Lexeme} {d : Draft} {ds es : List Draft}

theorem tellsColons_nil : TellsColons behind [] := .slnil

theorem tellsColons_of_ne (h : ∀ e ∈ errorsList ds, e.expected ≠ .colon) :
    TellsColons behind ds := by
  rw [TellsColons, colonRanges_of_ne h]
  exact List.nil_sublist _

theorem tellsColons_append (hds : TellsColons (lexemesList es ++ behind) ds)
    (hes : TellsColons behind es) : TellsColons behind (ds ++ es) := by
  rw [TellsColons, errorsList_append, lexemesList_append, colonRanges_append, bareRanges_append]
  exact hds.append hes

theorem tellsColons_cons (hd : TellsColons (lexemesList ds ++ behind) [d])
    (hds : TellsColons behind ds) : TellsColons behind (d :: ds) :=
  tellsColons_append hd hds

theorem tellsColons_node {kind : NodeKind} {before after : Option ParseError} {first : Draft}
    {rest : List Draft} (hbefore : NotesNoColon before) (hafter : NotesNoColon after)
    (hparts : TellsColons behind (first :: rest)) :
    TellsColons behind [node kind before first rest after] := by
  have herrors : errorsList [node kind before first rest after] =
      before.toList ++ errorsList (first :: rest) ++ after.toList := by
    simp
  rw [TellsColons, herrors, colonRanges_append, colonRanges_append, colonRanges_of_ne hbefore,
    colonRanges_of_ne hafter, List.nil_append, List.append_nil, lexemesList_singleton, lexemes_node,
    ← lexemesList_cons]
  exact hparts

theorem tellsColons_leaf (l : Lexeme) : TellsColons behind [leaf l] := tellsColons_of_ne (List.forall_mem_nil _)

theorem tellsColons_map_leaf (ls : List Lexeme) : TellsColons behind (ls.map leaf) := by
  induction ls with
  | nil => exact tellsColons_nil
  | cons l ls ih => exact tellsColons_cons (tellsColons_leaf l) ih

theorem notesNoColon_keyNote (key : Lexeme) : NotesNoColon (keyNote key) := by
  unfold keyNote
  split
  · exact notesNoColon_some (by decide)
  · exact notesNoColon_none

theorem tellsColons_member {key colon : Lexeme} {value : List Draft} {note : Option ParseError}
    (hvalue : TellsColons behind value) (hnote : NotesNoColon note) :
    TellsColons behind [member key colon value note] := by
  have hparts := tellsColons_cons (tellsColons_leaf colon) hvalue
  unfold member
  split
  · exact tellsColons_node (notesNoColon_keyNote key) hnote (tellsColons_cons
      (tellsColons_node notesNoColon_none notesNoColon_none (tellsColons_leaf key)) hparts)
  · exact tellsColons_node (notesNoColon_some (by decide)) hnote
      (tellsColons_cons (tellsColons_leaf key) hparts)

theorem tellsColons_container {c : Container} {opener : Lexeme} {closer : Option Lexeme}
    {next : Token} (hds : TellsColons (closer.toList ++ behind) ds) :
    TellsColons behind [container c opener ds closer next] := by
  have hlist : TellsColons (closer.toList ++ behind) (wrap c.listKind ds) := by
    cases ds with
    | nil => exact tellsColons_nil
    | cons d ds => exact tellsColons_node notesNoColon_none notesNoColon_none hds
  have hinner {after : Option ParseError} (hafter : NotesNoColon after) :
      TellsColons behind [plain .value (containerNode c opener ds closer after) []] := by
    refine tellsColons_node notesNoColon_none notesNoColon_none
      (tellsColons_node notesNoColon_none hafter (tellsColons_cons (tellsColons_leaf opener)
        (tellsColons_append ?_ ?_)))
    · cases closer <;> exact hlist
    · cases closer with
      | none => exact tellsColons_nil
      | some l => exact tellsColons_leaf l
  cases closer with
  | none =>
    rw [container_unclosed]
    exact hinner (notesNoColon_some (by cases c <;> decide))
  | some l => exact hinner notesNoColon_none

theorem tellsColons_incomplete {key : Lexeme} {next : Token}
    (hnext : ∀ l ∈ behind.head?, l.kind ≠ .colon) : TellsColons behind [incomplete key next] := by
  have hbare : bareRanges behind [key] = [key.token.span] := by
    rw [bareRanges, List.nil_append, if_neg]
    · rfl
    · cases behind with
      | nil => exact Bool.false_ne_true
      | cons l ls => simpa using hnext l rfl
  have herrors : errorsList [incomplete key next] =
      (keyNote key).toList ++ (colonNote key next).toList := by
    simp [incomplete]
  rw [TellsColons, herrors, colonRanges_append, colonRanges_of_ne (notesNoColon_keyNote key),
    show lexemesList [incomplete key next] = [key] from rfl, hbare, List.nil_append]
  unfold colonNote
  split
  · exact List.nil_sublist _
  · exact List.Sublist.refl _

end

section
variable {eof : Token} {e : List Container} {slot : Slot} {behind : List Lexeme} {ds : List Draft}

theorem ne_colon_of_skipped {first : Draft} {rest : List Draft}
    (h : Read eof e .skipped behind (first :: rest))
    (hcolon : startsWithColon (first :: rest) = false) : first.firstLexeme.kind ≠ .colon := by
  cases h with
  | skippedToken => simpa [startsWithColon, isToken, firstLexeme] using hcolon
  | skippedScalar hc => simp [startsWithColon, isToken, hc] at hcolon
  | skippedValue ho => exact ne_colon_of_isOpener _ ho

/-- Missing colons are told of lexemes that no colon follows, of each at most once. -/
theorem Read.tellsColons (h : Read eof e slot behind ds) : TellsColons behind ds := by
  induction h with
  | scalar => exact tellsColons_of_ne (List.forall_mem_nil _)
  | invalid =>
    exact tellsColons_node notesNoColon_none notesNoColon_none
      (tellsColons_node (notesNoColon_some (by decide)) notesNoColon_none (tellsColons_leaf _))
  | @signed _ _ plus number =>
    exact tellsColons_node notesNoColon_none notesNoColon_none
      (tellsColons_node (notesNoColon_some (by decide)) notesNoColon_none
        (tellsColons_map_leaf [plus, number]))
  | @tooDeep _ _ opener run =>
    exact tellsColons_node notesNoColon_none notesNoColon_none
      (tellsColons_node notesNoColon_none (notesNoColon_some (by decide))
        (tellsColons_map_leaf (opener :: run)))
  | closed _ _ _ _ ih => exact tellsColons_container ih
  | unclosed _ _ _ _ ih => exact tellsColons_container ih
  | nil => exact tellsColons_nil
  | comma _ _ ih => exact tellsColons_cons (tellsColons_leaf _) ih
  | @stray _ c _ _ _ _ _ ih =>
    exact tellsColons_cons (tellsColons_node (notesNoColon_some (by cases c <;> decide))
      notesNoColon_none (tellsColons_leaf _)) ih
  | item _ _ _ ihd ih => exact tellsColons_cons ihd ih
  | member _ _ _ _ _ _ ihv ih =>
    exact tellsColons_cons (tellsColons_member ihv notesNoColon_none) ih
  | memberAlone _ _ _ _ ih =>
    exact tellsColons_cons (tellsColons_member tellsColons_nil (notesNoColon_some (by decide))) ih
  | incomplete _ hnext _ ih =>
    exact tellsColons_cons (tellsColons_incomplete fun l hl =>
      ne_colon_of_canResume (hnext l hl)) ih
  | incompleteSkipped _ hcolon hs _ _ ihs ih =>
    have hfirst := ne_colon_of_skipped hs hcolon
    refine tellsColons_cons (tellsColons_incomplete ?_)
      (tellsColons_cons (tellsColons_node notesNoColon_none notesNoColon_none ihs) ih)
    exact forall_head?_cons (P := fun l => l.kind ≠ .colon) hfirst
  | junk _ _ _ _ ihs ih =>
    exact tellsColons_cons (tellsColons_node (notesNoColon_some (by decide)) notesNoColon_none ihs) ih
  | skippedNil => exact tellsColons_nil
  | skippedToken _ _ _ _ _ ih => exact tellsColons_cons (tellsColons_leaf _) ih
  | skippedScalar _ _ _ ih =>
    exact tellsColons_cons (tellsColons_leaf _) (tellsColons_cons (tellsColons_of_ne (List.forall_mem_nil _)) ih)
  | skippedValue _ _ _ ihd ih => exact tellsColons_cons ihd ih

end

/-! ## Keys without a colon -/

def colonError (key : Lexeme) (next : Token) : ParseError :=
  .ofToken .colon next key.token.span

theorem errors_incomplete {key : Lexeme} {next : Token} (hkey : key.kind ≠ .unterminatedString) :
    (incomplete key next).errors = [colonError key next] := by
  simp [incomplete, keyNote, colonNote, hkey, unexpected, colonError]

/-- The objects with a key that has no colon. -/
def Mark.bareKey (key : Lexeme) (next : Token) : Mark where
  holds d _ := ∃ opener front back closer after,
    d = containerNode .object opener (front ++ incomplete key next :: back) closer after
  isInner_of_holds h := by
    obtain ⟨opener, front, back, closer, after, rfl⟩ := h
    rfl

def Slot.isOfMembers : Slot → Prop
  | .list c _ => c = .object
  | .value | .skipped => False

/-- Whether a mistake is that of a key without a colon, in a row or in an object of it. -/
def IsOfBareKey (slot : Slot) (ds : List Draft) (err : ParseError) : Prop :=
  ∃ key next, err = colonError key next ∧ key.kind.isKeyStart = true ∧
    (slot.isOfMembers ∧ (∃ front back, ds = front ++ incomplete key next :: back) ∨
      ∃ place, Marked (.bareKey key next) place ds)

section
variable {slot slot' : Slot} {d : Draft} {ds : List Draft} {err : ParseError}

namespace IsOfBareKey

theorem of_marked {ds' : List Draft} (h : IsOfBareKey slot ds err) (hslot : ¬ slot.isOfMembers)
    (hmarked : ∀ {m : Mark} {place}, Marked m place ds → ∃ place, Marked m place ds') :
    IsOfBareKey slot' ds' err := by
  obtain ⟨key, next, herr, hkey, ⟨hmembers, -⟩ | ⟨place, h⟩⟩ := h
  · exact absurd hmembers hslot
  · exact ⟨key, next, herr, hkey, .inr (hmarked h)⟩

theorem head (h : IsOfBareKey .value [d] err) : IsOfBareKey slot (d :: ds) err :=
  h.of_marked id fun h => ⟨_, marked_cons.mpr (.inl h)⟩

theorem inside {kind : NodeKind} {before after : Option ParseError} {first : Draft}
    {rest : List Draft} (h : IsOfBareKey .skipped (first :: rest) err) :
    IsOfBareKey slot (node kind before first rest after :: ds) err :=
  h.of_marked id fun h => ⟨_, .inside h⟩

theorem tail (h : IsOfBareKey slot ds err) (hslot : slot.isOfMembers → slot'.isOfMembers) :
    IsOfBareKey slot' (d :: ds) err := by
  obtain ⟨key, next, herr, hkey, ⟨hmembers, front, back, rfl⟩ | ⟨place, h⟩⟩ := h
  · exact ⟨key, next, herr, hkey, .inl ⟨hslot hmembers, d :: front, back, rfl⟩⟩
  · exact ⟨key, next, herr, hkey, .inr ⟨_, .behind h⟩⟩

theorem member {key colon : Lexeme} {note : Option ParseError} (h : IsOfBareKey .value [d] err) :
    IsOfBareKey slot (member key colon [d] note :: ds) err :=
  h.of_marked id fun h => ⟨_, marked_cons.mpr (.inl (marked_member.mpr ⟨_, rfl, h⟩))⟩

theorem container {c : Container} {b : Bool} {opener : Lexeme} {closer : Option Lexeme}
    {after : Option ParseError} (h : IsOfBareKey (.list c b) ds err) :
    IsOfBareKey slot [plain .value (containerNode c opener ds closer after) []] err := by
  obtain ⟨key, next, herr, hkey, ⟨hmembers, front, back, rfl⟩ | ⟨place, h⟩⟩ := h
  · obtain rfl : c = .object := hmembers
    exact ⟨key, next, herr, hkey, .inr ⟨[], .inside (.here ⟨_, _, _, _, _, rfl⟩)⟩⟩
  · exact ⟨key, next, herr, hkey, .inr ⟨_, marked_containerNode.mpr (.inr ⟨_, rfl, h⟩)⟩⟩

end IsOfBareKey

/-- What is told of a colon in a node is told in its parts. -/
theorem mem_errors_parts {kind : NodeKind} {before after : Option ParseError} {first : Draft}
    {rest : List Draft} (h : err ∈ (node kind before first rest after).errors)
    (hcolon : err.expected = .colon) (hbefore : NotesNoColon before) (hafter : NotesNoColon after) :
    err ∈ errorsList (first :: rest) := by
  rw [errors_node, List.append_assoc, List.append_assoc, List.mem_append, ← List.append_assoc,
    List.mem_append] at h
  rcases h with h | h | h
  · exact absurd hcolon (hbefore err h)
  · exact h
  · exact absurd hcolon (hafter err h)

theorem mem_errors_member {key colon : Lexeme} {value : List Draft} {note : Option ParseError}
    (h : err ∈ (member key colon value note).errors) (hcolon : err.expected = .colon)
    (hnote : NotesNoColon note) : err ∈ errorsList value := by
  unfold Draft.member at h
  split at h
  · exact mem_errors_parts h hcolon (notesNoColon_keyNote key) hnote
  · exact mem_errors_parts h hcolon (notesNoColon_some (by decide)) hnote

theorem mem_errors_container {c : Container} {opener : Lexeme} {closer : Option Lexeme}
    {next : Token} (h : err ∈ (Draft.container c opener ds closer next).errors)
    (hcolon : err.expected = .colon) : err ∈ errorsList ds := by
  have hnotes {after : Option ParseError} (hafter : NotesNoColon after)
      (h : err ∈ (plain .value (containerNode c opener ds closer after) []).errors) :
      err ∈ errorsList ds := by
    rw [errors_plain, errorsList_nil, List.append_nil, errors_containerNode] at h
    exact (List.mem_append.mp h).resolve_right fun h => hafter err h hcolon
  cases closer with
  | none =>
    rw [container_unclosed] at h
    exact hnotes (notesNoColon_some (by cases c <;> decide)) h
  | some l => exact hnotes notesNoColon_none h

theorem isOfBareKey_incomplete {key : Lexeme} {next : Token} (hk : isKey key.kind = true)
    (h : err ∈ (incomplete key next).errors) (hcolon : err.expected = .colon)
    (hslot : slot.isOfMembers) : IsOfBareKey slot (incomplete key next :: ds) err := by
  by_cases hkey : key.kind = .unterminatedString
  · have hnone : NotesNoColon (colonNote key next) := by
      rw [colonNote, if_pos (by simp [hkey])]
      exact notesNoColon_none
    have hparts := mem_errors_parts h hcolon (notesNoColon_keyNote key) hnone
    exact absurd hparts List.not_mem_nil
  · rw [errors_incomplete hkey, List.mem_singleton] at h
    have hstart : key.kind.isKeyStart = true := by simpa [isKey, hkey] using hk
    exact ⟨key, next, h, hstart, .inl ⟨hslot, [], ds, rfl⟩⟩

/-- A missing colon is told of a key in a row of members, or in an object that is marked. -/
theorem Read.isOfBareKey {eof : Token} {e : List Container} {behind : List Lexeme}
    (h : Read eof e slot behind ds) (herr : err ∈ errorsList ds) (hcolon : err.expected = .colon) :
    IsOfBareKey slot ds err := by
  induction h with
  | scalar => exact absurd herr List.not_mem_nil
  | invalid | signed =>
    obtain rfl := List.mem_singleton.mp herr
    cases hcolon
  | @tooDeep _ _ opener run =>
    have hlast : err = .ofToken .nestingLimit opener.token
        ⟨opener.token.span.start, (lastTokenFrom opener.token (run.map leaf)).span.stop⟩ := by
      simpa [Draft.tooDeep, unexpected] using herr
    rw [hlast] at hcolon
    cases hcolon
  | closed _ _ _ _ ih =>
    rw [errorsList_cons, errorsList_nil, List.append_nil] at herr
    exact (ih (mem_errors_container herr hcolon)).container
  | unclosed _ _ _ _ ih =>
    rw [errorsList_cons, errorsList_nil, List.append_nil] at herr
    rw [container_unclosed]
    exact (ih (mem_errors_container herr hcolon)).container
  | nil => exact absurd herr List.not_mem_nil
  | comma _ _ ih => exact (ih herr).tail id
  | @stray _ c _ _ _ _ _ ih =>
    rcases List.mem_append.mp herr with herr | herr
    · have hparts := mem_errors_parts herr hcolon (notesNoColon_some (by cases c <;> decide))
        notesNoColon_none
      exact absurd hparts List.not_mem_nil
    · exact (ih herr).tail id
  | item _ _ _ ihd ih =>
    rcases List.mem_append.mp herr with herr | herr
    · exact (ihd (by simpa using herr)).head
    · exact (ih herr).tail id
  | member _ _ _ _ _ _ ihv ih =>
    rcases List.mem_append.mp herr with herr | herr
    · exact (ihv (mem_errors_member herr hcolon notesNoColon_none)).member
    · exact (ih herr).tail id
  | memberAlone _ _ _ _ ih =>
    rcases List.mem_append.mp herr with herr | herr
    · exact absurd (mem_errors_member herr hcolon (notesNoColon_some (by decide))) List.not_mem_nil
    · exact (ih herr).tail id
  | incomplete hk _ _ ih =>
    rcases List.mem_append.mp herr with herr | herr
    · exact isOfBareKey_incomplete hk herr hcolon rfl
    · exact (ih herr).tail id
  | incompleteSkipped hk _ _ _ _ ihs ih =>
    rcases List.mem_append.mp herr with herr | herr
    · exact isOfBareKey_incomplete hk herr hcolon rfl
    rcases List.mem_append.mp herr with herr | herr
    · have hparts := mem_errors_parts herr hcolon notesNoColon_none notesNoColon_none
      exact (ihs hparts).inside.tail id
    · exact (((ih herr).tail id).tail id)
  | junk _ _ _ _ ihs ih =>
    rcases List.mem_append.mp herr with herr | herr
    · exact (ihs (mem_errors_parts herr hcolon (notesNoColon_some (by decide)) notesNoColon_none)).inside
    · exact (ih herr).tail id
  | skippedNil => exact absurd herr List.not_mem_nil
  | skippedToken _ _ _ _ _ ih => exact (ih herr).tail id
  | skippedScalar _ _ _ ih => exact (((ih herr).tail id).tail id)
  | skippedValue _ _ _ ihd ih =>
    rcases List.mem_append.mp herr with herr | herr
    · exact (ihd (by simpa using herr)).head
    · exact (ih herr).tail id

end

end Draft

open Draft

/-! ## Documents -/

namespace Parse
variable {source : Text} {e : ParseError}

theorem rangesOf_colon_sublist (source : Text) :
    ((parse source).rangesOf .colon).Sublist (bareRanges [] (lexemes source)) := by
  have htrailing (ls : List Lexeme) : TellsColons [] (trailing ls) := by
    cases ls with
    | nil => exact tellsColons_nil
    | cons l ls =>
      exact tellsColons_node notesNoColon_none (notesNoColon_some (by decide))
        (tellsColons_map_leaf (l :: ls))
  have htells : TellsColons [] (drafts source) := by
    have hread := readDocument_documentDrafts (Lexemes.ofTokens (tokenize source) source.size).eof
      (lexemes source)
    rw [drafts]
    generalize documentDrafts _ (lexemes source) = ds at hread
    cases hread with
    | nothing => exact htrailing _
    | @value d ls _ hd =>
      refine tellsColons_cons ?_ (htrailing ls)
      rw [lexemesList_trailing, List.append_nil]
      exact hd.tellsColons
  rwa [TellsColons, lexemesList_drafts] at htells

theorem nodup_rangesOf_colon (source : Text) : ((parse source).rangesOf .colon).Nodup := by
  refine ((rangesOf_colon_sublist source).trans (bareRanges_sublist _)).nodup ?_
  have hstarts := nodup_start_lexemes source
  rw [show (lexemes source).map (·.token.span.start) =
    ((lexemes source).map (·.token.span)).map Span.start by rw [List.map_map]; rfl] at hstarts
  exact hstarts.of_map _

/-- A missing colon is told of a key in an object that is marked. -/
theorem exists_bareKey (he : e ∈ (parse source).errors) (hcolon : e.expected = .colon) :
    ∃ key next place, e = colonError key next ∧ key.kind.isKeyStart = true ∧
      Marked (.bareKey key next) place (drafts source) := by
  have htrailing (ls : List Lexeme) : ¬ e ∈ errorsList (trailing ls) := by
    cases ls with
    | nil => exact List.not_mem_nil
    | cons l ls =>
      intro h
      rw [trailing, errorsList_cons, errorsList_nil, List.append_nil] at h
      have hparts := mem_errors_parts h hcolon notesNoColon_none (notesNoColon_some (by decide))
      rw [← List.map_cons, errorsList_map_leaf] at hparts
      exact absurd hparts List.not_mem_nil
  have he : e ∈ errorsList (drafts source) := he
  have hread := readDocument_documentDrafts (Lexemes.ofTokens (tokenize source) source.size).eof
    (lexemes source)
  rw [drafts] at he ⊢
  generalize documentDrafts _ (lexemes source) = ds at hread he ⊢
  cases hread with
  | nothing => exact absurd he (htrailing _)
  | @value d ls _ hd =>
    rw [errorsList_cons, List.mem_append] at he
    have hd' := hd.isOfBareKey (by simpa using he.resolve_right (htrailing ls)) hcolon
    obtain ⟨key, next, herr, hkey, ⟨hmembers, -⟩ | ⟨place, h⟩⟩ := hd'
    · exact hmembers.elim
    · exact ⟨key, next, place, herr, hkey, marked_cons.mpr (.inl h)⟩

end Parse

end Maml
