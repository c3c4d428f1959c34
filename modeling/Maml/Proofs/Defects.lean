import Maml.Proofs.Accounts
import Mathlib.Data.List.Perm.Basic

/-! The errors of a document are the defects of its tree.

1. What is noted in the drafts of a document is what their nodes and the document
   call for (`accounted_document`), so its errors have the marks of its tree
   (`perm_marks_ofLexemes`).
2. Sort by sort, these are the defects that the tree shows (`perm_errors_defects`). -/
namespace Maml

namespace Draft

theorem accounted_trailing {o : Nat} {ls : List Lexeme} (hp : Placed o ls)
    (b : List (Option Text)) : (errorsList (trailing ls)).map ParseError.mark =
      rowMarks o b (trailing ls) ++ behindMarks (Site.row o b (trees (trailing ls))) := by
  cases ls with
  | nil => rfl
  | cons l ls =>
    have hp : Placed o (trailingError l ls).lexemes := by simpa [trailingError] using hp
    have hrange := range_siteOf hp b
    have hne := isEmpty_range hp
    have hrow : rowMarks o b (leaf l :: ls.map leaf) = [] := rowMarks_map_leaf o b (l :: ls)
    have hmark : (errorsList (trailing (l :: ls))).map ParseError.mark =
        [(.eof, false, (siteOf o b (trailingError l ls)).range)] := by
      rw [hrange, ← hne]
      simp [trailing, trailingError, unexpected, ParseError.mark, ParseError.isMissing,
        ParseError.ofToken, firstToken, firstLexeme, lastToken]
    have hmarks : rowMarks o b [trailingError l ls] = [] := by
      rw [trailingError, rowMarks_node, marks_siteOf_node, marksAs, hrow]
      rfl
    rw [hmark, trailing, hmarks, behindMarks, errorsAmong_row]
    rfl

/-- The errors of a document's drafts are those that their nodes and the document call for. -/
theorem accounted_document {eof : Token} {ls : List Lexeme} (hp : Placed 0 ls) :
    ((errorsList (documentDrafts eof ls)).map ParseError.mark).Perm
      (rowMarks 0 [] (documentDrafts eof ls) ++
        behindMarks (Site.row 0 [] (trees (documentDrafts eof ls)))) := by
  have hlexemes := lexemes_documentDrafts eof ls
  rcases documentDrafts_cases eof ls with ⟨d, rest, hdrafts, hd⟩ | hdrafts
  · -- a value, and everything behind it
    rw [hdrafts] at hlexemes ⊢
    rw [← hlexemes, lexemesList_cons, lexemesList_trailing] at hp
    obtain ⟨hp₁, hp₂⟩ := placed_append.mp hp
    have h₁ := accounted_of_shaped hd 0 [] (by simpa using hp₁)
    have h₂ := accounted_trailing hp₂ (slotsBehind [] d)
    obtain ⟨first, rfl⟩ := exists_plain_of_shaped hd
    rw [rowMarks_cons, behindMarks, errorsAmong_row, if_neg (by simp [isError, plain]),
      errorsList_cons, List.map_append, h₂, List.append_assoc]
    simp only [placeMarks, List.append_nil, errorsList_cons, errorsList_nil] at h₁
    exact h₁.append_right _
  · rw [hdrafts, accounted_trailing hp []]

end Draft

open Draft

theorem descendants_root_ofLexemes (input : Lexemes) :
    (Site.root (Parse.ofLexemes input).tree).descendants =
      Site.root (Parse.ofLexemes input).tree ::
        Site.nodesOfRow 0 [] (trees (documentDrafts input.eof input.lexemes)) := by
  have h := nodesOfRow_append (trees (documentDrafts input.eof input.lexemes))
    (input.trailing.map tokenLeaf) 0 []
  rw [nodesOfRow_map_tokenLeaf, List.append_nil] at h
  exact congrArg (Site.root (Parse.ofLexemes input).tree :: ·) h

theorem marks_root_ofLexemes (input : Lexemes) :
    (Site.root (Parse.ofLexemes input).tree).marks =
      behindMarks (Site.row 0 [] (trees (documentDrafts input.eof input.lexemes))) := by
  have hmarks := marks_node 0 [] .file
    (trees (documentDrafts input.eof input.lexemes) ++ input.trailing.map tokenLeaf)
  rw [marksAs, behindMarks, Site.parts, Tree.children, row_append, errorsAmong_append,
    errorsAmong_row_tokenLeaf, List.append_nil] at hmarks
  exact hmarks

/-- The errors of a reading are the marks that the nodes of its tree call for. -/
theorem perm_marks_ofLexemes {input : Lexemes} (hp : Placed 0 input.lexemes) :
    ((Parse.ofLexemes input).errors.map ParseError.mark).Perm
      ((Site.root (Parse.ofLexemes input).tree).descendants.flatMap Site.marks) := by
  let ds := documentDrafts input.eof input.lexemes
  rw [descendants_root_ofLexemes, List.flatMap_cons, marks_root_ofLexemes]
  -- the document calls for its marks first, the drafts in it have theirs before
  calc
    List.Perm ((errorsList ds).map ParseError.mark)
        (rowMarks 0 [] ds ++ behindMarks (Site.row 0 [] (trees ds))) := accounted_document hp
    List.Perm _ (behindMarks (Site.row 0 [] (trees ds)) ++ rowMarks 0 [] ds) :=
      List.perm_append_comm

theorem perm_ranges_marks (source : Text) (test : Expected → Bool → Bool) :
    (((parse source).errors.filter fun e => test e.expected e.isMissing).map (·.range)).Perm
      ((parse source).sites.flatMap fun s => Mark.rangesOf test s.marks) := by
  have h := ((perm_marks_ofLexemes (placed_tokenize source)).filter fun m => test m.1 m.2.1).map (·.2.2)
  rw [List.filter_map, List.map_map] at h
  rw [← Mark.rangesOf_flatMap]
  exact h

/-- The errors of a document are the defects of its tree, one for one: a bracket that does not close
is missing where its container ends, a colon is missing behind its key, a container nested too deep
and a value that is none are errors as a whole, a value is missing where its member ends, a key is
missing where tokens were skipped for it or its quote is not closed, and everything behind the value
of a document is one error. -/
theorem perm_errors_defects (source : Text) :
    let p := parse source
    (∀ c : Container, (p.rangesOf c.expectedCloser).Perm
      ((p.sites.filter (·.tree.isUnclosed c)).map (Span.empty ·.stop))) ∧
    (p.rangesOf .colon).Perm ((p.sites.filter (·.tree.lacksColon)).map Site.range) ∧
    (p.rangesOf .nestingLimit).Perm ((p.sites.filter (·.tree.isTooDeep)).map Site.range) ∧
    (p.stretchesOf .value).Perm
      ((p.sites.filter (·.tree.isNoValue) ++ p.sites.flatMap Site.skippedItems).map Site.range) ∧
    (p.gapsOf .value).Perm
      ((p.sites.filter (·.tree.lacksValue) ++ (p.sites.flatMap Site.skippedMembers).filter
        (·.tree.isBareLiteralKey)).map (Span.empty ·.stop)) ∧
    (p.rangesOf .key).Perm
      ((p.sites.filter (·.tree.isUnterminatedKey)).map Site.range ++
        (p.sites.flatMap Site.skippedMembers).map Site.firstTokenRange) ∧
    (p.rangesOf .eof).Perm ((p.sites.flatMap Site.skippedBehind).map Site.range) ∧
    p.rangesOf .comma = [] := by
  have hperm := perm_ranges_marks source
  -- one sort of error after the other; a sort with two sources needs its ranges sorted by source
  refine ⟨fun c => ?_, ?_, ?_, ?_, ?_, ?_, ?_, ?_⟩
  · have h := hperm fun e _ => e == c.expectedCloser
    simp only [rangesOf_marks_closer, flatMap_ite] at h
    exact h
  · have h := hperm fun e _ => e == .colon
    simp only [rangesOf_marks_colon, flatMap_ite] at h
    exact h
  · have h := hperm fun e _ => e == .nestingLimit
    simp only [rangesOf_marks_nestingLimit, flatMap_ite] at h
    exact h
  · have h := hperm fun e missing => e == .value && !missing
    simp only [rangesOf_marks_noValue] at h
    refine h.trans ((List.flatMap_append_perm _ _ _).symm.trans ?_)
    rw [flatMap_ite, List.map_append, List.map_flatMap]
  · have h := hperm fun e missing => e == .value && missing
    simp only [rangesOf_marks_missingValue] at h
    refine h.trans ((List.flatMap_append_perm _ _ _).symm.trans ?_)
    rw [flatMap_ite, List.map_append, List.filter_flatMap, List.map_flatMap]
  · have h := hperm fun e _ => e == .key
    simp only [rangesOf_marks_key] at h
    refine h.trans ((List.flatMap_append_perm _ _ _).symm.trans ?_)
    rw [flatMap_ite, List.map_flatMap]
    exact List.perm_append_comm
  · have h := hperm fun e _ => e == .eof
    simp only [rangesOf_marks_eof] at h
    rw [List.map_flatMap]
    exact h
  · have h := hperm fun e _ => e == .comma
    simp only [rangesOf_marks_comma, List.flatMap_eq_nil_iff.mpr fun _ _ => rfl] at h
    exact h.eq_nil

end Maml
