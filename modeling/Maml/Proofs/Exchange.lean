import Maml.Proofs.Amending

/-! A value in the place of another.

A value somewhere in a document is exchanged for one that takes up some bytes more. What stands in
front of it stays as it is, and what stands behind it is shifted (`Exchanged`).

1. The lexemes, the mistakes and the trees of a row are those of the row before, but for those of
   the value (`Exchanged.lexemes`, `Exchanged.errors`). Whatever encloses the value ends that many
   bytes later (`Exchanged.stop_lastTokenFrom`).
2. If the new value can be read where the old one stood, and begins with the same token, or with a
   reserved word instead of an identifier, all rules around it hold as before
   (`amends_exchanged`). So the document with the new value is what is read of the new lexemes
   (`exists_documentDrafts_exchanged`). -/
namespace Maml.Draft

/-- Whether a lexeme is another one, or a reserved word in the place of an identifier. -/
def Rewords (l l' : Lexeme) : Prop := l' = l ∨ l.kind = .identifier ∧ l'.kind.isKeyword = true

/-- Whether a value comes in the place of another, with some lexemes in the place of one and `k`
bytes more. -/
structure Replaces (k : Nat) (old : Lexeme) (new : List Lexeme) (v v' : Draft) : Prop where
  isNode : v.face.1 = some .value ∧ v'.face.1 = some .value
  first : Rewords v.firstLexeme v'.firstLexeme
  lexemes : ∃ front back, v.lexemes = front ++ old :: back ∧
    v'.lexemes = front ++ (new ++ back.map (Lexeme.shift k))

/-- The rows before and after a value is exchanged for a related one that is `k` bytes longer. -/
inductive Exchanged (k : Nat) (R : Draft → Draft → Prop) : List Draft → List Draft → Prop where
  | here {v v' ds} (h : R v v') : Exchanged k R (v :: ds) (v' :: shiftRow k ds)
  | inside {kind before first first' rest rest' after ds}
      (h : Exchanged k R (first :: rest) (first' :: rest')) :
      Exchanged k R (node kind before first rest after :: ds)
        (node kind before first' rest' (after.map (ParseError.shift k)) :: shiftRow k ds)
  | behind {d ds ds'} (h : Exchanged k R ds ds') : Exchanged k R (d :: ds) (d :: ds')

section
variable {k : Nat} {R : Draft → Draft → Prop} {old : Lexeme} {new : List Lexeme}
  {ds ds' : List Draft} {d d' : Draft}

namespace Exchanged

/-! ## Rows -/

theorem ne_nil (h : Exchanged k R [] ds') : False := by cases h

theorem head (h : Exchanged k R [d] [d']) (ds : List Draft) :
    Exchanged k R (d :: ds) (d' :: shiftRow k ds) := by
  cases h with
  | here h => exact .here h
  | inside h => exact .inside h
  | behind h => exact h.ne_nil.elim

/-- What is exchanged in a row begins as it did, or with a reserved word instead of an identifier,
and is still a token or a node of its kind. -/
theorem exists_cons (hR : ∀ v v', R v v' → Replaces k old new v v') (h : Exchanged k R ds ds') :
    ∃ d row d' row', ds = d :: row ∧ ds' = d' :: row' ∧ d'.face.1 = d.face.1 ∧
      Rewords d.firstLexeme d'.firstLexeme := by
  induction h with
  | here h =>
    have hvalue := hR _ _ h
    exact ⟨_, _, _, _, rfl, rfl, hvalue.isNode.2.trans hvalue.isNode.1.symm, hvalue.first⟩
  | inside _ ih =>
    obtain ⟨d, row, d', row', hold, hnew, -, hfirst⟩ := ih
    obtain ⟨rfl, -⟩ := List.cons.inj hold
    obtain ⟨rfl, -⟩ := List.cons.inj hnew
    exact ⟨_, _, _, _, rfl, rfl, rfl, hfirst⟩
  | behind => exact ⟨_, _, _, _, rfl, rfl, rfl, .inl rfl⟩

theorem exists_single (hR : ∀ v v', R v v' → Replaces k old new v v') (h : Exchanged k R [d] [d']) :
    d'.face.1 = d.face.1 ∧ Rewords d.firstLexeme d'.firstLexeme := by
  obtain ⟨_, _, _, _, hold, hnew, hface⟩ := h.exists_cons hR
  obtain ⟨rfl, -⟩ := List.cons.inj hold
  obtain ⟨rfl, -⟩ := List.cons.inj hnew
  exact hface

theorem eq_face {d d' : Draft} (hkind : d'.face.1 = d.face.1)
    (hfirst : d'.firstLexeme = d.firstLexeme) : d'.face = d.face := by
  cases d <;> cases d' <;> exact Prod.ext hkind hfirst

/-! ## Lexemes and mistakes -/

theorem lexemes (hR : ∀ v v', R v v' → Replaces k old new v v') (h : Exchanged k R ds ds') :
    ∃ front back, lexemesList ds = front ++ old :: back ∧
      lexemesList ds' = front ++ (new ++ back.map (Lexeme.shift k)) := by
  induction h with
  | @here v v' ds h =>
    obtain ⟨front, back, hold, hnew⟩ := (hR _ _ h).lexemes
    refine ⟨front, back ++ lexemesList ds, by simp [hold], ?_⟩
    rw [lexemesList_cons, hnew, lexemesList_shiftRow]
    simp
  | @inside _ _ _ _ _ _ _ ds _ ih =>
    obtain ⟨front, back, hold, hnew⟩ := ih
    rw [lexemesList_cons] at hold hnew
    refine ⟨front, back ++ lexemesList ds, by simp [hold], ?_⟩
    rw [lexemesList_cons, lexemes_node, hnew, lexemesList_shiftRow]
    simp
  | @behind d _ _ _ ih =>
    obtain ⟨front, back, hold, hnew⟩ := ih
    exact ⟨d.lexemes ++ front, back, by simp [hold], by simp [hnew]⟩

theorem stop_lastTokenFrom (hR : ∀ v v', R v v' → Replaces k old new v v')
    (hstop : ∀ l ∈ new.getLast?, l.token.span.stop = old.token.span.stop + k) (hnew : new ≠ [])
    (h : Exchanged k R ds ds') (l : Lexeme) :
    (lastTokenFrom l.token ds').span.stop = (lastTokenFrom l.token ds).span.stop + k := by
  obtain ⟨front, back, hds, hds'⟩ := h.lexemes hR
  have hends {a b : Lexeme} {as : List Lexeme} (bs : List Lexeme) (h : bs ++ [a] = as ++ [b]) :
      a = b := (List.append_inj_right' h rfl |> List.cons.inj).1
  obtain ⟨ms, m, hms, hm⟩ := exists_lexemesList_eq_append ds [] l
  obtain ⟨ns, n, hns, hn⟩ := exists_lexemesList_eq_append ds' [] l
  rw [← hm, ← hn]
  rw [hds] at hms
  rw [hds'] at hns
  rcases List.eq_nil_or_concat back with rfl | ⟨back, b, rfl⟩
  · -- the value ends the row
    obtain ⟨init, last, rfl⟩ := List.eq_nil_or_concat new |>.resolve_left hnew
    have hold : old = m := hends (([l] ++ front)) (by rw [← hms]; simp)
    have hlast : last = n := hends (([l] ++ front ++ init)) (by rw [← hns]; simp)
    rw [← hold, ← hlast]
    exact hstop last (by simp)
  · have hm : b = m := hends ([l] ++ front ++ old :: back) (by rw [← hms]; simp)
    have hn : b.shift k = n :=
      hends ([l] ++ front ++ new ++ back.map (Lexeme.shift k)) (by rw [← hns]; simp)
    rw [← hm, ← hn]
    rfl

theorem errors {e : ParseError} {T : List ParseError → List ParseError → Prop}
    (hT : ∀ es es' fs, T es es' → T (es ++ fs) (es' ++ fs.map (ParseError.shift k)))
    (hR : ∀ v v', R v v' → ∃ front back back', v.errors = front ++ e :: back ∧
      v'.errors = front ++ back' ∧ T back back') (h : Exchanged k R ds ds') :
    ∃ front back back', errorsList ds = front ++ e :: back ∧ errorsList ds' = front ++ back' ∧
      T back back' := by
  induction h with
  | @here v v' ds h =>
    obtain ⟨front, back, back', hold, hnew, hback⟩ := hR _ _ h
    exact ⟨front, _, _, by simp [hold], by simp [hnew, errorsList_shiftRow],
      hT _ _ (errorsList ds) hback⟩
  | @inside kind before first first' rest rest' after ds _ ih =>
    obtain ⟨front, back, back', hold, hnew, hback⟩ := ih
    rw [errorsList_cons] at hold hnew
    refine ⟨before.toList ++ front, _, _, ?_, ?_, hT _ _ (after.toList ++ errorsList ds) hback⟩
    · rw [errorsList_cons, errors_node, List.append_assoc before.toList, hold]
      simp
    · rw [errorsList_cons, errors_node, List.append_assoc before.toList, hnew,
        Option.toList_map, errorsList_shiftRow]
      simp
  | @behind d _ _ _ ih =>
    obtain ⟨front, back, back', hold, hnew, hback⟩ := ih
    exact ⟨d.errors ++ front, back, back', by simp [hold], by simp [hnew], hback⟩

/-! ## Values that enclose others -/

theorem member {v v' : Draft} {key colon : Lexeme} (h : Exchanged k R [v] [v']) :
    Exchanged k R [member key colon [v] none] [member key colon [v'] none] := by
  unfold Draft.member
  split <;> exact .inside (.behind (.behind h))

theorem container (hR : ∀ v v', R v v' → Replaces k old new v v')
    (hstop : ∀ l ∈ new.getLast?, l.token.span.stop = old.token.span.stop + k) (hnew : new ≠ [])
    {c : Container} {opener : Lexeme} {closer : Option Lexeme} {next : Token}
    (h : Exchanged k R ds ds') : Exchanged k R [container c opener ds closer next]
      [container c opener ds' (closer.map (Lexeme.shift k)) (next.shift k)] := by
  obtain ⟨d, row, d', row', rfl, rfl, -⟩ := h.exists_cons hR
  have hlist : Exchanged k R [plain c.listKind d row] [plain c.listKind d' row'] := .inside h
  cases closer with
  | some l => exact .inside (.inside (.behind (hlist.head [leaf l])))
  | none =>
    have hnode : Exchanged k R [containerNode c opener (d :: row) none (missing c.expectedCloser
        (lastTokenFrom opener.token (wrap c.listKind (d :: row))) next)]
        [containerNode c opener (d' :: row') none ((missing c.expectedCloser
          (lastTokenFrom opener.token (wrap c.listKind (d :: row))) next).map
            (ParseError.shift k))] :=
      .inside (.behind hlist)
    -- the missing closer is told where the row ends now
    have hend := hlist.stop_lastTokenFrom hR hstop hnew opener
    have hmissing : (missing c.expectedCloser
        (lastTokenFrom opener.token (wrap c.listKind (d :: row))) next).map (ParseError.shift k) =
          missing c.expectedCloser (lastTokenFrom opener.token (wrap c.listKind (d' :: row')))
            (next.shift k) := by
      simp only [missing]
      rw [show (lastTokenFrom opener.token (wrap c.listKind (d' :: row'))).span.stop = _ from hend]
      rfl
    rw [hmissing] at hnode
    rw [container_unclosed]
    exact .inside hnode

end Exchanged

/-! ## Reading -/

variable {m : Mark} {place : List Lexeme} {eof : Token} {e : List Container} {slot : Slot}
  {behind behind' : List Lexeme}

theorem Read.in_front_of_reworded {l l' : Lexeme} {eof' : Token} (hl : Rewords l l')
    (h : Read eof e .value (l :: behind) [d]) : Read eof' e .value (l' :: behind') [d] := by
  rcases hl with rfl | ⟨hl, hl'⟩
  · exact h.of_cons
  cases h with
  | scalar hl => exact .scalar hl
  | invalid hl hc =>
    refine .invalid hl hc fun n hn => ?_
    obtain rfl := Option.some.inj hn
    refine isSignedNumber_of_ne fun hnumber => ?_
    rw [Lexeme.kind, hnumber] at hl'
    exact absurd hl' (by decide)
  | signed h => exact .signed h
  | tooDeep ho he hrun =>
    exact .tooDeep ho he (balancedRun_of_head? hrun fun h => absurd h (List.cons_ne_nil _ _))
  | closed ho hc he hds => exact .closed ho hc he (hds.of_cons)
  | unclosed ho he hends =>
    have hcloser := isCloser_of_closesAny (hends l rfl).1
    rw [hl] at hcloser
    exact absurd hcloser Bool.false_ne_true

theorem Exchanged.exists_head (hR : ∀ v v', R v v' → Replaces k old new v v')
    (h : Exchanged k R ds ds') (behind behind' : List Lexeme) : ∃ l ls l' ls',
      lexemesList ds ++ behind = l :: ls ∧ lexemesList ds' ++ behind' = l' :: ls' ∧
        Rewords l l' := by
  obtain ⟨d, row, d', row', rfl, rfl, -, hfirst⟩ := h.exists_cons hR
  obtain ⟨ls, hls⟩ := exists_lexemes_eq_cons d
  obtain ⟨ls', hls'⟩ := exists_lexemes_eq_cons d'
  exact ⟨_, _, _, _, by rw [lexemesList_cons, hls]; rfl, by rw [lexemesList_cons, hls']; rfl,
    hfirst⟩

/-- If one value can be read in the place of another wherever it is marked, it can be exchanged in
whatever is read around it. -/
theorem amends_exchanged (hR : ∀ v v', R v v' → Replaces k old new v v')
    (hstop : ∀ l ∈ new.getLast?, l.token.span.stop = old.token.span.stop + k) (hnew : new ≠ [])
    (hvalue : ∀ {e behind inner place}, m.holds inner place →
      Read eof e .value behind [plain .value inner []] →
        ∃ v', Read (eof.shift k) e .value (behind.map (Lexeme.shift k)) [v'] ∧
          R (plain .value inner []) v') : Amends k eof m fun _ => Exchanged k R where
  value h hread := by
    obtain ⟨v', hv', hrelated⟩ := hvalue h hread
    exact ⟨v', hv', .here hrelated⟩
  first h := by
    have hkeyword : ∀ kind : TokenKind, kind.isKeyword = true →
        kind.isScalar = true ∧ kind.isKeyStart = false := by decide
    obtain ⟨hkind, hsame | ⟨hname, hword⟩⟩ := h.exists_single hR
    · exact .inl (Exchanged.eq_face hkind hsame)
    · exact .inr ⟨by rw [hname]; rfl, hkeyword _ hword⟩
  head h ds := h.head ds
  behind h _ := .behind h
  inside h _ := .inside h
  member h _ _ := h.member
  container h _ _ _ _ := h.container hR hstop hnew
  item {_ _ behind _ d _ _} _ hfirst hd hds h := by
    obtain ⟨l, ls, l', ls', hold, hnew, hword⟩ := h.exists_head hR behind
      (behind.map (Lexeme.shift k))
    rw [hold] at hd
    exact ⟨_, .item hfirst (hnew ▸ hd.in_front_of_reworded hword) hds, .behind h⟩

/-! ## Documents -/

/-- If one value can be read in the place of another wherever it is marked, the document with it is
what is read of its lexemes. -/
theorem exists_documentDrafts_exchanged {whole : List Lexeme}
    (hR : ∀ v v', R v v' → Replaces k old new v v')
    (hstop : ∀ l ∈ new.getLast?, l.token.span.stop = old.token.span.stop + k) (hnew : new ≠ [])
    (hvalue : ∀ {e behind inner place}, m.holds inner place →
      Read eof e .value behind [plain .value inner []] →
        ∃ v', Read (eof.shift k) e .value (behind.map (Lexeme.shift k)) [v'] ∧
          R (plain .value inner []) v')
    (hmarked : Marked m place (documentDrafts eof whole)) :
    ∃ front back, whole = front ++ old :: back ∧ Exchanged k R (documentDrafts eof whole)
      (documentDrafts (eof.shift k) (front ++ (new ++ back.map (Lexeme.shift k)))) := by
  obtain ⟨ds', hex, hdrafts⟩ :=
    (amends_exchanged hR hstop hnew hvalue).exists_documentDrafts hmarked
  obtain ⟨front, back, hold, hnew⟩ := hex.lexemes hR
  rw [hnew] at hdrafts
  exact ⟨front, back, (lexemes_documentDrafts eof whole).symm.trans hold, by rwa [hdrafts]⟩

end

end Maml.Draft
