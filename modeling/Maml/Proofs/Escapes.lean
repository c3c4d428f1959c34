import Maml.Quoted

/-! How quoted strings are read. -/
namespace Maml.Quoted

/-! ## Codes -/

theorem utf8Size_of_isHexDigit {c : Char} (h : isHexDigit c = true) : c.utf8Size = 1 := by
  have hle : c.val ≤ 'f'.val := by
    simp only [isHexDigit, Char.isDigit, Bool.or_eq_true, Bool.and_eq_true, decide_eq_true_eq,
      Char.le_def] at h
    rcases h with (⟨-, h⟩ | ⟨-, h⟩) | ⟨-, h⟩
    · exact UInt32.le_trans h (by decide)
    · exact h
    · exact UInt32.le_trans h (by decide)
  exact if_pos (UInt32.le_trans hle (by decide))

theorem size_of_all_isHexDigit {cs : Text} (h : cs.all isHexDigit = true) : cs.size = cs.length := by
  induction cs with
  | nil => rfl
  | cons c cs ih =>
    obtain ⟨hc, hcs⟩ := (Bool.and_eq_true ..).mp h
    rw [Text.size_cons, utf8Size_of_isHexDigit hc, ih hcs, List.length_cons, Nat.add_comm]

theorem code?_take (cs : Text) :
    code? (cs.take 4) = if startsWithCode cs then some (hexValue (cs.take 4)) else none := by
  rw [code?, startsWithCode]
  cases hall : (cs.take 4).all isHexDigit with
  | false => rw [Bool.and_false, Bool.and_false]
  | true => rw [size_of_all_isHexDigit hall]

theorem ne_backslash_of_code {cs : Text} (h : startsWithCode cs = true) :
    ∀ c ∈ cs.take 4, c ≠ '\\' := by
  rintro c hc rfl
  have hall := List.all_eq_true.mp ((Bool.and_eq_true ..).mp h).2 _ hc
  exact absurd hall (by decide)

/-! ## Reading part by part -/

theorem unescapeChars_append {ds : Text} (h : ∀ c ∈ ds, c ≠ '\\') (cs : Text) :
    unescapeChars (ds ++ cs) = ds ++ unescapeChars cs := by
  induction ds with
  | nil => rfl
  | cons d ds ih =>
    obtain ⟨hd, hds⟩ := List.forall_mem_cons.mp h
    rw [List.cons_append, unescapeChars.eq_3 _ _ fun _ _ heq => absurd heq hd, ih hds]
    rfl

theorem unescapeChars_eq (text : Text) : unescapeChars text = (parts text).flatMap Part.decode := by
  induction text using parts.induct with
  | case1 => simp [unescapeChars, parts]
  | case2 c cs hcode ih =>
    obtain ⟨hc, hdigits⟩ := (Bool.and_eq_true ..).mp hcode
    obtain rfl : c = 'u' := by simpa using hc
    have hlookup : escapes.lookup 'u' = none := by decide
    rw [parts, if_pos hcode, List.flatMap_cons, ← ih, unescapeChars, hlookup, code?_take,
      if_pos hdigits]
    cases hchar : charOfCode? (hexValue (cs.take 4)) with
    | some d => simp [hchar, Part.decode, Part.meaning?]
    | none =>
      -- the digits are read again, each for itself
      have hrest := unescapeChars_append (ne_backslash_of_code hdigits) (cs.drop 4)
      rw [List.take_append_drop] at hrest
      simp [hchar, Part.decode, Part.meaning?, Part.text, hrest]
  | case3 c cs hcode ih =>
    rw [parts, if_neg hcode, List.flatMap_cons, ← ih, unescapeChars]
    cases hlookup : escapes.lookup c with
    | some d => simp [Part.decode, Part.meaning?, hlookup]
    | none =>
      have hdecode : (Part.escape c).decode = ['\\', c] := by
        rw [Part.decode, Part.meaning?, hlookup, Part.text]
      rw [hdecode]
      by_cases hu : c = 'u'
      · subst hu
        have hnone : startsWithCode cs ≠ true := by simpa using hcode
        rw [code?_take, if_neg hnone]
        rfl
      · simp [hu]
  | case4 c cs hne ih =>
    rw [parts.eq_3 _ _ hne, unescapeChars.eq_3 _ _ hne, ih]
    rfl

theorem invalidFrom_eq (offset : Nat) (text : Text) :
    invalidFrom offset text = invalidAmong offset (parts text) := by
  induction text using parts.induct generalizing offset with
  | case1 => simp [invalidFrom, parts, invalidAmong]
  | case2 c cs hcode ih =>
    obtain ⟨hc, hdigits⟩ := (Bool.and_eq_true ..).mp hcode
    obtain rfl : c = 'u' := by simpa using hc
    have hlookup : escapes.lookup 'u' = none := by decide
    rw [parts, if_pos hcode, invalidAmong, if_neg (by simp [Part.isInvalid]), ← ih, invalidFrom,
      hlookup, code?_take, if_pos hdigits]
    simp only [Part.text, Text.size_cons, Text.size_nil, beq_self_eq_true, Option.isSome_none,
      Option.isSome_some, Bool.and_self, Bool.false_eq_true, if_false, if_true, Nat.add_assoc,
      Nat.add_zero]
  | case3 c cs hcode ih =>
    have hnone : ¬ (c == 'u' && (code? (cs.take 4)).isSome) = true := by
      intro hboth
      obtain ⟨hc, hsome⟩ := (Bool.and_eq_true ..).mp hboth
      rw [code?_take] at hsome
      cases hdigits : startsWithCode cs with
      | true => exact hcode ((Bool.and_eq_true ..).mpr ⟨hc, hdigits⟩)
      | false =>
        rw [hdigits] at hsome
        exact absurd hsome Bool.false_ne_true
    rw [parts, if_neg hcode, invalidAmong, ← ih, invalidFrom, if_neg hnone, Part.isInvalid,
      ← Option.not_isSome]
    cases (escapes.lookup c).isSome <;> rfl
  | case4 c cs hne ih =>
    rw [parts.eq_3 _ _ hne, invalidFrom.eq_3 _ _ _ hne, ih]
    rfl

end Maml.Quoted
