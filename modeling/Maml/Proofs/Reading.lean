import Maml.Proofs.EscapeFixes

/-! Strings are read part by part.

1. A text in which backslashes pair up is divided into parts in one way (`Splits.eq_parts`), and a
   quote behind it leaves the parts as they are. What stands between the quotes of a string is such
   a text (`exists_body_of_mem_tokenize`).
2. So what a string means and where its invalid escapes are is told of the same parts. The escapes
   that are kept as they are written are the invalid ones and the codes of surrogates
   (`string_read_by_parts`). -/
namespace Maml.Quoted

/-! ## Parts -/

/-- Whether a text is divided into parts: plain characters, backslashes with a character behind
them, and codes. A backslash with `u` is a code wherever four hexadecimal digits are behind it. -/
inductive Splits : Text → List Part → Prop where
  | nil : Splits [] []
  | plain {c : Char} {cs : Text} {ps : List Part} (hslash : c ≠ '\\') (hcs : Splits cs ps) :
      Splits (c :: cs) (.plain c :: ps)
  | escape {c : Char} {cs : Text} {ps : List Part} (hcode : ¬ (c = 'u' ∧ startsWithCode cs = true))
      (hcs : Splits cs ps) : Splits ('\\' :: c :: cs) (.escape c :: ps)
  | code {digits cs : Text} {ps : List Part} (hlength : digits.length = 4)
      (hdigits : ∀ d ∈ digits, isHexDigit d = true) (hcs : Splits cs ps) :
      Splits ('\\' :: 'u' :: (digits ++ cs)) (.code digits :: ps)

def Part.isEscape : Part → Bool
  | plain _ => false
  | _ => true

def Part.isSurrogate : Part → Bool
  | code digits => 0xd800 ≤ hexValue digits && hexValue digits ≤ 0xdfff
  | _ => false

/-- Parts, each with the bytes it covers in a text, from an offset. -/
def Part.place (offset : Nat) : List Part → List (Span × Part)
  | [] => []
  | p :: ps => (⟨offset, offset + p.text.size⟩, p) :: place (offset + p.text.size) ps

/-! ## One way to divide a text -/

theorem startsWithCode_iff {cs : Text} : startsWithCode cs = true ↔
    (cs.take 4).length = 4 ∧ ∀ d ∈ cs.take 4, isHexDigit d = true := by
  rw [startsWithCode, Bool.and_eq_true, beq_iff_eq, List.all_eq_true]

/-- A text is divided into parts in one way at most. -/
theorem Splits.eq_parts {text : Text} {ps : List Part} (h : Splits text ps) : ps = parts text := by
  induction h with
  | nil => rw [parts]
  | plain hslash _ ih => rw [parts.eq_3 _ _ fun _ _ heq => absurd heq hslash, ih]
  | @escape c _ _ hcode _ ih => rw [parts, if_neg (by simpa using hcode), ih]
  | @code digits cs _ hlength hdigits _ ih =>
    have htake : (digits ++ cs).take 4 = digits := by rw [← hlength, List.take_left]
    have hdrop : (digits ++ cs).drop 4 = cs := by rw [← hlength, List.drop_left]
    have hcode : startsWithCode (digits ++ cs) = true := by
      rw [startsWithCode_iff, htake]
      exact ⟨hlength, hdigits⟩
    rw [parts, if_pos (by simpa using hcode), htake, hdrop, ih]

theorem splits_parts {text : Text} (h : Paired text) : Splits text (parts text) := by
  induction text using parts.induct with
  | case1 =>
    rw [parts]
    exact .nil
  | case2 c cs hcode ih =>
    obtain ⟨hc, hdigits⟩ := (Bool.and_eq_true ..).mp hcode
    obtain rfl : c = 'u' := by simpa using hc
    have hrest := ih (paired_of_code hdigits (paired_escape_iff.mp h))
    obtain ⟨hlength, hall⟩ := startsWithCode_iff.mp hdigits
    have hsplits := Splits.code hlength hall hrest
    rw [List.take_append_drop] at hsplits
    rwa [parts, if_pos hcode]
  | case3 c cs hcode ih =>
    rw [parts, if_neg hcode]
    exact .escape (by simpa using hcode) (ih (paired_escape_iff.mp h))
  | case4 c cs hne ih =>
    have hslash := ne_backslash_of_paired h hne
    rw [parts.eq_3 _ _ hne]
    exact .plain hslash (ih ((paired_cons_iff hslash).mp h))

theorem paired_of_isUnits {text : Text} (h : Lexer.IsUnits text) : Paired text := by
  induction h with
  | nil => rfl
  | plain _ hslash _ _ ih => exact (paired_cons_iff hslash).mpr ih
  | escape _ _ ih => exact paired_escape_iff.mpr ih

open Lexer in
/-- Between the quotes of a string backslashes pair up. -/
theorem exists_body_of_mem_tokenize {source : Text} {t : Token} (ht : t ∈ tokenize source)
    (hkind : t.kind = .string) : ∃ body, t.text = '"' :: (body ++ ['"']) ∧ Paired body := by
  obtain ⟨front, back, hlex, -⟩ := exists_append_of_mem_place ht
  have hself := (lex_cut hlex).2
  rw [hkind, List.flatMap_cons] at hself
  obtain ⟨body, htext, hclosed⟩ := exists_string_of_lex hself
  obtain ⟨units, rfl, hunits⟩ := exists_units_of_closedBody hclosed
  exact ⟨units, htext, paired_of_isUnits hunits⟩

/-! ## Reading the parts -/

section
variable {body : Text} (h : Paired body)
include h

theorem parts_append_quote : parts (body ++ ['"']) = parts body ++ [.plain '"'] := by
  rw [parts_append_of_paired h (by decide), parts.eq_3 _ _ fun _ _ heq => absurd heq (by decide),
    parts]

theorem invalidEscapes_quoted :
    invalidEscapes ('"' :: (body ++ ['"'])) = invalidAmong 1 (parts body ++ [.plain '"']) := by
  rw [invalidEscapes, invalidFrom_eq, parts.eq_3 _ _ fun _ _ heq => absurd heq (by decide),
    parts_append_quote h]
  rfl

end

theorem invalidAmong_append_plain (offset : Nat) (ps : List Part) (c : Char) :
    invalidAmong offset (ps ++ [.plain c]) =
      ((Part.place offset ps).filter (·.2.isInvalid)).map (·.1) := by
  induction ps generalizing offset with
  | nil => rfl
  | cons p ps ih =>
    rw [List.cons_append, invalidAmong, ih, Part.place, List.filter_cons]
    split <;> rfl

/-! ## Kept escapes -/

theorem hexDigitValue_lt {c : Char} (h : isHexDigit c = true) : hexDigitValue c < 16 := by
  have hval : c.toNat = c.val.toNat := rfl
  simp only [isHexDigit, Char.isDigit, Bool.or_eq_true, Bool.and_eq_true, decide_eq_true_eq,
    Char.le_def, UInt32.le_iff_toNat_le] at h
  simp only [hexDigitValue, Char.isDigit, Bool.and_eq_true, decide_eq_true_eq, Char.le_def,
    UInt32.le_iff_toNat_le, hval]
  simp at h ⊢
  split
  · omega
  · split <;> omega

theorem hexValue_lt {digits : Text} (h : ∀ d ∈ digits, isHexDigit d = true) :
    hexValue digits < 16 ^ digits.length := by
  induction digits using List.reverseRecOn with
  | nil => exact Nat.one_pos
  | append_singleton digits d ih =>
    have hdigits := ih fun e he => h e (List.mem_append_left _ he)
    have hd := hexDigitValue_lt (h d (by simp))
    rw [hexValue, List.foldl_append, ← hexValue, List.length_append, List.length_singleton,
      Nat.pow_succ]
    show 16 * hexValue digits + hexDigitValue d < _
    omega

theorem Splits.code_spec {text : Text} {ps : List Part} (h : Splits text ps) {digits : Text}
    (hmem : .code digits ∈ ps) : digits.length = 4 ∧ ∀ d ∈ digits, isHexDigit d = true := by
  induction h with
  | nil => exact absurd hmem List.not_mem_nil
  | plain _ _ ih => exact ih (by simpa using hmem)
  | escape _ _ ih => exact ih (by simpa using hmem)
  | code hlength hdigits _ ih =>
    rcases List.mem_cons.mp hmem with hsame | hmem
    · cases hsame
      exact ⟨hlength, hdigits⟩
    · exact ih hmem

/-- The codes that mean no character are those of surrogates. -/
theorem charOfCode?_eq_none_iff {n : Nat} (h : n < 0x10000) :
    charOfCode? n = none ↔ 0xd800 ≤ n ∧ n ≤ 0xdfff := by
  rw [charOfCode?]
  split
  · rename_i hvalid
    simp only [reduceCtorEq, false_iff]
    rcases hvalid with hvalid | hvalid <;> omega
  · rename_i hvalid
    rw [Nat.isValidChar] at hvalid
    simp only [true_iff]
    omega

/-- An escape is kept as it is written if it means no character. -/
theorem Part.decode_eq_text_iff {p : Part} (h : p.isEscape = true) :
    p.decode = p.text ↔ p.meaning? = none := by
  rw [decode]
  cases hmeaning : p.meaning? with
  | none => exact iff_of_true rfl rfl
  | some c =>
    have hne : [c] ≠ p.text := by
      cases p with
      | plain => exact absurd h Bool.false_ne_true
      | _ => simp [text]
    exact iff_of_false hne (by simp)

theorem Splits.meaning?_eq_none_iff {text : Text} {ps : List Part} (h : Splits text ps) {p : Part}
    (hp : p ∈ ps) : p.meaning? = none ↔ p.isInvalid = true ∨ p.isSurrogate = true := by
  cases p with
  | plain c => simp [Part.meaning?, Part.isInvalid, Part.isSurrogate]
  | escape c => simp [Part.meaning?, Part.isInvalid, Part.isSurrogate]
  | code digits =>
    obtain ⟨hlength, hdigits⟩ := h.code_spec hp
    have hlt := hexValue_lt hdigits
    rw [hlength] at hlt
    rw [Part.meaning?, charOfCode?_eq_none_iff hlt]
    simp [Part.isInvalid, Part.isSurrogate]

/-! ## Tokens -/

/-- What stands between the quotes of a string token is divided into parts in one way. The string
means what its parts do, and its invalid escapes are the parts that are backslashes with a character
that has no escape, where they stand. The escapes that are kept as they are written are these and
the codes of surrogates. -/
theorem string_read_by_parts {source : Text} {t : Token} (ht : t ∈ tokenize source)
    (hkind : t.kind = .string) :
    ∃ body ps, t.text = '"' :: (body ++ ['"']) ∧ Splits body ps ∧
      (∀ qs, Splits body qs → qs = ps) ∧ unescape t.text = ps.flatMap Part.decode ∧
      invalidEscapes t.text = ((Part.place 1 ps).filter (·.2.isInvalid)).map (·.1) ∧
      ∀ p ∈ ps, p.isEscape = true →
        (p.decode = p.text ↔ p.isInvalid = true ∨ p.isSurrogate = true) := by
  obtain ⟨body, htext, hpaired⟩ := exists_body_of_mem_tokenize ht hkind
  have hsplits := splits_parts hpaired
  refine ⟨body, parts body, htext, hsplits, fun qs => Splits.eq_parts, ?_, ?_, fun p hp hescape => ?_⟩
  · rw [htext, unescape, stripQuotes_quoted, unescapeChars_eq]
  · rw [htext, invalidEscapes_quoted hpaired, invalidAmong_append_plain]
  · rw [Part.decode_eq_text_iff hescape, hsplits.meaning?_eq_none_iff hp]

/-- The string `"\ud800\q\u00"` has the code of a surrogate and two invalid escapes; behind the second
there are two digits and the quote. -/
theorem string_read_by_parts_surrogate :
    ∃ t ∈ tokenize ['"', '\\', 'u', 'd', '8', '0', '0', '\\', 'q', '\\', 'u', '0', '0', '"'],
      t.kind = .string ∧ invalidEscapes t.text = [⟨7, 9⟩, ⟨9, 11⟩] ∧
        ∃ body ps, t.text = '"' :: (body ++ ['"']) ∧ Splits body ps ∧
          (∀ qs, Splits body qs → qs = ps) ∧ unescape t.text = ps.flatMap Part.decode ∧
          invalidEscapes t.text = ((Part.place 1 ps).filter (·.2.isInvalid)).map (·.1) ∧
          ∀ p ∈ ps, p.isEscape = true →
            (p.decode = p.text ↔ p.isInvalid = true ∨ p.isSurrogate = true) := by
  have ht : (⟨.string, ⟨0, 14⟩, ['"', '\\', 'u', 'd', '8', '0', '0', '\\', 'q', '\\', 'u', '0', '0',
      '"']⟩ : Token) ∈ tokenize ['"', '\\', 'u', 'd', '8', '0', '0', '\\', 'q', '\\', 'u', '0', '0',
      '"'] := by
    simp [tokenize, Lexer.lex, Lexer.scan, Lexer.string, Lexer.closedBody, Lexer.isLineBreak,
      Lexer.place]
    decide
  refine ⟨_, ht, rfl, ?_, string_read_by_parts ht rfl⟩
  simp [invalidEscapes, invalidFrom, escapes, code?, isHexDigit]
  decide

end Maml.Quoted
