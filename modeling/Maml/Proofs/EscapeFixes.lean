import Mathlib.Algebra.GroupWithZero.Nat
import Maml.Proofs.Findings
import Maml.Proofs.Respacing
import Maml.Proofs.Strings

/-! The fix of an invalid escape.

Another backslash in front of a character that has no escape makes an escape of the two, and leaves
the character as it is.

1. Where the backslashes of a text pair up, what is behind it is read by itself, as parts of a string
   and as its rest (`parts_append_of_paired`, `closedBody_append_of_paired`). So the string with
   another backslash is one token, means the same, and has one invalid escape fewer.
2. A quoted string that is not closed stops at a line break in front of any string behind it
   (`closedBody_of_string_behind`), so a string can be changed without changing other tokens
   (`lex_of_string_changed`).
3. The document then is the same but for that token (`escape_fix_keeps_meaning`). -/
namespace Maml

open Quoted Draft

namespace Quoted

/-! ## Pairs of backslashes -/

/-- Whether the backslashes at the end of a text pair up, so that none takes the character behind
the text. -/
def Paired (text : Text) : Prop := countAtEnd '\\' text % 2 = 0

theorem paired_cons_iff {c : Char} (h : c ≠ '\\') {text : Text} :
    Paired (c :: text) ↔ Paired text := by
  rw [Paired, countAtEnd_cons (.inl h), Paired]

theorem paired_escape_iff {c : Char} {text : Text} :
    Paired ('\\' :: c :: text) ↔ Paired text := by
  rw [Paired, countAtEnd_escape, Paired]

theorem ne_backslash_of_paired {c : Char} {cs : Text} (h : Paired (c :: cs))
    (hne : ∀ (d : Char) (ds : Text), c = '\\' → cs = d :: ds → False) : c ≠ '\\' := by
  rintro rfl
  cases cs with
  | nil => exact absurd h nofun
  | cons d ds => exact hne d ds rfl rfl

theorem startsWithCode_append {c : Char} (hc : isHexDigit c = false) (cs tail : Text) :
    startsWithCode (cs ++ c :: tail) = startsWithCode cs := by
  rcases Nat.lt_or_ge cs.length 4 with hshort | hlong
  · -- the character would be among the digits
    have hmem : c ∈ (cs ++ c :: tail).take 4 := by
      rw [List.take_append, List.take_of_length_le (by omega)]
      obtain ⟨n, hn⟩ : ∃ n, 4 - cs.length = n + 1 := ⟨3 - cs.length, by omega⟩
      rw [hn, List.take_succ_cons]
      simp
    have hall : ((cs ++ c :: tail).take 4).all isHexDigit = false := by
      rw [List.all_eq_false]
      exact ⟨_, hmem, by rw [hc]; exact Bool.false_ne_true⟩
    have hlength : ((cs.take 4).length == 4) = false := by
      rw [List.length_take]
      exact beq_false_of_ne (by omega)
    rw [startsWithCode, hall, Bool.and_false, startsWithCode, hlength, Bool.false_and]
  · rw [startsWithCode, List.take_append_of_le_length hlong, startsWithCode]

theorem paired_append_iff {front text : Text} (h : ∀ c ∈ front, c ≠ '\\') :
    Paired (front ++ text) ↔ Paired text := by
  induction front with
  | nil => rfl
  | cons c front ih =>
    obtain ⟨hc, hfront⟩ := List.forall_mem_cons.mp h
    rw [List.cons_append, paired_cons_iff hc, ih hfront]

theorem paired_of_code {cs : Text} (h : startsWithCode cs = true) (hpaired : Paired cs) :
    Paired (cs.drop 4) := by
  rw [← List.take_append_drop 4 cs] at hpaired
  exact (paired_append_iff (ne_backslash_of_code h)).mp hpaired

/-- Where backslashes pair up the parts in front of a character that is no digit are those of the
text in front of it. -/
theorem parts_append_of_paired {text : Text} (h : Paired text) {c : Char}
    (hc : isHexDigit c = false) (tail : Text) :
    parts (text ++ c :: tail) = parts text ++ parts (c :: tail) := by
  induction text using parts.induct with
  | case1 => simp [parts]
  | case2 d cs hcode ih =>
    obtain ⟨-, hdigits⟩ := (Bool.and_eq_true ..).mp hcode
    have hlong : 4 ≤ cs.length := by
      simp [startsWithCode] at hdigits
      omega
    have hrest := ih (paired_of_code hdigits (paired_escape_iff.mp h))
    rw [List.cons_append, List.cons_append, parts, startsWithCode_append hc, hcode, if_pos rfl,
      List.take_append_of_le_length hlong, List.drop_append_of_le_length hlong, hrest, parts,
      hcode, if_pos rfl, List.cons_append]
  | case3 d cs hcode ih =>
    rw [List.cons_append, List.cons_append, parts, startsWithCode_append hc, if_neg hcode,
      ih (paired_escape_iff.mp h), parts, if_neg hcode, List.cons_append]
  | case4 d cs hne ih =>
    have hd := ne_backslash_of_paired h hne
    rw [List.cons_append, parts.eq_3 _ _ fun _ _ heq => absurd heq hd, ih ((paired_cons_iff hd).mp h),
      parts.eq_3 _ _ hne, List.cons_append]

/-- Where backslashes pair up and the string does not end, it goes on behind the text. -/
theorem closedBody_append_of_paired {text : Text} (h : Paired text) {tail body : Text}
    (hbody : Lexer.closedBody (text ++ tail) = some (text ++ body)) (hne' : body ≠ []) (tail' : Text) :
    Lexer.closedBody (text ++ tail') = (Lexer.closedBody tail').map (text ++ ·) := by
  induction text using Lexer.unit_induction with
  | nil => simp
  | slash => exact absurd (show 1 % 2 = 0 from h) (by decide)
  | broken c cs hbreak =>
    rw [List.cons_append, List.cons_append, Lexer.closedBody, if_pos hbreak] at hbody
    exact absurd hbody (by simp)
  | escape c cs hbreak ih =>
    rw [List.cons_append, List.cons_append, Lexer.closedBody_escape hbreak] at hbody ⊢
    obtain ⟨rest, hrest, hsame⟩ := Option.map_eq_some_iff.mp hbody
    obtain rfl : rest = cs ++ body := by simpa using hsame
    rw [ih (paired_escape_iff.mp h) hrest, Option.map_map]
    rfl
  | plain c cs hslash ih =>
    have hquote : c ≠ '"' := by
      rintro rfl
      rw [List.cons_append, Lexer.closedBody_quote] at hbody
      exact absurd (Option.some.inj hbody) (by simp [hne'])
    cases hbreak : Lexer.isLineBreak c with
    | true =>
      rw [List.cons_append, Lexer.closedBody_lineBreak hbreak] at hbody
      exact absurd hbody (by simp)
    | false =>
      rw [List.cons_append, Lexer.closedBody_cons hslash hquote hbreak] at hbody ⊢
      obtain ⟨rest, hrest, hsame⟩ := Option.map_eq_some_iff.mp hbody
      obtain rfl : rest = cs ++ body := by simpa using hsame
      rw [ih ((paired_cons_iff hslash).mp h) hrest, Option.map_map]
      rfl

/-! ## Invalid escapes -/

theorem exists_of_mem_invalidFrom {o : Nat} {text : Text} {span : Span}
    (h : span ∈ invalidFrom o text) : ∃ (front : Text) (c : Char) (back : Text),
      text = front ++ '\\' :: c :: back ∧
      span.start = o + front.size ∧ Paired front ∧ escapes.lookup c = none ∧
        ¬ (c == 'u' && startsWithCode back) = true := by
  rw [invalidFrom_eq] at h
  induction text using parts.induct generalizing o with
  | case1 => simp [parts, invalidAmong] at h
  | case2 c cs hcode ih =>
    obtain ⟨hc, hdigits⟩ := (Bool.and_eq_true ..).mp hcode
    obtain rfl : c = 'u' := by simpa using hc
    rw [parts, if_pos hcode, invalidAmong, if_neg (by simp [Part.isInvalid])] at h
    obtain ⟨front, d, back, hcs, hstart, hpaired, hinvalid, hplain⟩ := ih h
    refine ⟨'\\' :: 'u' :: (cs.take 4 ++ front), d, back, ?_, ?_, ?_, hinvalid, hplain⟩
    · rw [List.cons_append, List.cons_append, List.append_assoc, ← hcs, List.take_append_drop]
    · rw [hstart]
      simp only [Part.text, Text.size_cons, Text.size_append]
      omega
    · have hdigits : ∀ c ∈ cs.take 4, c ≠ '\\' := ne_backslash_of_code hdigits
      rw [paired_escape_iff, paired_append_iff hdigits]
      exact hpaired
  | case3 c cs hcode ih =>
    rw [parts, if_neg hcode, invalidAmong] at h
    have hmore (h : span ∈ invalidAmong (o + (Part.escape c).text.size) (parts cs)) :
        ∃ (front : Text) (d : Char) (back : Text), '\\' :: c :: cs = front ++ '\\' :: d :: back ∧
          span.start = o + front.size ∧ Paired front ∧ escapes.lookup d = none ∧
            ¬ (d == 'u' && startsWithCode back) = true := by
      obtain ⟨front, d, back, hcs, hstart, hpaired, hinvalid, hplain⟩ := ih h
      refine ⟨'\\' :: c :: front, d, back, by rw [hcs]; rfl, ?_, paired_escape_iff.mpr hpaired,
        hinvalid, hplain⟩
      rw [hstart]
      simp only [Part.text, Text.size_cons, Text.size_nil]
      omega
    split at h
    · rename_i hinvalid
      rcases List.mem_cons.mp h with rfl | h
      · exact ⟨[], c, cs, rfl, rfl, rfl, by simpa [Part.isInvalid] using hinvalid, hcode⟩
      · exact hmore h
    · exact hmore h
  | case4 c cs hne ih =>
    rw [parts.eq_3 _ _ hne, invalidAmong, if_neg (by simp [Part.isInvalid])] at h
    obtain ⟨front, d, back, hcs, hstart, hpaired, hinvalid, hplain⟩ := ih h
    have hc : c ≠ '\\' := by
      rintro rfl
      cases cs with
      | nil => simp at hcs
      | cons e es => exact hne e es rfl rfl
    refine ⟨c :: front, d, back, by rw [hcs]; rfl, ?_, (paired_cons_iff hc).mpr hpaired, hinvalid,
      hplain⟩
    rw [hstart]
    simp only [Part.text, Text.size_cons, Text.size_nil]
    omega

theorem parts_around {front back : Text} {c : Char} (hpaired : Paired front)
    (hc : escapes.lookup c = none) (hcode : ¬ (c == 'u' && startsWithCode back) = true) :
    parts (front ++ '\\' :: c :: back) = parts front ++ .escape c :: parts back ∧
      parts (front ++ '\\' :: '\\' :: c :: back) =
        parts front ++ .escape '\\' :: .plain c :: parts back := by
  have hslash : c ≠ '\\' := by
    rintro rfl
    exact absurd hc (by decide)
  refine ⟨?_, ?_⟩
  · rw [parts_append_of_paired hpaired (by decide), parts, if_neg hcode]
  · rw [parts_append_of_paired hpaired (by decide), parts, if_neg (by simp),
      parts.eq_3 _ _ fun _ _ heq => absurd heq hslash]

theorem Part.size_text_pos (p : Part) : 0 < p.text.size := by
  cases p <;> exact Nat.add_pos_left (Char.utf8Size_pos _) _

theorem bounds_of_mem_invalidAmong {o : Nat} {ps : List Part} {span : Span}
    (h : span ∈ invalidAmong o ps) :
    span.start < span.stop ∧ span.stop ≤ o + Text.size (ps.flatMap Part.text) := by
  induction ps generalizing o with
  | nil => exact absurd h List.not_mem_nil
  | cons p ps ih =>
    rw [List.flatMap_cons, Text.size_append]
    have hrest (h : span ∈ invalidAmong (o + p.text.size) ps) : span.start < span.stop ∧
        span.stop ≤ o + (p.text.size + Text.size (ps.flatMap Part.text)) := by
      rw [← Nat.add_assoc]
      exact ih h
    rw [invalidAmong] at h
    split at h
    · rcases List.mem_cons.mp h with rfl | h
      · exact ⟨Nat.lt_add_of_pos_right p.size_text_pos,
          Nat.add_le_add_left (Nat.le_add_right _ _) o⟩
      · exact hrest h
    · exact hrest h

theorem length_invalidAmong (o : Nat) (ps : List Part) :
    (invalidAmong o ps).length = ps.countP Part.isInvalid := by
  induction ps generalizing o with
  | nil => rfl
  | cons p ps ih =>
    rw [invalidAmong, List.countP_cons]
    split
    · rename_i hp
      rw [List.length_cons, ih]
    · rw [ih]
      rfl

theorem length_invalidEscapes {front back : Text} {c : Char} (hpaired : Paired front)
    (hc : escapes.lookup c = none) (hcode : ¬ (c == 'u' && startsWithCode back) = true) :
    (invalidEscapes (front ++ '\\' :: '\\' :: c :: back)).length + 1 =
      (invalidEscapes (front ++ '\\' :: c :: back)).length := by
  obtain ⟨hold, hnew⟩ := parts_around hpaired hc hcode
  have hinvalid : (Part.escape c).isInvalid = true := by rw [Part.isInvalid, hc]; rfl
  have hvalid : (Part.escape '\\').isInvalid = false := by decide
  have hplain : (Part.plain c).isInvalid = false := rfl
  rw [invalidEscapes, invalidFrom_eq, length_invalidAmong, hnew, invalidEscapes, invalidFrom_eq,
    length_invalidAmong, hold,
    List.countP_append, List.countP_append, List.countP_cons, List.countP_cons, List.countP_cons,
    hinvalid, hvalid, hplain]
  simp only [if_true, Bool.false_eq_true, if_false]
  omega

/-! ## Strings with another backslash -/

theorem startsWithCode_append_of {cs : Text} (h : startsWithCode cs = true) (tail : Text) :
    startsWithCode (cs ++ tail) = true := by
  have hlong : 4 ≤ cs.length := by
    simp [startsWithCode] at h
    omega
  rwa [startsWithCode, List.take_append_of_le_length hlong]

/-- A backslash in front of a character that has no escape means the two. -/
theorem decode_around {c : Char} (hc : escapes.lookup c = none) :
    (Part.escape c).decode = (Part.escape '\\').decode ++ (Part.plain c).decode := by
  have hmeaning : (Part.escape c).meaning? = none := hc
  rw [Part.decode, hmeaning]
  rfl

section
variable {front back rest : Text} {c : Char} (hpaired : Paired front)
  (hc : escapes.lookup c = none) (hcode : ¬ (c == 'u' && startsWithCode back) = true)
  (h : Lexer.closedBody (front ++ '\\' :: c :: back ++ rest) =
    some (front ++ '\\' :: c :: back))
include hpaired h

theorem closedBody_back :
    Lexer.isLineBreak c = false ∧ Lexer.closedBody (back ++ rest) = some back := by
  rw [List.append_assoc] at h
  rw [closedBody_append_of_paired hpaired h (List.cons_ne_nil _ _)] at h
  obtain ⟨body, hbody, hsame⟩ := Option.map_eq_some_iff.mp h
  obtain rfl := List.append_cancel_left hsame
  rw [List.cons_append, List.cons_append] at hbody
  cases hbreak : Lexer.isLineBreak c with
  | true =>
    rw [Lexer.closedBody, if_pos hbreak] at hbody
    exact absurd hbody (by simp)
  | false =>
    rw [Lexer.closedBody_escape hbreak] at hbody
    obtain ⟨body, hbody, hsame⟩ := Option.map_eq_some_iff.mp hbody
    obtain rfl : body = back := by simpa using hsame
    exact ⟨rfl, hbody⟩

include hc

theorem closedBody_escaped : Lexer.closedBody (front ++ '\\' :: '\\' :: c :: back ++ rest) =
    some (front ++ '\\' :: '\\' :: c :: back) := by
  obtain ⟨hbreak, hback⟩ := closedBody_back hpaired h
  have hslash : c ≠ '\\' := by
    rintro rfl
    exact absurd hc (by decide)
  have hquote : c ≠ '"' := by
    rintro rfl
    exact absurd hc (by decide)
  rw [List.append_assoc] at h ⊢
  rw [closedBody_append_of_paired hpaired h (List.cons_ne_nil _ _)]
  rw [List.cons_append, List.cons_append, List.cons_append, Lexer.closedBody_escape (by decide),
    Lexer.closedBody_cons hslash hquote hbreak, hback]
  rfl

include hcode

theorem unescape_escaped : unescape ('"' :: (front ++ '\\' :: '\\' :: c :: back)) =
    unescape ('"' :: (front ++ '\\' :: c :: back)) := by
  obtain ⟨inner, rfl, -⟩ := Lexer.exists_units_of_closedBody (closedBody_back hpaired h).2
  have hcode' : ¬ (c == 'u' && startsWithCode inner) = true := by
    intro hboth
    obtain ⟨hu, hdigits⟩ := (Bool.and_eq_true ..).mp hboth
    exact hcode ((Bool.and_eq_true ..).mpr ⟨hu, startsWithCode_append_of hdigits _⟩)
  have hquoted (cs : Text) : '"' :: (front ++ (cs ++ (inner ++ ['"']))) =
      '"' :: ((front ++ (cs ++ inner)) ++ ['"']) := by simp
  obtain ⟨hold, hnew⟩ := parts_around hpaired hc hcode'
  calc unescape ('"' :: (front ++ '\\' :: '\\' :: c :: (inner ++ ['"'])))
      = (parts (front ++ '\\' :: '\\' :: c :: inner)).flatMap Part.decode := by
        rw [← unescapeChars_eq, ← stripQuotes_quoted (front ++ '\\' :: '\\' :: c :: inner)]
        exact congrArg unescape (hquoted ['\\', '\\', c])
    _ = (parts (front ++ '\\' :: c :: inner)).flatMap Part.decode := by
        rw [hnew, hold]
        simp only [List.flatMap_append, List.flatMap_cons, decode_around hc, List.append_assoc]
    _ = unescape ('"' :: (front ++ '\\' :: c :: (inner ++ ['"']))) := by
        rw [← unescapeChars_eq, ← stripQuotes_quoted (front ++ '\\' :: c :: inner)]
        exact congrArg unescape (hquoted ['\\', c]).symm

end

end Quoted

namespace Lexer

/-! ## Tokens in front of a string -/

/-- A quoted string that is not closed stops at a line break in front of any string behind it. -/
theorem closedBody_of_string_behind {front body rest : Text}
    (hbody : closedBody (body ++ rest) = some body)
    (h : closedBody (front ++ '"' :: (body ++ rest)) = none) (tail : Text) :
    closedBody (front ++ tail) = none ∧
      openBody (front ++ tail) = openBody (front ++ '"' :: (body ++ rest)) := by
  induction front using unit_induction with
  | nil =>
    rw [List.nil_append, closedBody_quote] at h
    exact absurd h nofun
  | slash =>
    -- the backslash would take the quote with it, and the string would still be closed
    rw [List.singleton_append, closedBody_escape (by decide), hbody] at h
    exact absurd h nofun
  | broken c cs hbreak =>
    simp only [List.cons_append, closedBody, openBody, if_pos hbreak, and_self]
  | escape c cs hbreak ih =>
    rw [List.cons_append, List.cons_append, closedBody_escape hbreak, Option.map_eq_none_iff] at h
    obtain ⟨hclosed, hopen⟩ := ih h
    simp only [List.cons_append, closedBody_escape hbreak, openBody_escape hbreak, hclosed, hopen,
      Option.map_none, true_and]
  | plain c cs hslash ih =>
    have hquote : c ≠ '"' := by
      rintro rfl
      rw [List.cons_append, closedBody_quote] at h
      exact absurd h nofun
    rw [List.cons_append] at h
    rw [List.cons_append, List.cons_append, openBody_plain hslash, openBody_plain hslash]
    cases hbreak : isLineBreak c with
    | true => exact ⟨closedBody_lineBreak hbreak _, rfl⟩
    | false =>
      rw [closedBody_cons hslash hquote hbreak, Option.map_eq_none_iff] at h
      obtain ⟨hclosed, hopen⟩ := ih h
      rw [closedBody_cons hslash hquote hbreak, hclosed, hopen]
      exact ⟨rfl, rfl⟩

theorem closedBody_of_string {cs body : Text} (h : string cs = (.string, body)) :
    closedBody cs = some body := by
  unfold string at h
  split at h
  · split at h <;> exact absurd (congrArg Prod.fst h) (by simp)
  · split at h
    · rename_i hclosed
      rw [hclosed]
      exact congrArg some (congrArg Prod.snd h)
    · exact absurd (congrArg Prod.fst h) (by simp)

/-- What is scanned of a quoted string that is not closed, in front of another string, does not
depend on that one. -/
theorem string_of_string_behind {front body rest taken : Text}
    (hbody : closedBody (body ++ rest) = some body)
    (h : string (front ++ '"' :: (body ++ rest)) = (.unterminatedString, taken))
    (htaken : taken <+: front) (tail : Text) :
    string (front ++ '"' :: tail) = (.unterminatedString, taken) := by
  have hquotes : ¬ ∃ cs, front ++ '"' :: (body ++ rest) = '"' :: '"' :: cs := by
    rintro ⟨cs, hcs⟩
    -- a multiline string takes everything
    rw [hcs, string] at h
    split at h
    · exact absurd (congrArg Prod.fst h) (by simp)
    · have hlong : front ++ '"' :: (body ++ rest) = taken := hcs.trans (congrArg Prod.snd h)
      have hlength := htaken.length_le
      rw [← hlong, List.length_append, List.length_cons] at hlength
      omega
  obtain ⟨hnone, htaken⟩ := openBody_of_string hquotes h
  have hquotes' : ∀ cs, front ++ '"' :: tail ≠ '"' :: '"' :: cs := by
    intro cs hcs
    rcases front with _ | ⟨d, _ | ⟨e, ds⟩⟩
    · rw [List.nil_append, closedBody_quote] at hnone
      exact absurd hnone (by simp)
    · obtain ⟨rfl, -⟩ := List.cons.inj hcs
      exact hquotes ⟨body ++ rest, rfl⟩
    · obtain ⟨rfl, hmore⟩ := List.cons.inj hcs
      obtain ⟨rfl, -⟩ := List.cons.inj hmore
      exact hquotes ⟨ds ++ '"' :: (body ++ rest), rfl⟩
  obtain ⟨hclosed, hopen⟩ := closedBody_of_string_behind hbody hnone ('"' :: tail)
  rw [string.eq_2 _ hquotes', hclosed, hopen, htaken]

theorem scan_of_lex_cons {c : Char} {taken cs : Text} {kind : TokenKind}
    {ts : List (TokenKind × Text)} (h : lex (c :: cs) = (kind, c :: taken) :: ts) :
    scan c cs = (kind, taken) := by
  rw [lex_cons] at h
  obtain ⟨hkind, htext⟩ := Prod.ext_iff.mp (List.cons.inj h).1
  exact Prod.ext hkind (List.cons.inj htext).2

/-- What is scanned of a token in front of a string does not depend on what is in the string. -/
theorem scan_of_string_behind {source body taken : Text} {c : Char} {kind : TokenKind}
    {front back : List (TokenKind × Text)}
    (h : lex source = (kind, c :: taken) :: (front ++ (.string, '"' :: body) :: back))
    (hclosed : closedBody (body ++ back.flatMap (·.2)) = some body) (tail : Text) :
    scan c (taken ++ front.flatMap (·.2) ++ '"' :: tail) = (kind, taken) := by
  by_cases hopen : kind = .unterminatedString
  · subst hopen
    have hsource : source =
        c :: (taken ++ front.flatMap (·.2) ++ '"' :: (body ++ back.flatMap (·.2))) := by
      rw [← flatMap_lex source, h]
      simp
    rw [hsource] at h
    have hscan := scan_of_lex_cons h
    obtain ⟨rfl, hstring⟩ := scan_quoted (.inr (.inl rfl)) (congrArg Prod.fst hscan)
    rw [hscan] at hstring
    exact string_of_string_behind hclosed hstring (List.prefix_append _ _) tail
  · have hfront := (@lex_cut _ (_ :: front) _ h).1
    rw [List.flatMap_cons, List.cons_append] at hfront
    have hscan := scan_of_lex_cons hfront
    refine (scan_append_of_endsAt (parted_cons (by decide)) ?_ fun hwhole => ?_).trans hscan
    · rw [hscan]
      exact hopen
    · -- nothing stands between the token and the string
      rw [hscan] at hwhole ⊢
      obtain rfl : front = [] := by
        cases front with
        | nil => rfl
        | cons u us =>
          have hne := text_ne_nil_of_mem_lex (t := u) (by rw [h]; simp)
          have hnil : u.2 ++ us.flatMap (·.2) = [] := by simpa using hwhole
          exact absurd (List.append_eq_nil_iff.mp hnil).1 hne
      exact (endsAt_of_lex_cons h).of_head? rfl

/-- A string can be changed without changing the tokens around it. -/
theorem lex_of_string_changed {source body body' : Text} {front back : List (TokenKind × Text)}
    (h : lex source = front ++ (.string, '"' :: body) :: back)
    (hnew : lex ('"' :: (body' ++ back.flatMap (·.2))) = (.string, '"' :: body') :: back) :
    lex (front.flatMap (·.2) ++ '"' :: (body' ++ back.flatMap (·.2))) =
      front ++ (.string, '"' :: body') :: back := by
  have hself := (lex_cut h).2
  rw [List.flatMap_cons, List.cons_append] at hself
  have hclosed := closedBody_of_string (scan_of_lex_cons hself)
  induction front generalizing source with
  | nil => exact hnew
  | cons u us ih =>
    obtain ⟨kind, text⟩ := u
    obtain ⟨c, taken, rfl⟩ : ∃ c taken, text = c :: taken :=
      List.exists_cons_of_ne_nil (text_ne_nil_of_mem_lex (t := (kind, text)) (by rw [h]; simp))
    have hscan := scan_of_string_behind h hclosed (body' ++ back.flatMap (·.2))
    rw [List.append_assoc] at hscan
    rw [List.flatMap_cons, List.append_assoc, List.cons_append, lex_of_scan hscan,
      ih (@lex_cut _ [_] _ h).2]
    rfl

end Lexer

/-! ## A document with one string changed -/

namespace Parse

theorem exists_around_lexeme {source : Text} {l : Lexeme} (hl : l ∈ lexemes source) :
    ∃ (front back : List Lexeme) (trailing : List (TokenKind × Text)),
      lexemes source = front ++ l :: back ∧ (∀ t ∈ trailing, t.1.isTrivia = true) ∧
      Lexer.lex source = spelled (front.map Lexeme.spelling) ++ l.spelling.1 ++
        l.token.word :: (spelled (back.map Lexeme.spelling) ++ trailing) ∧
      l.token.span = ⟨Text.size ((spelled (front.map Lexeme.spelling) ++ l.spelling.1).flatMap (·.2)),
        Text.size ((spelled (front.map Lexeme.spelling) ++ l.spelling.1).flatMap (·.2)) +
          l.token.text.size⟩ := by
  obtain ⟨front, back, hsplit⟩ := List.mem_iff_append.mp hl
  obtain ⟨trailing, hlex, htrailing⟩ := exists_lex_eq source
  refine ⟨front, back, trailing, hsplit, htrailing, ?_, ?_⟩
  · rw [hlex, hsplit]
    simp [spelled, Lexeme.spelling]
  · have hp := placed_lexemes source
    rw [hsplit] at hp
    obtain ⟨-, hstart⟩ := start_of_placed (placed_append.mp hp).2
    have hspan := span_firstToken (d := .leaf l) (placed_head (placed_append.mp hp).2)
    have hsize : Text.size ((spelled (front.map Lexeme.spelling) ++ l.spelling.1).flatMap (·.2)) =
        0 + Lexeme.sizeList front + Token.sizeList l.trivia := by
      rw [List.flatMap_append, Text.size_append, size_spelled, Lexeme.spelling, List.flatMap_map,
        Nat.zero_add, ← Token.size_flatMap_text]
      rfl
    rw [hsize]
    exact hspan

end Parse

def invalidCount (w : TokenKind × Text) : Nat :=
  if w.1 = .string then (Quoted.invalidEscapes w.2).length else 0

theorem exists_of_mem_invalidEscapes {t : Token} {d : Diagnostic}
    (h : d ∈ Validation.invalidEscapes t.leafView) :
    t.kind = .string ∧ ∃ span ∈ Quoted.invalidEscapes t.text,
      d = Validation.invalidEscape ((t.text.slice? span.start span.stop).getD [])
        ⟨t.span.start + span.start, t.span.start + span.stop⟩ := by
  have hkind : t.kind = .string := by
    by_contra hne
    rw [Validation.invalidEscapes_of_ne fun hlabel => hne (Label.token.inj hlabel)] at h
    exact List.not_mem_nil h
  have hlabel : t.leafView.label = .token .string := congrArg Label.token hkind
  rw [Validation.invalidEscapes, if_pos hlabel] at h
  obtain ⟨span, hspan, rfl⟩ := List.mem_map.mp h
  exact ⟨hkind, span, hspan, rfl⟩

theorem length_invalidEscapes_leafView (t : Token) :
    (Validation.invalidEscapes t.leafView).length = invalidCount t.word := by
  obtain ⟨kind, span, text⟩ := t
  by_cases hkind : kind = .string
  · subst hkind
    exact List.length_map _
  · have hnone : invalidCount (kind, text) = 0 := if_neg hkind
    rw [Validation.invalidEscapes_of_ne fun hlabel => hkind (Label.token.inj hlabel)]
    exact hnone.symm

namespace Parse

theorem mem_lexemes_of_mem_scalars {source : Text} {l : Lexeme} (h : l ∈ scalars source) :
    l ∈ lexemes source := by
  obtain ⟨x, hx, hl⟩ := List.mem_filterMap.mp h
  exact mem_lexemes_of_mem_ownLexemes hx (mem_ownLexemes_of_scalar? hl)

theorem countP_invalidEscape_check (source : Text) :
    (check .default source).countP (·.category == .invalidEscape) =
      ((scalars source).map (invalidCount ·.token.word)).sum := by
  rw [List.countP_eq_length_filter, ← findings, findings_invalidEscape,
    (perm_sortByRange _ _).length_eq, List.length_flatMap]
  exact congrArg List.sum (List.map_congr_left fun l _ => length_invalidEscapes_leafView l.token)

end Parse

/-! ## Meanings -/

namespace Draft

def wordMeaning? (kind : NodeKind) (w : TokenKind × Text) : Option Text :=
  match kind with
  | .key => some (if w.1 = .string then Quoted.unescape w.2 else w.2)
  | .value =>
    if w.1 = .string then some (Quoted.unescape w.2)
    else if w.1 = .multilineString then some (Quoted.stripTripleQuotes w.2)
    else none
  | _ => none

/-- What a draft means, if it is a key or a string. -/
def meaning? : Draft → Option Text
  | leaf _ => none
  | node kind before first rest after =>
    (node kind before first rest after).scalar?.bind fun l => wordMeaning? kind l.token.word

theorem meaning?_of_anyView? {x : Standing} {v : AnyView} (hf : Formed x.draft) (hp : x.IsPlaced)
    (hv : x.site.anyView? = some v) : v.meaning? = x.draft.meaning? := by
  obtain ⟨kind, before, first, rest, after, hd, rfl⟩ := Standing.exists_node_of_anyView? hv
  have hp : Placed x.offset x.draft.lexemes := hp
  rw [hd] at hf hp ⊢
  have htrivia {l : Lexeme} (hl : Placed x.offset [l]) : l.kind.isTrivia = false :=
    (hl.2 l List.mem_cons_self).2
  cases kind with
  | key =>
    obtain ⟨l, rfl, rfl⟩ := exists_leaf_of_formed_key hf
    show some (View.Key.meaning _) = _
    rw [View.Key.meaning, View.Key.leaf?, significantLeaf?_viewOf _ _ _ (htrivia hp)]
    simp only [Label.token.injEq]
    rfl
  | value =>
    obtain ⟨rfl, ⟨l, rfl⟩ | ⟨k, b, f, r, a, rfl⟩⟩ := cases_of_formed_value hf
    · show View.Value.string? _ = _
      rw [View.Value.string?, content_leaf _ _ (htrivia hp)]
      obtain ⟨trivia, kind, span, text⟩ := l
      cases kind <;> rfl
    · show View.Value.string? _ = none
      rw [View.Value.string?, content_viewOf_node, View.Content.ofNode]
      generalize siteOf x.offset x.before (node k b f r a) = s
      cases s.view? .object <;> cases s.view? .array <;> cases s.view? .invalidValue <;> rfl
  | _ => rfl

theorem Recasting.Renews.meaning?_eq {r : Recasting} (hquotes : ∀ l, r.quotes l = false)
    {d d' : Draft} (h : r.Renews d d') (hf : Formed d)
    (hword : ∀ l, d.scalar? = some l → ∀ kind,
      wordMeaning? kind (r.map l).token.word = wordMeaning? kind l.token.word) :
    d'.meaning? = d.meaning? := by
  have hscalar := h.scalar?_eq hquotes hf
  obtain ⟨kind, before, first, rest, after, before', first', rest', after', rfl, rfl, -⟩ :=
    h.exists_nodes
  rw [meaning?, hscalar, meaning?]
  cases hd : scalar? (node kind before first rest after) with
  | none => rfl
  | some l => exact hword l hd kind

end Draft

theorem Parse.meanings_parse (source : Text) :
    (parse source).meanings = none :: (standings source).map (·.draft.meaning?) := by
  obtain ⟨file, hviews⟩ := views_parse source
  rw [meanings, hviews, List.map_cons, List.map_map]
  refine congrArg (none :: ·) (List.map_congr_left fun x hx => ?_)
  obtain ⟨kind, before, first, rest, after, hdraft⟩ := exists_node_of_mem_standings hx
  have hv := Standing.anyView?_site hdraft
  rw [Function.comp_apply, hv, Option.getD_some]
  exact meaning?_of_anyView? (formed_of_mem_standings hx) (isPlaced_of_mem_standings hx) hv

/-- Whether a text is another one with one token written in another way, and what becomes of each
lexeme. -/
structure Rewritten (source text : Text) (changed : Lexeme) (new : Text) (m : Lexeme → Lexeme) :
    Prop where
  lexemes_eq : Parse.lexemes text = (Parse.lexemes source).map m
  spelling_eq : ∀ l ∈ Parse.lexemes source, (m l).spelling =
    if l = changed then (l.spelling.1, (l.kind, new)) else l.spelling
  eq_self : ∀ l ∉ Parse.lexemes source, m l = l

/-- If the tokens of a text are those of another but for the text of one, so are its lexemes. -/
theorem exists_rewritten {source text new : Text} {changed : Lexeme} {front back : List Lexeme}
    {trailing : List (TokenKind × Text)} (hsplit : Parse.lexemes source = front ++ changed :: back)
    (htrailing : ∀ t ∈ trailing, t.1.isTrivia = true)
    (hlex : Lexer.lex text = spelled (front.map Lexeme.spelling) ++ changed.spelling.1 ++
      (changed.kind, new) :: (spelled (back.map Lexeme.spelling) ++ trailing)) :
    ∃ m, Rewritten source text changed new m := by
  have hp := Parse.placed_lexemes source
  have hnodup := Parse.nodup_lexemes source
  let g (l : Lexeme) : List (TokenKind × Text) × (TokenKind × Text) :=
    if l = changed then (l.spelling.1, (l.kind, new)) else l.spelling
  have hothers {ls : List Lexeme} (hls : changed ∉ ls) : ls.map g = ls.map Lexeme.spelling :=
    List.map_congr_left fun l hl => if_neg (ne_of_mem_of_not_mem hl hls)
  have htokens : Lexer.lex text = spelled ((Parse.lexemes source).map g) ++ trailing := by
    rw [hsplit] at hnodup ⊢
    obtain ⟨-, hback, happart⟩ := List.nodup_append.mp hnodup
    have hfront : changed ∉ front := fun hmem => happart _ hmem _ List.mem_cons_self rfl
    rw [hlex, List.map_append, List.map_cons, hothers hfront,
      hothers (List.nodup_cons.mp hback).1]
    simp [spelled, g]
  have hspelling : ∀ u ∈ (Parse.lexemes source).map g, IsSpelling u := by
    intro u hu
    obtain ⟨l, hl, rfl⟩ := List.mem_map.mp hu
    have hvalid := isSpelling_spelling (hp.2 l hl)
    simp only [g]
    split
    · exact ⟨hvalid.1, (hp.2 l hl).2⟩
    · exact hvalid
  obtain ⟨m, hlexemes, hm, hself⟩ := exists_map_of_map_eq hnodup
    (Parse.map_spelling_lexemes htokens hspelling htrailing)
  exact ⟨m, hlexemes, hm, hself⟩

namespace Rewritten

variable {source text new : Text} {changed : Lexeme} {m : Lexeme → Lexeme}

theorem kind_eq (h : Rewritten source text changed new m) (l : Lexeme) : (m l).kind = l.kind := by
  by_cases hl : l ∈ Parse.lexemes source
  · have hspelling := congrArg (·.2.1) (h.spelling_eq l hl)
    split at hspelling <;> exact hspelling
  · rw [h.eq_self l hl]

/-- A sign stands with its number as it did, if the token that changed is no sign. -/
theorem isSignedNumber_map (h : Rewritten source text changed new m)
    (hchanged : changed.kind ≠ .badCharacter) {l n : Lexeme}
    (hnext : [l, n] <:+: Parse.lexemes source) :
    isSignedNumber (m l).token (m n).token = isSignedNumber l.token n.token := by
  have hl : l ∈ Parse.lexemes source := hnext.subset (by simp)
  have hn : n ∈ Parse.lexemes source := hnext.subset (by simp)
  have hnext' : [m l, m n] <:+: Parse.lexemes text := by
    rw [h.lexemes_eq]
    exact hnext.map m
  have hplus : (m l).spelling.2 = (.badCharacter, ['+']) ↔
      l.spelling.2 = (.badCharacter, ['+']) := by
    rw [h.spelling_eq l hl]
    split
    · rename_i heq
      have hne : l.kind ≠ .badCharacter := heq ▸ hchanged
      exact ⟨fun hspelling => absurd (congrArg Prod.fst hspelling) hne,
        fun hspelling => absurd (congrArg Prod.fst hspelling) hne⟩
    · rfl
  have htrivia : (m n).spelling.1 = n.spelling.1 := by
    rw [h.spelling_eq n hn]
    split <;> rfl
  have hkind : (m n).spelling.2.1 = n.spelling.2.1 := h.kind_eq n
  rw [Bool.eq_iff_iff, isSignedNumber_iff (Parse.placed_lexemes source) hnext,
    isSignedNumber_iff (Parse.placed_lexemes text) hnext', SpellsSigned, SpellsSigned, hplus,
    htrivia, hkind]

theorem recast (h : Rewritten source text changed new m)
    (hchanged : changed.kind ≠ .badCharacter) :
    Recast (Recasting.relaid m h.kind_eq) .file (Parse.drafts source) (Parse.drafts text) :=
  Parse.recast_relaid h.kind_eq h.lexemes_eq fun _ _ hnext => h.isSignedNumber_map hchanged hnext

theorem word_eq (h : Rewritten source text changed new m) {l : Lexeme}
    (hl : l ∈ Parse.lexemes source) : (m l).token.word =
      if l = changed then (l.kind, new) else l.token.word := by
  have hword := congrArg Prod.snd (h.spelling_eq l hl)
  split at hword
  · rename_i heq
    rw [if_pos heq]
    exact hword
  · rename_i heq
    rw [if_neg heq]
    exact hword

/-- If a string among the keys and values has one invalid escape fewer, a check tells one fewer. -/
theorem countP_invalidEscape (h : Rewritten source text changed new m)
    (hchanged : changed.kind = .string) (hmem : changed ∈ Parse.scalars source)
    (hfewer : (Quoted.invalidEscapes new).length + 1 =
      (Quoted.invalidEscapes changed.token.text).length) :
    (check .default text).countP (·.category == .invalidEscape) + 1 =
      (check .default source).countP (·.category == .invalidEscape) := by
  have hscalars : Parse.scalars text = (Parse.scalars source).map m :=
    Parse.scalars_of_recast (fun _ => rfl) (h.recast (by rw [hchanged]; decide))
  have hnodup := Parse.nodup_scalars source
  have hlexemes : ∀ l ∈ Parse.scalars source, l ∈ Parse.lexemes source :=
    fun _ => Parse.mem_lexemes_of_mem_scalars
  rw [Parse.countP_invalidEscape_check, Parse.countP_invalidEscape_check, hscalars]
  obtain ⟨front, back, hsplit⟩ := List.mem_iff_append.mp hmem
  rw [hsplit] at hnodup hlexemes ⊢
  obtain ⟨-, hback, happart⟩ := List.nodup_append.mp hnodup
  -- no other token changes
  have hothers {ls : List Lexeme} (hls : ∀ l ∈ ls, l ∈ front ++ changed :: back) (hne : changed ∉ ls) :
      (ls.map m).map (invalidCount ·.token.word) = ls.map (invalidCount ·.token.word) := by
    rw [List.map_map]
    refine List.map_congr_left fun l hl => ?_
    rw [Function.comp_apply, h.word_eq (hlexemes l (hls l hl)),
      if_neg (ne_of_mem_of_not_mem hl hne)]
  have hself := h.word_eq (hlexemes changed (by simp))
  have hold : changed.token.word = (.string, changed.token.text) :=
    Prod.ext hchanged rfl
  rw [if_pos rfl, hchanged] at hself
  rw [List.map_append, List.map_cons, List.map_append, List.map_cons,
    hothers (fun l hl => List.mem_append_left _ hl)
      (fun hmem => happart _ hmem _ List.mem_cons_self rfl),
    hothers (fun l hl => List.mem_append_right _ (List.mem_cons_of_mem _ hl))
      (List.nodup_cons.mp hback).1,
    List.map_append, List.map_cons, hself, hold, List.sum_append, List.sum_append, List.sum_cons,
    List.sum_cons]
  simp only [invalidCount, if_true]
  omega

theorem meanings_eq (h : Rewritten source text changed new m) (hchanged : changed.kind = .string)
    (hsame : Quoted.unescape new = Quoted.unescape changed.token.text) :
    (parse text).meanings = (parse source).meanings := by
  have hnodes := standingsRow_of_recast (fun _ => rfl) (h.recast (by rw [hchanged]; decide)) 0 0 [] []
  have hword {l : Lexeme} (hl : l ∈ Parse.lexemes source) (kind : NodeKind) :
      wordMeaning? kind (m l).token.word = wordMeaning? kind l.token.word := by
    rw [h.word_eq hl]
    split
    · rename_i heq
      subst heq
      have hold : l.token.word = (.string, l.token.text) := Prod.ext hchanged rfl
      rw [hchanged, hold]
      cases kind <;> simp [wordMeaning?, hsame]
    · rfl
  rw [Parse.meanings_parse, Parse.meanings_parse]
  refine congrArg (none :: ·) (map_eq_of_forall₂ hnodes fun x hx x' _ hrenews => ?_)
  refine hrenews.meaning?_eq (fun _ => rfl) (Parse.formed_of_mem_standings hx) fun l hl => ?_
  exact hword (Parse.mem_lexemes_of_mem_scalars (Parse.mem_scalars hx hl))

end Rewritten

/-! ## The fix -/

namespace Lexer

theorem exists_string_of_lex {text : Text} {back : List (TokenKind × Text)}
    (h : lex (text ++ back.flatMap (·.2)) = (.string, text) :: back) :
    ∃ body, text = '"' :: body ∧ closedBody (body ++ back.flatMap (·.2)) = some body := by
  obtain ⟨c, body, rfl⟩ : ∃ c body, text = c :: body :=
    List.exists_cons_of_ne_nil (text_ne_nil_of_mem_lex (t := (.string, text)) (by rw [h]; simp))
  have hscan := scan_of_lex_cons h
  obtain ⟨rfl, hstring⟩ := scan_quoted (.inl rfl) (congrArg Prod.fst hscan)
  rw [hscan] at hstring
  exact ⟨body, rfl, closedBody_of_string hstring⟩

theorem lex_of_closedBody {c : Char} {body rest : Text} (hc : c ≠ '"')
    (h : closedBody (c :: body ++ rest) = some (c :: body)) :
    lex ('"' :: (c :: body ++ rest)) = (.string, '"' :: c :: body) :: lex rest := by
  refine lex_of_scan ?_
  show string (c :: body ++ rest) = _
  rw [string.eq_2, h]
  rintro cs hcs
  exact hc (List.cons.inj hcs).1

theorem lex_escaped {a b rest : Text} {c : Char} (hpaired : Paired a)
    (hc : escapes.lookup c = none)
    (hclosed : closedBody (a ++ '\\' :: c :: b ++ rest) = some (a ++ '\\' :: c :: b)) :
    lex ('"' :: (a ++ '\\' :: '\\' :: c :: b ++ rest)) =
      (.string, '"' :: (a ++ '\\' :: '\\' :: c :: b)) :: lex rest := by
  have hclosed' := closedBody_escaped hpaired hc hclosed
  have hfirst : ∀ d ds, a ++ '\\' :: '\\' :: c :: b = d :: ds → d ≠ '"' := by
    rintro d ds hds rfl
    rw [hds, List.cons_append, closedBody_quote] at hclosed'
    have hnil : ds = [] := (List.cons.inj (Option.some.inj hclosed')).2.symm
    have hlength := congrArg List.length hds
    simp only [hnil, List.length_append, List.length_cons, List.length_nil] at hlength
    omega
  obtain ⟨d, ds, hds⟩ := List.exists_cons_of_ne_nil
    (show a ++ '\\' :: '\\' :: c :: b ≠ [] by simp)
  rw [hds] at hclosed' ⊢
  exact lex_of_closedBody (hfirst d ds hds) hclosed'

theorem tokenize_around {source : Text} {kind : TokenKind} {text : Text}
    {front back : List (TokenKind × Text)} (h : lex source = front ++ (kind, text) :: back) :
    tokenize source = place 0 front ++
      ⟨kind, ⟨Text.size (front.flatMap (·.2)), Text.size (front.flatMap (·.2)) + text.size⟩, text⟩ ::
        place (Text.size (front.flatMap (·.2)) + text.size) back := by
  rw [tokenize, h, place_append_size, place, Nat.zero_add]

theorem exists_tokens_escaped {source text : Text} {front back : List (TokenKind × Text)}
    {a b : Text} (h : lex source = front ++ (.string, a ++ '\\' :: b) :: back)
    (h' : lex text = front ++ (.string, a ++ '\\' :: '\\' :: b) :: back) :
    ∃ before t after, tokenize source = before ++ t :: after ∧ t.kind = .string ∧
      t.text = a ++ '\\' :: b ∧ t.span.start = Text.size (front.flatMap (·.2)) ∧
      tokenize text = before ++ ⟨.string, ⟨t.span.start, t.span.stop + 1⟩, a ++ '\\' :: '\\' :: b⟩ ::
        (after.map fun u => { u with span := ⟨u.span.start + 1, u.span.stop + 1⟩ }) := by
  refine ⟨_, _, _, tokenize_around h, rfl, rfl, rfl, ?_⟩
  have hsize : Text.size (a ++ '\\' :: '\\' :: b) = Text.size (a ++ '\\' :: b) + 1 := by
    have hslash : '\\'.utf8Size = 1 := by decide
    simp only [Text.size_append, Text.size_cons]
    omega
  rw [tokenize_around h', hsize, ← Nat.add_assoc]
  congr 2
  exact (map_shift_place 1 _ back).symm

end Lexer

theorem Parse.exists_quote_of_string {source : Text} {l : Lexeme} (hl : l ∈ lexemes source)
    (hkind : l.kind = .string) : ∃ body, l.token.text = '"' :: body := by
  obtain ⟨front, back, trailing, -, -, hlex, -⟩ := exists_around_lexeme hl
  have hself := (Lexer.lex_cut hlex).2
  rw [List.flatMap_cons, show l.token.word = (.string, l.token.text) from Prod.ext hkind rfl] at hself
  obtain ⟨body, hbody, -⟩ := Lexer.exists_string_of_lex hself
  exact ⟨body, hbody⟩

theorem exists_escaped {source : Text} {l : Lexeme} (hl : l ∈ Parse.scalars source)
    (hkind : l.kind = .string) {a b : Text} {c : Char} (htext : l.token.text = a ++ '\\' :: c :: b)
    (hpaired : Paired a) (hc : escapes.lookup c = none)
    (hcode : ¬ (c == 'u' && startsWithCode b) = true) :
    ∃ text, applyEdits source [.insert (l.token.span.start + Text.size a) ['\\']] = .ok text ∧
      EscapesOnly source text (l.token.span.start + Text.size a) := by
  obtain ⟨front, back, trailing, hsplit, htrailing, hlex, hspan⟩ :=
    Parse.exists_around_lexeme (Parse.mem_lexemes_of_mem_scalars hl)
  have hword : l.token.word = (.string, a ++ '\\' :: c :: b) := Prod.ext hkind htext
  generalize hF : spelled (front.map Lexeme.spelling) ++ l.spelling.1 = F at hlex hspan
  generalize hB : spelled (back.map Lexeme.spelling) ++ trailing = B at hlex
  rw [hword] at hlex
  have hself := (Lexer.lex_cut hlex).2
  rw [List.flatMap_cons] at hself
  obtain ⟨body, hbody, hclosed⟩ := Lexer.exists_string_of_lex hself
  obtain ⟨a, rfl⟩ : ∃ front, a = '"' :: front := by
    cases a with
    | nil => exact absurd (List.cons.inj hbody).1 (by decide)
    | cons d front => exact ⟨front, by rw [(List.cons.inj hbody).1]⟩
  obtain rfl : body = a ++ '\\' :: c :: b := (List.cons.inj hbody).2.symm
  have hpaired' : Paired a := (paired_cons_iff (by decide)).mp hpaired
  -- the string with another backslash is one token in front of what was behind it
  have hnew := Lexer.lex_escaped hpaired' hc hclosed
  rw [(@Lexer.lex_cut _ [_] _ hself).2] at hnew
  have hlex' := Lexer.lex_of_string_changed hlex hnew
  obtain ⟨m, hm⟩ := @exists_rewritten _ _ ('"' :: (a ++ '\\' :: '\\' :: c :: b)) _ _ _ _ hsplit
    htrailing (by rw [hkind, hF, hB]; exact hlex')
  have hstart : l.token.span.start = Text.size (F.flatMap (·.2)) := by rw [hspan]
  have hoffset : l.token.span.start + Text.size ('"' :: a) =
      Text.size (F.flatMap (·.2) ++ '"' :: a) := by
    rw [hstart, Text.size_append]
  have happly := applyEdits_insert (F.flatMap (·.2) ++ '"' :: a) ['\\']
    ('\\' :: c :: b ++ B.flatMap (·.2))
  have hsource : F.flatMap (·.2) ++ '"' :: a ++ ('\\' :: c :: b ++ B.flatMap (·.2)) = source := by
    rw [← Lexer.flatMap_lex source, hlex]
    simp
  rw [← hoffset, hsource] at happly
  have hsame := unescape_escaped hpaired' hc hcode hclosed
  have hfewer := @length_invalidEscapes ('"' :: a) _ _ hpaired hc hcode
  rw [List.cons_append, List.cons_append] at hfewer
  refine ⟨_, happly, ?_⟩
  have htext' : F.flatMap (·.2) ++ '"' :: a ++ (['\\'] ++ ('\\' :: c :: b ++ B.flatMap (·.2))) =
      F.flatMap (·.2) ++ '"' :: (a ++ '\\' :: '\\' :: c :: b ++ B.flatMap (·.2)) := by
    simp
  rw [htext']
  obtain ⟨before, t, after, htokens, htkind, httext, htstart, htokens'⟩ :=
    @Lexer.exists_tokens_escaped _ _ _ _ ('"' :: a) _ hlex hlex'
  refine ⟨⟨before, t, after, '"' :: a, c :: b, htokens, htkind, httext, ?_, htokens', ?_⟩,
    Parse.expectations_of_relaid (hm.recast (by rw [hkind]; decide)),
    hm.countP_invalidEscape hkind hl (by rw [htext]; exact hfewer),
    hm.meanings_eq hkind (by rw [htext]; exact hsame)⟩
  · rw [hstart, htstart]
  · rw [httext]
    exact hsame

/-- The fix of an invalid escape puts another backslash in front of it. The string means the same
and has one invalid escape fewer; the other tokens, what is expected at mistakes, and what the other
keys and strings mean, stay as they are. -/
theorem escape_fix_keeps_meaning {source : Text} {d : Diagnostic} (hd : d ∈ check .default source)
    (hcategory : d.category = .invalidEscape) :
    ∃ fix text, d.fixes = [fix] ∧ fix.title = "Escape backslash" ∧
      fix.apply source = .ok text ∧ EscapesOnly source text d.range.start := by
  have hfound : d ∈ findings source .invalidEscape :=
    List.mem_filter.mpr ⟨hd, beq_iff_eq.mpr hcategory⟩
  rw [Parse.findings_invalidEscape, mem_sortByRange] at hfound
  obtain ⟨l, hl, hd⟩ := List.mem_flatMap.mp hfound
  obtain ⟨hkind, span, hspan, rfl⟩ := exists_of_mem_invalidEscapes hd
  obtain ⟨a, c, b, htext, hstart, hpaired, hc, hcode⟩ := exists_of_mem_invalidFrom hspan
  obtain ⟨text, happly, hescapes⟩ := exists_escaped hl hkind htext hpaired hc hcode
  have hoffset : l.token.span.start + span.start = l.token.span.start + Text.size a := by
    rw [hstart, Nat.zero_add]
  refine ⟨_, text, rfl, rfl, ?_, ?_⟩
  · show applyEdits source [.insert (l.token.span.start + span.start) ['\\']] = _
    rw [hoffset, happly]
  · show EscapesOnly source text (l.token.span.start + span.start)
    rw [hoffset]
    exact hescapes

/-- A letter that has no escape, behind an escaped quote. -/
theorem escape_fix_keeps_meaning_of_letter :
    let source : Text := ['[', '"', '\\', '"', '\\', 'q', '"', ']']
    let d := Validation.invalidEscape ['\\', 'q'] ⟨4, 6⟩
    d ∈ check .default source ∧ d.category = .invalidEscape ∧
      ∃ fix text, d.fixes = [fix] ∧ fix.title = "Escape backslash" ∧
        fix.apply source = .ok text ∧ EscapesOnly source text d.range.start := by
  have hd : Validation.invalidEscape ['\\', 'q'] ⟨4, 6⟩ ∈
      check .default ['[', '"', '\\', '"', '\\', 'q', '"', ']'] := by
    decide +kernel
  exact ⟨hd, rfl, escape_fix_keeps_meaning hd rfl⟩

end Maml
