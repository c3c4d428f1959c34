import Maml.Proofs.Escapes
import Maml.Proofs.RoundTrip

/-! Quoted texts mean themselves.

1. A character is written as one part. The part means the character, and a quoted string
   goes on behind it (`Quoted.writes_partOf`).
2. So a quoted text is one string token (`Quoted.lex_quote`) without invalid escapes
   (`Quoted.invalidEscapes_quote`), which means the text (`Quoted.unescape_quote`).
3. It is read without a mistake as a value and as a key, and means the text there too
   (`quote_read_back`). -/
namespace Maml

namespace Quoted

open Lexer

/-! ## Rules on what is written -/

theorem closedBody_hexDigit {c : Char} (h : isHexDigit c = true) (cs : Text) :
    closedBody (c :: cs) = (closedBody cs).map (c :: ·) := by
  have hne {d : Char} (hd : isHexDigit d = false) : c ≠ d := by
    rintro rfl
    exact absurd (h.symm.trans hd) (by decide)
  apply closedBody_cons (hne rfl) (hne rfl)
  simp [isLineBreak, hne (d := '\n') rfl, hne (d := '\r') rfl]

theorem hexDigit_spec : ∀ n < 16, isHexDigit (hexDigit n) = true ∧
    hexDigitValue (hexDigit n) = n := by
  decide

/-- The four digits of a small number. -/
def codeOf (n : Nat) : Text := ['0', '0', hexDigit (n / 16), hexDigit (n % 16)]

theorem isHexDigit_of_mem_codeOf {n : Nat} (h : n < 256) :
    ∀ c ∈ codeOf n, isHexDigit c = true := by
  intro c hc
  simp only [codeOf, List.mem_cons, List.not_mem_nil, or_false] at hc
  rcases hc with rfl | rfl | rfl | rfl
  · rfl
  · rfl
  · exact (hexDigit_spec (n / 16) (by omega)).1
  · exact (hexDigit_spec (n % 16) (by omega)).1

theorem hexValue_codeOf {n : Nat} (h : n < 256) : hexValue (codeOf n) = n := by
  have hhigh := (hexDigit_spec (n / 16) (by omega)).2
  have hlow := (hexDigit_spec (n % 16) (by omega)).2
  have hzero : hexDigitValue '0' = 0 := rfl
  calc hexValue (codeOf n)
      = 16 * (16 * (16 * (16 * 0 + 0) + 0) + n / 16) + n % 16 := by
        simp only [hexValue, codeOf, List.foldl_cons, List.foldl_nil, hzero, hhigh, hlow]
    _ = n := by omega

theorem charOfCode?_toNat (c : Char) : charOfCode? c.toNat = some c := by
  have hvalid : c.toNat.isValidChar := c.valid
  rw [charOfCode?, if_pos hvalid, Char.ofNat_toNat]

/-! ## How a character is written -/

/-- Whether a part is how a character is written between quotes. -/
structure Writes (p : Part) (c : Char) : Prop where
  text : p.text = escapeChar c
  meaning : p.meaning? = some c
  /-- It does not begin with a quote, so it makes no triple quote with the one in front. -/
  begins : ∃ d ds, p.text = d :: ds ∧ d ≠ '"'
  parts_append (rest : Text) : parts (p.text ++ rest) = p :: parts rest
  /-- It does not close the string, nor break its line. -/
  closedBody_append (rest : Text) :
    closedBody (p.text ++ rest) = (closedBody rest).map (p.text ++ ·)

theorem writes_escape {c d : Char} (htext : escapeChar c = ['\\', d])
    (hmeaning : escapes.lookup d = some c) (hcode : d ≠ 'u') (hbreak : isLineBreak d = false) :
    Writes (.escape d) c where
  text := htext.symm
  meaning := hmeaning
  begins := ⟨'\\', [d], rfl, by decide⟩
  parts_append rest := by
    show parts ('\\' :: d :: rest) = _
    rw [parts, if_neg (by simp [hcode])]
  closedBody_append rest := closedBody_escape hbreak rest

theorem writes_code {c : Char} (hsmall : c.toNat < 256)
    (htext : escapeChar c = '\\' :: 'u' :: codeOf c.toNat) :
    Writes (.code (codeOf c.toNat)) c where
  text := htext.symm
  meaning := by rw [Part.meaning?, hexValue_codeOf hsmall, charOfCode?_toNat]
  begins := ⟨'\\', _, rfl, by decide⟩
  parts_append rest := by
    have hcode : startsWithCode (codeOf c.toNat ++ rest) = true := by
      simpa [startsWithCode, codeOf] using isHexDigit_of_mem_codeOf hsmall
    show parts ('\\' :: 'u' :: (codeOf c.toNat ++ rest)) = _
    rw [parts, if_pos (by simp [hcode])]
    rfl
  closedBody_append rest := by
    have hdigits := isHexDigit_of_mem_codeOf hsmall
    simp only [codeOf, List.forall_mem_cons] at hdigits
    obtain ⟨h0, h1, h2, h3, -⟩ := hdigits
    show closedBody ('\\' :: 'u' :: (codeOf c.toNat ++ rest)) = _
    rw [closedBody_escape rfl]
    simp only [codeOf, List.cons_append, List.nil_append, closedBody_hexDigit, h0, h2, h3,
      Option.map_map]
    rfl

theorem writes_plain {c : Char} (htext : escapeChar c = [c]) (hslash : c ≠ '\\')
    (hquote : c ≠ '"') (hbreak : isLineBreak c = false) : Writes (.plain c) c where
  text := htext.symm
  meaning := rfl
  begins := ⟨c, [], rfl, hquote⟩
  parts_append rest := parts.eq_3 c rest fun _ _ h => absurd h hslash
  closedBody_append rest := closedBody_cons hslash hquote hbreak rest

def partOf (c : Char) : Part :=
  match c with
  | '"' => .escape '"'
  | '\\' => .escape '\\'
  | '\n' => .escape 'n'
  | '\r' => .escape 'r'
  | '\t' => .escape 't'
  | '\x08' => .escape 'b'
  | '\x0c' => .escape 'f'
  | c => if isControl c then .code (codeOf c.toNat) else .plain c

theorem writes_partOf (c : Char) : Writes (partOf c) c := by
  unfold partOf
  split
  case h_8 hquote hslash hline hreturn htab hback hfeed =>
    have htext := escapeChar.eq_8 c hquote hslash hline hreturn htab hback hfeed
    split
    · rename_i hcontrol
      have hsmall : c.toNat < 256 := by
        simp only [isControl, Bool.or_eq_true, Bool.and_eq_true, decide_eq_true_eq] at hcontrol
        omega
      exact writes_code hsmall (htext.trans (if_pos hcontrol))
    · rename_i hcontrol
      have hbreak : isLineBreak c = false := by
        rw [isLineBreak, beq_false_of_ne hline, beq_false_of_ne hreturn, Bool.or_false]
      exact writes_plain (htext.trans (if_neg hcontrol)) hslash hquote hbreak
  all_goals exact writes_escape rfl rfl (by decide) rfl

/-! ## How a text is written -/

theorem escape_cons (c : Char) (s : Text) : escape (c :: s) = (partOf c).text ++ escape s := by
  rw [(writes_partOf c).text]
  rfl

theorem parts_escape (s rest : Text) : parts (escape s ++ rest) = s.map partOf ++ parts rest := by
  induction s with
  | nil => rfl
  | cons c s ih =>
    rw [escape_cons, List.append_assoc, (writes_partOf c).parts_append, ih]
    rfl

theorem closedBody_escape_append (s rest : Text) :
    closedBody (escape s ++ rest) = (closedBody rest).map (escape s ++ ·) := by
  induction s with
  | nil => exact Option.map_id'.symm
  | cons c s ih =>
    rw [escape_cons, List.append_assoc, (writes_partOf c).closedBody_append, ih, Option.map_map]
    exact congrArg (Option.map · _) (funext fun body => (List.append_assoc ..).symm)

theorem not_startsWith_quotes (s cs : Text) : escape s ++ ['"'] ≠ '"' :: '"' :: cs := by
  cases s with
  | nil => exact fun h => absurd (List.cons.inj h).2 (by simp)
  | cons c s =>
    obtain ⟨d, ds, htext, hquote⟩ := (writes_partOf c).begins
    rw [escape_cons, htext]
    exact fun h => hquote (List.cons.inj h).1

theorem string_escape (s : Text) : string (escape s ++ ['"']) = (.string, escape s ++ ['"']) := by
  have hbody : closedBody (escape s ++ ['"']) = some (escape s ++ ['"']) :=
    closedBody_escape_append s ['"']
  rw [string.eq_2 _ (not_startsWith_quotes s), hbody]

theorem lex_quote (s : Text) : lex (quote s) = [(.string, quote s)] :=
  lex_eq_of_scan (string_escape s)

theorem tokenize_quote (s : Text) :
    tokenize (quote s) = [⟨.string, ⟨0, (quote s).size⟩, quote s⟩] := by
  rw [tokenize, lex_quote, place, place, Nat.zero_add]

/-! ## What a quoted text means -/

theorem stripQuotes_quoted (body : Text) : stripQuotes ('"' :: (body ++ ['"'])) = body := by
  have hends : Text.endsWith (body ++ ['"']) ['"'] = true :=
    List.isSuffixOf_iff_suffix.mpr (List.suffix_append _ _)
  rw [stripQuotes, strip, if_pos (by simpa [Text.startsWith] using hends)]
  simp

theorem stripQuotes_quote (s : Text) : stripQuotes (quote s) = escape s :=
  stripQuotes_quoted (escape s)

theorem Part.decode_of_meaning? {p : Part} {c : Char} (h : p.meaning? = some c) :
    p.decode = [c] := by
  rw [decode, h]

theorem Part.isInvalid_of_meaning? {p : Part} {c : Char} (h : p.meaning? = some c) :
    p.isInvalid = false := by
  cases p with
  | escape d =>
    have hlookup : escapes.lookup d = some c := h
    rw [isInvalid, hlookup]
    rfl
  | _ => rfl

theorem unescape_quote (s : Text) : unescape (quote s) = s := by
  have hparts : parts (escape s) = s.map partOf := by
    have happend := parts_escape s []
    rwa [List.append_nil, parts, List.append_nil] at happend
  calc unescape (quote s)
      = s.flatMap fun c => (partOf c).decode := by
        rw [unescape, stripQuotes_quote, unescapeChars_eq, hparts, List.flatMap_map]
    _ = s.flatMap fun c => [c] :=
        congrArg s.flatMap (funext fun c => Part.decode_of_meaning? (writes_partOf c).meaning)
    _ = s := List.flatMap_singleton' s

theorem invalidAmong_eq_nil {offset : Nat} {ps : List Part} (h : ∀ p ∈ ps, p.isInvalid = false) :
    invalidAmong offset ps = [] := by
  induction ps generalizing offset with
  | nil => rfl
  | cons p ps ih =>
    obtain ⟨hp, hps⟩ := List.forall_mem_cons.mp h
    rw [invalidAmong, hp]
    exact ih hps

theorem invalidEscapes_quote (s : Text) : invalidEscapes (quote s) = [] := by
  have hquote (cs : Text) : parts ('"' :: cs) = .plain '"' :: parts cs :=
    parts.eq_3 '"' cs fun _ _ h => absurd h (by decide)
  have hparts : parts (quote s) = .plain '"' :: (s.map partOf ++ [.plain '"']) := by
    show parts ('"' :: (escape s ++ ['"'])) = _
    rw [hquote, parts_escape, hquote, parts]
  rw [invalidEscapes, invalidFrom_eq, hparts]
  apply invalidAmong_eq_nil
  intro p hp
  simp only [List.mem_cons, List.mem_append, List.mem_map, List.not_mem_nil, or_false] at hp
  rcases hp with rfl | ⟨c, -, rfl⟩ | rfl
  · rfl
  · exact Part.isInvalid_of_meaning? (writes_partOf c).meaning
  · rfl

/-! ## Documents with a quoted text -/

def word (s : Text) : Word := ⟨.string, quote s, lex_quote s⟩

end Quoted

namespace Spaced

/-- A word right behind the one in front of it. -/
def tight (w : Word) : Spaced := ⟨[], w, .nil⟩

/-- A word behind a blank. -/
def loose (w : Word) : Spaced := ⟨[' '], w, .blank rfl .nil⟩

end Spaced

namespace Word

def mark (kind : TokenKind) (c : Char) (h : Lexer.scan c [] = (kind, [])) : Word :=
  ⟨kind, [c], Lexer.lex_eq_of_scan h⟩

def null : Word := ⟨.nullWord, ['n', 'u', 'l', 'l'], Lexer.lex_eq_of_scan (by decide)⟩

end Word

namespace Quoted

def value (s : Text) : Document := .scalar ⟨word s, rfl⟩

def member (s : Text) : Document := .object [(⟨word s, rfl⟩, .scalar ⟨.null, rfl⟩)]

theorem layout_scalar (w : ScalarWord) : Layout (.scalar w) w.1.text :=
  ⟨[.tight w.1], [], .scalar rfl, .gap .nil, by simp [Spaced.text, Spaced.tight]⟩

theorem layout_value (s : Text) : Layout (value s) (quote s) := layout_scalar ⟨word s, rfl⟩

theorem layout_member (s : Text) :
    Layout (member s) ('{' :: quote s ++ [':', ' ', 'n', 'u', 'l', 'l', '}']) := by
  have hnull : LaidOut (.value (.scalar ⟨.null, rfl⟩)) [.loose .null] := .scalar rfl
  have hmember : LaidOut (.element .object (⟨word s, rfl⟩, .scalar ⟨.null, rfl⟩))
      [.tight (word s), .tight (.mark .colon ':' rfl), .loose .null] := .member rfl rfl hnull
  have hobject := @LaidOut.container .object _ (.tight (.mark .lBrace '{' rfl)) _
    (.tight (.mark .rBrace '}' rfl)) rfl rfl (.cons hmember .done)
  refine ⟨_, [], hobject, .gap .nil, ?_⟩
  simp [Spaced.text, Spaced.tight, Spaced.loose, Word.mark, Word.null, word]

theorem depth_member (s : Text) : (member s).depth = 1 := by
  simp [member, Document.depth, Document.depthOfMembers]

theorem string?_of_word? {v : View.Value} {text : Text}
    (h : (View.Value.content v).word? = some (.string, text)) :
    View.Value.string? v = some (unescape text) := by
  rw [View.Value.string?]
  cases hcontent : View.Value.content v with
  | string l =>
    rw [hcontent] at h
    obtain ⟨-, rfl⟩ := Prod.mk.inj (Option.some.inj h)
    rfl
  | _ => simp [hcontent, View.Content.word?] at h

theorem meaning_of_keyWord? {v : View.KeyValue} {text : Text}
    (h : View.KeyValue.keyWord? v = some (.token .string, text)) :
    ∃ key, View.KeyValue.key? v = some key ∧ View.Key.meaning key = unescape text := by
  obtain ⟨l, hl, hword⟩ := Option.map_eq_some_iff.mp h
  obtain ⟨key, hkey, hleaf⟩ := Option.bind_eq_some_iff.mp hl
  obtain ⟨hlabel, rfl⟩ := Prod.mk.inj hword
  refine ⟨key, hkey, ?_⟩
  rw [View.Key.meaning, hleaf]
  exact if_pos hlabel

end Quoted

open Quoted

/-- Quoting any text makes a single string token that covers the whole, with no invalid escape in
it, which means the text. It is read without a mistake, both as a document, whose value is a string
that means the text, and as the key of a member, where it means the text as well. -/
theorem quote_read_back (s : Text) :
    tokenize (quote s) = [⟨.string, ⟨0, (quote s).size⟩, quote s⟩] ∧
    invalidEscapes (quote s) = [] ∧
    unescape (quote s) = s ∧
    ((parse (quote s)).errors = [] ∧
      ∃ file value, (Site.root (parse (quote s)).tree).view? .file = some file ∧
        View.File.value? file = some value ∧ View.Value.string? value = some s) ∧
    (let text := '{' :: quote s ++ [':', ' ', 'n', 'u', 'l', 'l', '}']
    (parse text).errors = [] ∧
      ∃ file value object member key, (Site.root (parse text).tree).view? .file = some file ∧
        View.File.value? file = some value ∧ View.Value.content value = .object object ∧
        View.Object.keyValues object = [member] ∧ View.KeyValue.key? member = some key ∧
        View.Key.meaning key = s) := by
  refine ⟨tokenize_quote s, invalidEscapes_quote s, unescape_quote s, ?_, ?_⟩
  · obtain ⟨herrors, file, value, hfile, hvalue, hread⟩ :=
      readFrom_of_layout (layout_value s) (Nat.zero_le _)
    have hstring := string?_of_word? hread
    rw [show (word s).text = quote s from rfl, unescape_quote] at hstring
    exact ⟨herrors, file, value, hfile, hvalue, hstring⟩
  · obtain ⟨herrors, file, value, hfile, hvalue, object, hobject, member, rest, hmembers,
      ⟨hkeyWord, -⟩, rfl⟩ := readFrom_of_layout (layout_member s)
        (depth_member s ▸ by decide)
    obtain ⟨key, hkey, hmeaning⟩ := meaning_of_keyWord? hkeyWord
    rw [show (word s).text = quote s from rfl, unescape_quote] at hmeaning
    exact ⟨herrors, file, value, object, member, key, hfile, hvalue, hobject, hmembers, hkey,
      hmeaning⟩

end Maml
