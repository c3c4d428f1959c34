import Mathlib.Data.List.TakeWhile
import Maml.Proofs.KeyNodes
import Maml.Proofs.LongestMatch
import Maml.Proofs.Quoting

/-! Names that need no quotes.

1. A name that could be a bare key is one identifier (`Lexer.lex_eq_identifier_iff`): it is a word
   that is not reserved (`Lexer.wordKind_eq_identifier_iff`).
2. A document has no more keys than tokens that can be keys (`Parse.length_keys_le`). So a word for
   a key is read as the only key of an object that has it as it stands
   (`Parse.exists_key_bareMember`).
3. The token of a key is the same by itself (`Parse.lex_of_mem_keys`). So a name that is read back
   as a bare key is an identifier, whatever the text around it would allow.
4. So the rule for bare keys, the lexer and the parser agree on which names they are
   (`bare_keys_are_identifiers`). -/
namespace Maml

open Draft

namespace Lexer

/-- A word is an identifier exactly if it is not reserved. -/
theorem wordKind_eq_identifier_iff (word : Text) :
    wordKind word = .identifier ↔ (reserved.lookup word).isNone = true := by
  unfold wordKind
  cases hlookup : reserved.lookup word with
  | none => exact iff_of_true rfl rfl
  | some kind =>
    refine iff_of_false ?_ (by simp)
    obtain ⟨front, back, hreserved, -⟩ := List.lookup_eq_some_iff.mp hlookup
    have hmem : (word, kind) ∈ reserved := by
      rw [hreserved]
      exact List.mem_append_right _ List.mem_cons_self
    rintro rfl
    simp [reserved] at hmem

/-- A name could be a bare key exactly if it is one identifier. -/
theorem lex_eq_identifier_iff (name : Text) :
    lex name = [(.identifier, name)] ↔ Quoted.isBareKey name = true := by
  cases name with
  | nil => exact iff_of_false (by simp [lex]) Bool.false_ne_true
  | cons c cs =>
    rw [Quoted.isBareKey, Bool.and_eq_true, Bool.and_eq_true, ← wordKind_eq_identifier_iff]
    constructor
    · intro hlex
      obtain ⟨c', cs', htext, hscan⟩ := exists_scan_of_lex_eq hlex
      obtain ⟨rfl, rfl⟩ := List.cons.inj htext
      have hname : (scan c cs).1.isName = true := by rw [hscan]; rfl
      obtain ⟨hstart, htaken⟩ := scan_of_isName hname
      rw [htaken] at hscan
      obtain ⟨hkind, hall⟩ := Prod.mk.inj hscan
      rw [hall] at hkind
      exact ⟨⟨hstart, List.all_eq_true.mpr (List.takeWhile_eq_self_iff.mp hall)⟩, hkind⟩
    · rintro ⟨⟨hstart, hall⟩, hkind⟩
      apply lex_eq_of_scan
      rw [scan_of_isNameStart hstart, List.takeWhile_eq_self_iff.mpr (List.all_eq_true.mp hall),
        hkind]

end Lexer

/-! ## A key as it stands -/

namespace Quoted

def bareMember (name : Text) : Text := '{' :: name ++ [':', 'n', 'u', 'l', 'l', '}']

theorem isScalar_null : Word.null.kind.isScalar = true := rfl

def memberOf (k : KeyWord) : Document := .object [(k, .scalar ⟨.null, isScalar_null⟩)]

/-- The words of an object with one member. -/
def bareWords (k : KeyWord) : List Spaced :=
  [.tight (.mark .lBrace '{' rfl), .tight k.1, .tight (.mark .colon ':' rfl), .tight .null,
    .tight (.mark .rBrace '}' rfl)]

theorem laidOut_bareWords (k : KeyWord) : LaidOut (.value (memberOf k)) (bareWords k) := by
  have hnull : LaidOut (.value (.scalar ⟨.null, isScalar_null⟩)) [.tight .null] := .scalar rfl
  have hmember : LaidOut (.element .object (k, .scalar ⟨.null, isScalar_null⟩))
      [.tight k.1, .tight (.mark .colon ':' rfl), .tight .null] := .member rfl rfl hnull
  exact @LaidOut.container .object _ (.tight (.mark .lBrace '{' rfl)) _
    (.tight (.mark .rBrace '}' rfl)) rfl rfl (.cons hmember .done)

theorem text_bareWords (k : KeyWord) :
    bareMember k.1.text = (bareWords k).flatMap Spaced.text ++ [] := by
  simp [bareMember, bareWords, Spaced.text, Spaced.tight, Word.mark, Word.null]

theorem countP_isKey_bareWords (k : KeyWord) :
    (bareWords k).countP ((isKey ·.1) ∘ Spaced.outline) = 1 := by
  have hkey : ((isKey ·.1) ∘ Spaced.outline) (.tight k.1) = true := by
    show isKey k.1.kind = true
    simp [isKey, k.2]
  rw [bareWords, List.countP_cons_of_neg (by decide), List.countP_cons_of_pos hkey,
    List.countP_cons_of_neg (by decide), List.countP_cons_of_neg (by decide),
    List.countP_cons_of_neg (by decide), List.countP_nil]

theorem depth_memberOf (k : KeyWord) : (memberOf k).depth = 1 := by
  simp [memberOf, Document.depth, Document.depthOfMembers]

end Quoted

namespace Parse
variable {source : Text}

theorem mem_viewsOf_file {file : View.File}
    (h : (Site.root (parse source).tree).view? .file = some file) :
    file ∈ (Site.root (parse source).tree).viewsOf .file := by
  rw [Site.mem_viewsOf, Site.site_of_view? h, descendants_root]
  exact List.mem_cons_self

/-- A document has no more keys than tokens that can be keys. -/
theorem length_keys_le (source : Text) : ((Site.root (parse source).tree).viewsOf .key).length ≤
    (lexemes source).countP (isKey ·.kind) := by
  have hsubset : ((Site.root (parse source).tree).viewsOf .key).map View.range ⊆
      ((lexemes source).filter (isKey ·.kind)).map (·.token.span) := by
    intro range hrange
    obtain ⟨k, hk, rfl⟩ := List.mem_map.mp hrange
    obtain ⟨l, hl, hkey⟩ := exists_lexeme_of_mem_keys hk
    exact List.mem_map.mpr ⟨l, List.mem_filter.mpr ⟨hl, hkey.isKey⟩, hkey.range.symm⟩
  have hlength := (List.subperm_of_subset (nodup_range_keys source) hsubset).length_le
  rwa [List.length_map, List.length_map, ← List.countP_eq_length_filter] at hlength

/-- A text that is a word for a key is read as the only key of an object. -/
theorem exists_key_bareMember (k : KeyWord) : (parse (Quoted.bareMember k.1.text)).errors = [] ∧
    ∃ key, (Site.root (parse (Quoted.bareMember k.1.text)).tree).viewsOf .key = [key] ∧
      (View.Key.leaf? key).map (fun l => (l.label, l.text)) = some (.token k.1.kind, k.1.text) := by
  have hlaid := Quoted.laidOut_bareWords k
  have htext := Quoted.text_bareWords k
  obtain ⟨herrors, file, value, hfile, hvalue, object, hobject, member, rest, hmembers,
    ⟨hkeyWord, -⟩, rfl⟩ := readFrom_of_layout ⟨_, [], hlaid, .gap .nil, htext⟩
      (Quoted.depth_memberOf k ▸ by decide)
  obtain ⟨l, hl, hword⟩ := Option.map_eq_some_iff.mp hkeyWord
  obtain ⟨key, hkey, hleaf⟩ := Option.bind_eq_some_iff.mp hl
  -- the key is there, and there is room for one only
  have hmem : key ∈ (Site.root (parse (Quoted.bareMember k.1.text)).tree).viewsOf .key := by
    have hobject := View.mem_viewsOf_of_mem_all
      (View.mem_viewsOf_of_first? (mem_viewsOf_file hfile) hvalue) (View.mem_all_of_content hobject)
    have hmember := View.mem_viewsOf_keyValues hobject (hmembers ▸ List.mem_cons_self)
    exact View.mem_viewsOf_of_first? hmember hkey
  have hcount : (lexemes (Quoted.bareMember k.1.text)).countP (isKey ·.kind) = 1 := by
    have houtline := congrArg (List.countP (isKey ·.1))
      (map_outline_lexemes hlaid (.gap .nil) htext)
    rw [List.countP_map, List.countP_map] at houtline
    exact houtline.trans (Quoted.countP_isKey_bareWords k)
  have hle := length_keys_le (Quoted.bareMember k.1.text)
  rw [hcount] at hle
  obtain ⟨other, hother⟩ := List.length_eq_one_iff.mp
    (Nat.le_antisymm hle (List.length_pos_of_mem hmem))
  rw [hother, List.mem_singleton] at hmem
  refine ⟨herrors, key, by rw [hother, hmem], ?_⟩
  rw [hleaf]
  exact congrArg some hword

/-- The token of a key is a token of the document, which is the same by itself. -/
theorem lex_of_mem_keys {k : View.Key} (hk : k ∈ (Site.root (parse source).tree).viewsOf .key)
    {l : LeafView} (hl : View.Key.leaf? k = some l) {kind : TokenKind}
    (hlabel : l.label = .token kind) : Lexer.lex l.text = [(kind, l.text)] := by
  obtain ⟨m, hm, hkey⟩ := exists_lexeme_of_mem_keys hk
  obtain rfl : m.token.leafView = l := Option.some.inj (hkey.leaf.symm.trans hl)
  obtain rfl : m.kind = kind := Label.token.inj hlabel
  exact Lexer.lex_of_mem_tokenize (mem_tokenize_of_mem_lexemes hm)

end Parse

open Lexer Quoted

/-- A name could be a bare key exactly if it is a single token, an identifier; and exactly if,
written as the key of an object with a single member, it is read without a mistake and the document
has one key only, an identifier that means the name. -/
theorem bare_keys_are_identifiers (name : Text) :
    (isBareKey name = true ↔ ∃ t, tokenize name = [t] ∧ t.kind = .identifier) ∧
    (isBareKey name = true ↔ (parse (bareMember name)).errors = [] ∧
      ∃ key, (Site.root (parse (bareMember name)).tree).viewsOf .key = [key] ∧
        (∃ l, View.Key.leaf? key = some l ∧ l.label = .token .identifier) ∧
        View.Key.meaning key = name) := by
  rw [exists_tokenize_eq_singleton_iff, ← lex_eq_identifier_iff]
  refine ⟨Iff.rfl, ?_, ?_⟩
  · intro hlex
    obtain ⟨herrors, key, hkeys, hword⟩ :=
      Parse.exists_key_bareMember ⟨⟨.identifier, name, hlex⟩, rfl⟩
    obtain ⟨l, hl, hlabel⟩ := Option.map_eq_some_iff.mp hword
    obtain ⟨hlabel, rfl⟩ := Prod.mk.inj hlabel
    refine ⟨herrors, key, hkeys, ⟨l, hl, hlabel⟩, ?_⟩
    rw [View.Key.meaning, hl]
    simp [hlabel]
  · rintro ⟨-, key, hkeys, ⟨l, hl, hlabel⟩, hmeaning⟩
    have hlex := Parse.lex_of_mem_keys (by rw [hkeys]; exact List.mem_cons_self) hl hlabel
    rw [View.Key.meaning, hl] at hmeaning
    obtain rfl : l.text = name := by simpa [hlabel] using hmeaning
    exact hlex

end Maml
