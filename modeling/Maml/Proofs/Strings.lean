import Maml.Proofs.LongestMatch
import Maml.Proofs.OpenStrings

/-! Quoted strings.

A quoted string is written in units: single characters, and backslashes with the character behind
them (`IsUnits`).

1. A string is closed by the first quote that is no unit's (`closedBody_eq_some_iff`).
2. A string that is not closed stops before the first structural character that is no unit's, or at
   the end of the line (`stopsFirst_openBody`).
3. Together they say which token a quote begins (`next_of_quote`). -/
namespace Maml.Lexer

open Quoted

/-! ## Units -/

/-- Whether a text between quotes is made of units: characters other than quotes, backslashes and
line breaks, and backslashes with a character behind them that does not break the line. -/
inductive IsUnits : Text → Prop where
  | nil : IsUnits []
  | plain {c : Char} {cs : Text} (hquote : c ≠ '"') (hslash : c ≠ '\\')
      (hbreak : isLineBreak c = false) (hcs : IsUnits cs) : IsUnits (c :: cs)
  | escape {c : Char} {cs : Text} (hbreak : isLineBreak c = false) (hcs : IsUnits cs) :
      IsUnits ('\\' :: c :: cs)

def IsQuoted (text : Text) : Prop := ∃ body, text = '"' :: (body ++ ['"']) ∧ IsUnits body

theorem isUnits_cons_iff {c : Char} (hslash : c ≠ '\\') {cs : Text} :
    IsUnits (c :: cs) ↔ c ≠ '"' ∧ isLineBreak c = false ∧ IsUnits cs := by
  constructor
  · intro h
    cases h with
    | plain hquote _ hbreak hcs => exact ⟨hquote, hbreak, hcs⟩
    | escape => exact absurd rfl hslash
  · rintro ⟨hquote, hbreak, hcs⟩
    exact .plain hquote hslash hbreak hcs

theorem isUnits_escape_iff {c : Char} {cs : Text} :
    IsUnits ('\\' :: c :: cs) ↔ isLineBreak c = false ∧ IsUnits cs := by
  constructor
  · intro h
    cases h with
    | plain _ hslash => exact absurd rfl hslash
    | escape hbreak hcs => exact ⟨hbreak, hcs⟩
  · rintro ⟨hbreak, hcs⟩
    exact .escape hbreak hcs

theorem not_isUnits_backslash : ¬ IsUnits ['\\'] := by
  intro h
  cases h with
  | plain _ hslash => exact hslash rfl

/-! ## Closed strings -/

theorem closedBody_append_of_isUnits {units : Text} (h : IsUnits units) (rest : Text) :
    closedBody (units ++ '"' :: rest) = some (units ++ ['"']) := by
  induction h with
  | nil => exact closedBody_quote rest
  | plain hquote hslash hbreak _ ih =>
    rw [List.cons_append, closedBody_cons hslash hquote hbreak, ih]
    rfl
  | escape hbreak _ ih =>
    rw [List.cons_append, List.cons_append, closedBody_escape hbreak, ih]
    rfl

theorem exists_units_of_closedBody {cs body : Text} (h : closedBody cs = some body) :
    ∃ units, body = units ++ ['"'] ∧ IsUnits units := by
  replace h := closes_of_closedBody h
  induction h with
  | quote => exact ⟨[], rfl, .nil⟩
  | escape hbreak _ ih =>
    obtain ⟨units, rfl, hunits⟩ := ih
    exact ⟨_ :: _ :: units, rfl, .escape hbreak hunits⟩
  | plain hslash hquote hbreak _ ih =>
    obtain ⟨units, rfl, hunits⟩ := ih
    exact ⟨_ :: units, rfl, .plain hquote hslash hbreak hunits⟩

/-- A string is closed behind the first quote that is no unit's. -/
theorem closedBody_eq_some_iff {cs body : Text} :
    closedBody cs = some body ↔ '"' :: body <+: '"' :: cs ∧ IsQuoted ('"' :: body) := by
  constructor
  · intro h
    obtain ⟨units, rfl, hunits⟩ := exists_units_of_closedBody h
    exact ⟨List.cons_prefix_cons.mpr ⟨rfl, closedBody_isPrefix h⟩, units, rfl, hunits⟩
  · rintro ⟨hbegins, units, htext, hunits⟩
    obtain rfl := (List.cons.inj htext).2
    obtain ⟨-, rest, rfl⟩ := List.cons_prefix_cons.mp hbegins
    rw [List.append_assoc]
    exact closedBody_append_of_isUnits hunits rest

/-! ## Open strings -/

/-- Whether a string that is not closed can stop between two texts: in front of a line break, of a
structural character that is no unit's, or at the end. -/
def CanStop (front back : Text) : Prop :=
  ∀ c ∈ back.head?, isLineBreak c = true ∨ isStructural c = true ∧ IsUnits front

/-- Whether a beginning of a text is what is in front of the first place where a string that is not
closed can stop. -/
structure StopsFirst (text taken : Text) : Prop where
  stops : ∃ rest, text = taken ++ rest ∧ CanStop taken rest
  first {front back : Text} : text = front ++ back → CanStop front back →
    taken.length ≤ front.length

section
variable {c : Char} {cs taken front : Text}

theorem not_canStop_backslash (back : Text) : ¬ CanStop [] ('\\' :: back) := by
  intro h
  rcases h '\\' rfl with h | ⟨h, -⟩ <;> exact absurd h (by decide)

theorem CanStop.behind_escape (hbreak : isLineBreak c = false) {back : Text} :
    CanStop ('\\' :: c :: front) back ↔ CanStop front back := by
  rw [CanStop, isUnits_escape_iff, hbreak, CanStop]
  simp

theorem CanStop.behind_plain (hslash : c ≠ '\\') (hquote : c ≠ '"') (hbreak : isLineBreak c = false)
    {back : Text} : CanStop (c :: front) back ↔ CanStop front back := by
  rw [CanStop, isUnits_cons_iff hslash, hbreak, CanStop]
  simp [hquote]

theorem StopsFirst.escape (hbreak : isLineBreak c = false) (h : StopsFirst cs taken) :
    StopsFirst ('\\' :: c :: cs) ('\\' :: c :: taken) where
  stops := by
    obtain ⟨rest, rfl, hstop⟩ := h.stops
    exact ⟨rest, rfl, (CanStop.behind_escape hbreak).mpr hstop⟩
  first {front back} heq hstop := by
    rcases front with _ | ⟨d, _ | ⟨e, ds⟩⟩
    · subst heq
      exact absurd hstop (not_canStop_backslash _)
    · -- not between the backslash and its character
      obtain ⟨rfl, rfl⟩ := List.cons.inj heq
      rcases hstop c rfl with h | ⟨-, h⟩
      · exact absurd (hbreak.symm.trans h) (by decide)
      · exact absurd h not_isUnits_backslash
    · obtain ⟨rfl, hmore⟩ := List.cons.inj heq
      obtain ⟨rfl, hrest⟩ := List.cons.inj hmore
      have hlength := h.first hrest ((CanStop.behind_escape hbreak).mp hstop)
      exact Nat.succ_le_succ (Nat.succ_le_succ hlength)

theorem StopsFirst.plain (hslash : c ≠ '\\') (hquote : c ≠ '"') (hbreak : isLineBreak c = false)
    (hmark : isStructural c = false) (h : StopsFirst cs taken) :
    StopsFirst (c :: cs) (c :: taken) where
  stops := by
    obtain ⟨rest, rfl, hstop⟩ := h.stops
    exact ⟨rest, rfl, (CanStop.behind_plain hslash hquote hbreak).mpr hstop⟩
  first {front back} heq hstop := by
    cases front with
    | nil =>
      subst heq
      rcases hstop c rfl with h | ⟨h, -⟩
      · exact absurd (hbreak.symm.trans h) (by decide)
      · exact absurd (hmark.symm.trans h) (by decide)
    | cons d ds =>
      obtain ⟨rfl, hrest⟩ := List.cons.inj heq
      have hlength := h.first hrest ((CanStop.behind_plain hslash hquote hbreak).mp hstop)
      exact Nat.succ_le_succ hlength

end

theorem stopsFirst_backslash {rest : Text} (h : CanStop ['\\'] rest) :
    StopsFirst ('\\' :: rest) ['\\'] where
  stops := ⟨rest, rfl, h⟩
  first {front back} heq hstop := by
    cases front with
    | nil =>
      subst heq
      exact absurd hstop (not_canStop_backslash _)
    | cons => exact Nat.succ_le_succ (Nat.zero_le _)

/-- A string that is not closed stops at the first place where it can. -/
theorem stopsFirst_openBody {cs : Text} (h : closedBody cs = none) : StopsFirst cs (openBody cs) := by
  induction cs using unit_induction with
  | nil => exact ⟨⟨[], rfl, by simp [CanStop]⟩, fun _ _ => Nat.zero_le _⟩
  | slash => exact stopsFirst_backslash (by simp [CanStop])
  | broken c cs hbreak =>
    rw [openBody_broken hbreak]
    exact stopsFirst_backslash fun d hd => .inl (Option.some.inj hd ▸ hbreak)
  | escape c cs hbreak ih =>
    rw [closedBody_escape hbreak, Option.map_eq_none_iff] at h
    rw [openBody_escape hbreak]
    exact (ih h).escape hbreak
  | plain c cs hslash ih =>
    rw [openBody_plain hslash]
    split
    · rename_i hstop
      refine ⟨⟨c :: cs, rfl, fun d hd => ?_⟩, fun _ _ => Nat.zero_le _⟩
      obtain rfl := Option.some.inj hd
      exact ((Bool.or_eq_true ..).mp hstop).imp_right fun hmark => ⟨hmark, .nil⟩
    · rename_i hgoes
      rw [Bool.not_eq_true, Bool.or_eq_false_iff] at hgoes
      obtain ⟨hbreak, hmark⟩ := hgoes
      have hquote : c ≠ '"' := head_ne_quote h c rfl
      rw [closedBody_cons hslash hquote hbreak, Option.map_eq_none_iff] at h
      exact (ih h).plain hslash hquote hbreak hmark

/-! ## Tokens -/

theorem string_of_not_startsWith {cs : Text} (h : Text.startsWith ('"' :: cs) tripleQuote = false) :
    string cs = match closedBody cs with
      | some body => (.string, body)
      | none => (.unterminatedString, openBody cs) := by
  refine string.eq_2 _ fun ds hds => ?_
  rw [hds] at h
  simp [Text.startsWith, tripleQuote, List.isPrefixOf] at h

theorem isNext_string_iff {cs text : Text} (h : Text.startsWith ('"' :: cs) tripleQuote = false) :
    IsNext ('"' :: cs) .string text ↔ ∃ body, text = '"' :: body ∧ closedBody cs = some body := by
  have hstring := string_of_not_startsWith h
  rw [isNext_cons_iff]
  show (string cs).1 = _ ∧ '"' :: (string cs).2 = _ ↔ _
  rw [hstring]
  cases closedBody cs with
  | none => simp
  | some body => simp [eq_comm]

/-- Behind a quote that is not the first of three there is a string exactly if the text begins with
units between quotes, and it is that beginning, which is the only one of its sort. Otherwise there
is a string that is not closed, up to the first place where it can stop. -/
theorem next_of_quote {r : Text} (hquote : Text.startsWith r ['"'] = true)
    (htriple : Text.startsWith r tripleQuote = false) :
    (∀ text, IsNext r .string text ↔ text <+: r ∧ IsQuoted text) ∧
      (∀ text other, text <+: r ∧ IsQuoted text → other <+: r ∧ IsQuoted other → other = text) ∧
      ((¬ ∃ text, text <+: r ∧ IsQuoted text) →
        ∃ taken, IsNext r .unterminatedString ('"' :: taken) ∧ StopsFirst r.tail taken) := by
  obtain ⟨cs, rfl⟩ : ∃ cs, r = '"' :: cs := by
    obtain ⟨cs, hcs⟩ := List.isPrefixOf_iff_prefix.mp hquote
    exact ⟨cs, hcs.symm⟩
  have hnext (text : Text) :
      IsNext ('"' :: cs) .string text ↔ text <+: '"' :: cs ∧ IsQuoted text := by
    rw [isNext_string_iff htriple]
    constructor
    · rintro ⟨body, rfl, hbody⟩
      exact closedBody_eq_some_iff.mp hbody
    · rintro ⟨hbegins, units, rfl, hunits⟩
      exact ⟨_, rfl, closedBody_eq_some_iff.mpr ⟨hbegins, units, rfl, hunits⟩⟩
  refine ⟨hnext, fun text other htext hother => ?_, fun hnone => ?_⟩
  · obtain ⟨-, rfl⟩ := isNext_cons_iff.mp ((hnext text).mpr htext)
    exact (isNext_cons_iff.mp ((hnext other).mpr hother)).2.symm
  · have hopen : closedBody cs = none := by
      cases hbody : closedBody cs with
      | none => rfl
      | some body => exact absurd ⟨_, closedBody_eq_some_iff.mp hbody⟩ hnone
    refine ⟨openBody cs, isNext_cons_iff.mpr ?_, stopsFirst_openBody hopen⟩
    have hscan : scan '"' cs = (.unterminatedString, openBody cs) := by
      show string cs = _
      rw [string_of_not_startsWith htriple, hopen]
    rw [hscan]
    exact ⟨rfl, rfl⟩

/-- The string in `"\"{",` is closed, and the brace is in it; the string in `"\{,a` stops before the
comma, since the brace is behind a backslash. -/
theorem next_of_quote_with_brace :
    Text.startsWith ['"', '\\', '"', '{', '"', ','] ['"'] = true ∧
      Text.startsWith ['"', '\\', '"', '{', '"', ','] tripleQuote = false ∧
      IsNext ['"', '\\', '"', '{', '"', ','] .string ['"', '\\', '"', '{', '"'] ∧
      ∃ taken, IsNext ['"', '\\', '{', ',', 'a'] .unterminatedString ('"' :: taken) ∧
        StopsFirst ['\\', '{', ',', 'a'] taken := by
  have hunits : IsQuoted ['"', '\\', '"', '{', '"'] :=
    ⟨['\\', '"', '{'], rfl, .escape rfl (.plain (by decide) (by decide) rfl .nil)⟩
  obtain ⟨hclosed, -, -⟩ :=
    next_of_quote (r := ['"', '\\', '"', '{', '"', ',']) (by decide) (by decide)
  obtain ⟨hstring, -, hopen⟩ :=
    next_of_quote (r := ['"', '\\', '{', ',', 'a']) (by decide) (by decide)
  refine ⟨by decide, by decide, (hclosed _).mpr ⟨⟨[','], rfl⟩, hunits⟩, hopen ?_⟩
  rintro ⟨text, htext⟩
  have hkind := (isNext_cons_iff.mp ((hstring text).mpr htext)).1
  exact absurd hkind (by decide)

end Maml.Lexer
