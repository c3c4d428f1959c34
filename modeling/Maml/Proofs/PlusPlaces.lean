import Maml.Proofs.CloserPlaces

/-! Plus signs taken away from numbers.

1. A plus sign and a number make one invalid value. The number can stand there without its sign:
   it is then a value of its own, and what is read around it stays as it is, with one mistake fewer
   (`Unsigned`). Only another plus sign directly in front of it takes the number
   (`exists_read_item`).
2. So it is wherever such a value is (`amends_unsigned`), and with documents
   (`exists_documentDrafts_unsigned`). -/
namespace Maml.Draft

/-! ## Numbers with a sign -/

def signError (plus number : Lexeme) : ParseError :=
  .ofToken .value plus.token (plus.token.span.cover number.token.span)

def signedNode (plus number : Lexeme) : Draft :=
  node .invalidValue (some (signError plus number)) (leaf plus) [leaf number] none

def numberValue (x : Lexeme) : Draft := plain .value (leaf x) []

def Mark.signed (plus number : Lexeme) : Mark where
  holds d place := place = [] ∧ d = signedNode plus number
  isInner_of_holds := by
    rintro d place ⟨-, rfl⟩
    rfl

/-! ## Numbers without their signs -/

/-- Whether a row is another one in which a number stands without its sign behind some lexemes, and
without the mistake of the two. -/
structure Unsigned (plus number x : Lexeme) (place : List Lexeme) (ds ds' : List Draft) : Prop where
  split : ∃ back, lexemesList ds = place ++ plus :: number :: back ∧
    lexemesList ds' = place ++ x :: back
  errors : ∃ front back, errorsList ds = front ++ signError plus number :: back ∧
    expectations ds' = (front ++ back).map ParseError.expected
  head_face : place ≠ [] → ds'.head?.map face = ds.head?.map face
  begins : place = [] → ∃ rest, ds = signed plus number :: rest ∧ ds' = numberValue x :: rest
  value : ¬ EveryNode (· ≠ numberValue x) ds' ∨
    ∃ l ∈ place.getLast?, isSignedNumber l.token x.token = true

section
variable {plus number x : Lexeme} {place : List Lexeme} {ds ds' : List Draft} {d d' : Draft}

namespace Unsigned

theorem split_around (h : Unsigned plus number x place ds ds') (front behind : List Lexeme) :
    ∃ back, front ++ lexemesList ds ++ behind = (front ++ place) ++ plus :: number :: back ∧
      front ++ lexemesList ds' ++ behind = (front ++ place) ++ x :: back := by
  obtain ⟨back, hold, hnew⟩ := h.split
  exact ⟨back ++ behind, by simp [hold], by simp [hnew]⟩

theorem errors_around (h : Unsigned plus number x place ds ds') (before after : List ParseError) :
    ∃ front back, before ++ errorsList ds ++ after = front ++ signError plus number :: back ∧
      before.map ParseError.expected ++ expectations ds' ++ after.map ParseError.expected =
        (front ++ back).map ParseError.expected := by
  obtain ⟨front, back, hold, hnew⟩ := h.errors
  exact ⟨before ++ front, back ++ after, by simp [hold], by simp [hnew]⟩

theorem value_behind (h : Unsigned plus number x place ds ds') (front : List Lexeme)
    {row : List Draft} (hrow : EveryNode (· ≠ numberValue x) row → EveryNode (· ≠ numberValue x) ds') :
    ¬ EveryNode (· ≠ numberValue x) row ∨
      ∃ l ∈ (front ++ place).getLast?, isSignedNumber l.token x.token = true := by
  rcases h.value with hvalue | ⟨l, hl, hsigned⟩
  · exact .inl fun hall => hvalue (hrow hall)
  · exact .inr ⟨l, List.mem_getLast?_append_of_mem_getLast? hl, hsigned⟩

theorem head (h : Unsigned plus number x place [d] [d']) (ds : List Draft) :
    Unsigned plus number x place (d :: ds) (d' :: ds) where
  split := by
    have hsplit := h.split_around [] (lexemesList ds)
    rwa [lexemesList_singleton, lexemesList_singleton] at hsplit
  errors := by
    have herrors := h.errors_around [] (errorsList ds)
    rw [expectations_cons]
    simpa [expectations] using herrors
  head_face := h.head_face
  begins hplace := by
    obtain ⟨rest, hold, hnew⟩ := h.begins hplace
    obtain ⟨rfl, rfl⟩ := List.cons.inj hold
    obtain ⟨rfl, -⟩ := List.cons.inj hnew
    exact ⟨ds, rfl, rfl⟩
  value := h.value_behind [] fun hall => (everyNode_cons_iff.mp hall).1

theorem tail (h : Unsigned plus number x place ds ds') (d : Draft) :
    Unsigned plus number x (d.lexemes ++ place) (d :: ds) (d :: ds') where
  split := by
    have hsplit := h.split_around d.lexemes []
    rwa [List.append_nil, List.append_nil] at hsplit
  errors := by
    have herrors := h.errors_around d.errors []
    rw [expectations_cons]
    simpa [expectations] using herrors
  head_face _ := rfl
  begins hplace := by
    obtain ⟨ls, hls⟩ := exists_lexemes_eq_cons d
    rw [hls] at hplace
    exact absurd hplace (by simp)
  value := h.value_behind d.lexemes fun hall => (everyNode_cons_iff.mp hall).2

theorem node {kind : NodeKind} {before after : Option ParseError} {first first' : Draft}
    {rest rest' : List Draft} (h : Unsigned plus number x place (first :: rest) (first' :: rest'))
    (hplace : place ≠ []) : Unsigned plus number x place [.node kind before first rest after]
      [.node kind before first' rest' after] where
  split := h.split_around [] []
  errors := by
    have herrors := h.errors_around before.toList after.toList
    rw [expectations_node]
    simpa using herrors
  head_face _ := by
    have hface := firstLexeme_eq_of_face (Option.some.inj (h.head_face hplace))
    simp [face, hface]
  begins hnil := absurd hnil hplace
  value := h.value_behind [] fun hall => (everyNode_node_iff.mp hall).2

theorem member {key colon : Lexeme} {note : Option ParseError}
    (h : Unsigned plus number x place ds ds') : Unsigned plus number x (key :: colon :: place)
      [member key colon ds note] [member key colon ds' note] where
  split := by
    have hsplit := h.split_around [key, colon] []
    rw [lexemesList_singleton, lexemesList_singleton, lexemes_member, lexemes_member]
    rwa [List.append_nil, List.append_nil] at hsplit
  errors := by
    obtain ⟨before, hbefore⟩ := errors_member key
    have herrors := h.errors_around before note.toList
    rw [expectations]
    simpa [hbefore, expectations] using herrors
  head_face _ := by
    unfold Draft.member
    split <;> rfl
  begins hnil := absurd hnil (by simp)
  value := h.value_behind [key, colon] fun hall => by
    unfold Draft.member at hall
    split at hall
    all_goals
      have hparts := (everyNode_cons_iff.mp (everyNode_node_iff.mp hall).2).2
      exact (everyNode_cons_iff.mp hparts).2

theorem container {c : Container} {opener : Lexeme} {closer : Option Lexeme} {next : Token}
    (h : Unsigned plus number x place ds ds') : Unsigned plus number x (opener :: place)
      [container c opener ds closer next] [container c opener ds' closer next] where
  split := by
    have hsplit := h.split_around [opener] closer.toList
    rw [lexemesList_singleton, lexemesList_singleton, lexemes_container, lexemes_container]
    exact hsplit
  errors := by
    cases closer with
    | none =>
      have herrors := h.errors_around [] (missing c.expectedCloser
        (lastTokenFrom opener.token (wrap c.listKind ds)) next).toList
      rw [expectations_container_unclosed, container_unclosed]
      simpa [errors_containerNode, missing, ParseError.ofToken] using herrors
    | some closer =>
      rw [expectations_container_closed, container_closed]
      simpa [errors_containerNode] using h.errors
  head_face _ := rfl
  begins hnil := absurd hnil (by simp)
  value := h.value_behind [opener] fun hall => by
    have hparts := (everyNode_node_iff.mp (everyNode_cons_iff.mp (everyNode_node_iff.mp hall).2).1).2
    have hlist := (everyNode_append_iff.mp (everyNode_cons_iff.mp hparts).2).1
    cases ds' with
    | nil => exact everyNode_nil
    | cons d ds' => exact (everyNode_node_iff.mp hlist).2

theorem alone : Unsigned plus number x [] [signed plus number] [numberValue x] where
  split := ⟨[], rfl, rfl⟩
  errors := ⟨[], [], rfl, rfl⟩
  head_face hne := absurd rfl hne
  begins _ := ⟨[], rfl, rfl⟩
  value := .inl fun hall => (everyNode_node_iff.mp hall).1 rfl

theorem taken {l : Lexeme} (h : isSignedNumber l.token x.token = true) (rest : List Draft) :
    Unsigned plus number x [l] (invalid l :: signed plus number :: rest) (signed l x :: rest) where
  split := ⟨lexemesList rest, by simp [invalid, signed, plain, lexemes],
    by simp [signed, plain, lexemes]⟩
  errors := ⟨(invalid l).errors, errorsList rest, rfl, by
    simp [expectations, invalid, signed, unexpected, ParseError.ofToken]⟩
  head_face _ := rfl
  begins hnil := absurd hnil (by simp)
  value := .inr ⟨l, rfl, h⟩

theorem beginsLike (h : Unsigned plus number x place [d] [d']) (hplus : plus.kind = .badCharacter)
    (hx : x.kind = .number) : BeginsLike d d' := by
  by_cases hplace : place = []
  · obtain ⟨rest, hold, hnew⟩ := h.begins hplace
    obtain ⟨rfl, -⟩ := List.cons.inj hold
    obtain ⟨rfl, -⟩ := List.cons.inj hnew
    have hnumber : (numberValue x).firstLexeme.kind = .number := hx
    have hsign : (signed plus number).firstLexeme.kind = .badCharacter := hplus
    right
    rw [hnumber, hsign]
    exact ⟨rfl, rfl, rfl⟩
  · exact .inl (Option.some.inj (h.head_face hplace))

theorem place_ne_nil (h : Unsigned plus number x place (d :: ds) (d' :: ds'))
    (hplus : plus.kind = .badCharacter) (hx : x.kind = .number) (hface : d'.face = d.face) :
    place ≠ [] := by
  intro hplace
  obtain ⟨rest, hold, hnew⟩ := h.begins hplace
  obtain ⟨rfl, -⟩ := List.cons.inj hold
  obtain ⟨rfl, -⟩ := List.cons.inj hnew
  have hsame : x = plus := firstLexeme_eq_of_face hface
  rw [hsame, hplus] at hx
  exact absurd hx nofun

theorem head?_eq (h : Unsigned plus number x place ds ds') (hplace : place ≠ [])
    (behind : List Lexeme) :
    (lexemesList ds' ++ behind).head? = (lexemesList ds ++ behind).head? := by
  obtain ⟨back, hold, hnew⟩ := h.split
  obtain ⟨l, ls, rfl⟩ := List.exists_cons_of_ne_nil hplace
  rw [hold, hnew]
  rfl

end Unsigned

/-! ## Reading without the sign -/

variable {eof : Token} {e : List Container} {slot : Slot} {behind more : List Lexeme}

/-- What is read in front of a plus sign is read in front of a number, unless it is a plus sign that
takes the number. -/
theorem Read.in_front_of_number (h : Read eof e .value (plus :: behind) [d])
    (hplus : plus.kind = .badCharacter) (more : List Lexeme) :
    Read eof e .value (x :: more) [d] ∨
      ∃ l, d = Draft.invalid l ∧ isSignedNumber l.token x.token = true := by
  cases h with
  | scalar hl => exact .inl (.scalar hl)
  | @invalid _ _ l hl hc =>
    by_cases hsigned : isSignedNumber l.token x.token = true
    · exact .inr ⟨l, rfl, hsigned⟩
    · refine .inl (.invalid hl hc fun y hy => ?_)
      obtain rfl := Option.some.inj hy
      exact Bool.eq_false_iff.mpr hsigned
  | signed h => exact .inl (.signed h)
  | tooDeep ho he hrun => exact .inl (.tooDeep ho he (balancedRun_of_head? hrun nofun))
  | closed ho hc he hds => exact .inl (.closed ho hc he (hds.of_head? rfl))
  | unclosed ho he hends =>
    have hcloser := isCloser_of_closesAny (hends plus rfl).1
    rw [hplus] at hcloser
    exact absurd hcloser Bool.false_ne_true

theorem Read.of_items {b : Bool} (h : Read eof e (.list .array b) behind (numberValue x :: ds)) :
    Read eof e (.list .array false) behind ds := by
  generalize hrow : numberValue x :: ds = row at h
  cases h with
  | nil => exact absurd hrow (by simp)
  | comma => exact absurd (List.cons.inj hrow).1 nofun
  | stray =>
    have hkind := (Draft.node.inj (List.cons.inj hrow).1).1
    exact NodeKind.noConfusion hkind
  | item _ _ hds =>
    rw [(List.cons.inj hrow).2]
    exact hds

/-- An item in front of a number with its sign stays if the sign goes, or it is a plus sign that
takes the number. -/
theorem exists_read_item {b : Bool} (hfirst : d.firstLexeme.kind ≠ .comma)
    (hd : Read eof e .value (lexemesList ds ++ behind) [d])
    (hplus : plus.kind = .badCharacter)
    (hread : Read eof e (.list .array false) behind ds')
    (h : Unsigned plus number x place ds ds') :
    ∃ ds'', Read eof e (.list .array b) behind ds'' ∧
      Unsigned plus number x (d.lexemes ++ place) (d :: ds) ds'' := by
  by_cases hplace : place = []
  · subst hplace
    obtain ⟨rest, rfl, rfl⟩ := h.begins rfl
    have hd : Read eof e .value (plus :: (number :: lexemesList rest ++ behind)) [d] := hd
    rcases hd.in_front_of_number hplus (lexemesList rest ++ behind) with hd | ⟨l, rfl, hsigned⟩
    · have hd : Read eof e .value (lexemesList (numberValue x :: rest) ++ behind) [d] := hd
      exact ⟨_, .item hfirst hd hread, h.tail _⟩
    · have hl : (signed l x).firstLexeme.kind ≠ .comma := hfirst
      exact ⟨_, .item hl (.signed hsigned) hread.of_items, .taken hsigned rest⟩
  · exact ⟨_, .item hfirst (hd.of_head? (h.head?_eq hplace behind)) hread, h.tail _⟩

/-- A number can stand without its sign, and nothing else that the row tells changes. -/
theorem amends_unsigned (hplus : plus.kind = .badCharacter) (hx : x.kind = .number) :
    Amends 0 eof (.signed plus number) (Unsigned plus number x) where
  value h _ := by
    obtain ⟨rfl, rfl⟩ := h
    exact ⟨numberValue x, .scalar (by rw [hx]; rfl), .alone⟩
  first h := h.beginsLike hplus hx
  head h ds := by
    rw [shiftRow_zero]
    exact h.head ds
  behind h d := h.tail d
  inside h hface := by
    rw [ParseError.map_shift_zero]
    exact h.node (h.place_ne_nil hplus hx hface)
  member h _ _ := h.member
  container h _ _ closer _ := by
    rw [show closer.map (Lexeme.shift 0) = closer by cases closer <;> simp]
    exact h.container
  item _ hfirst hd hds h := by
    rw [List.map_id'' Lexeme.shift_zero] at hds ⊢
    exact exists_read_item hfirst hd hplus hds h

/-! ## Documents -/

/-- A number of a document can stand without its sign, and nothing else that the document tells
changes. -/
theorem exists_documentDrafts_unsigned {whole : List Lexeme} (hplus : plus.kind = .badCharacter)
    (hx : x.kind = .number) (hmarked : Marked (.signed plus number) place (documentDrafts eof whole)) :
    ∃ back, whole = place ++ plus :: number :: back ∧
      Unsigned plus number x place (documentDrafts eof whole)
        (documentDrafts eof (place ++ x :: back)) := by
  obtain ⟨ds', hunsigned, hdrafts⟩ := (amends_unsigned hplus hx).exists_documentDrafts hmarked
  obtain ⟨back, hold, hnew⟩ := hunsigned.split
  rw [Token.shift_zero, hnew] at hdrafts
  exact ⟨back, (lexemes_documentDrafts eof whole).symm.trans hold, by
    rw [hdrafts]
    exact hunsigned⟩

end

end Maml.Draft
