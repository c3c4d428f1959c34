import Maml.Draft

/-! Values.

A value is one scalar token or one container. A token that is no value becomes
an invalid value, and so does a plus sign with a number directly behind it, as
one piece. Containers nested too deep are not looked into: such a value is a run
of tokens up to the bracket that balances its opener. -/
namespace Maml.Draft

/-- The mistake of a token, or a stretch that begins with it, where something else should be. -/
def unexpected (expected : Expected) (found : Token) (range : Span) : Option ParseError :=
  some (.ofToken expected found range)

/-- The mistake of something missing after one token and before another. -/
def missing (expected : Expected) (previous next : Token) : Option ParseError :=
  some (.ofToken expected next (.empty previous.span.stop))

/-- The value that a single token stands for. -/
def single (l : Lexeme) : Draft :=
  if l.kind.isScalar then
    plain .value (leaf l) []
  else
    plain .value
      (node .invalidValue (unexpected .value l.token l.token.span) (leaf l) [] none) []

/-- Whether two tokens are a plus sign and a number directly behind it. -/
def isSignedNumber (plus number : Token) : Bool :=
  plus.kind == .badCharacter && plus.text == ['+'] && number.kind == .number &&
    number.span.start == plus.span.stop

theorem isSignedNumber_eq_true {plus number : Token} :
    isSignedNumber plus number = true ↔ plus.kind = .badCharacter ∧ plus.text = ['+'] ∧
      number.kind = .number ∧ number.span.start = plus.span.stop := by
  simp only [isSignedNumber, Bool.and_eq_true, beq_iff_eq, and_assoc]

theorem isSignedNumber_of_ne {plus number : Token} (h : number.kind ≠ .number) :
    isSignedNumber plus number = false :=
  Bool.eq_false_iff.mpr fun hsigned => h (isSignedNumber_eq_true.mp hsigned).2.2.1

/-- A token that a test tells from a plus sign signs no number. -/
theorem isSignedNumber_of_kind {p : TokenKind → Bool} {plus : Token} (hp : p plus.kind = true)
    (hbad : p .badCharacter = false) (number : Token) : isSignedNumber plus number = false := by
  refine Bool.eq_false_iff.mpr fun hsigned => ?_
  rw [(isSignedNumber_eq_true.mp hsigned).1, hbad] at hp
  exact Bool.false_ne_true hp

def signed (plus number : Lexeme) : Draft :=
  plain .value
    (node .invalidValue
      (unexpected .value plus.token (plus.token.span.cover number.token.span))
      (leaf plus) [leaf number] none) []

def tooDeep (opener : Lexeme) (run : List Lexeme) : Draft :=
  let rest := run.map leaf
  let range := ⟨opener.token.span.start, (lastTokenFrom opener.token rest).span.stop⟩
  plain .value
    (node .invalidValue none (leaf opener) rest (unexpected .nestingLimit opener.token range)) []

/-- The value of a container. Without its closer, that is noted as missing before `next`. -/
def container (c : Container) (opener : Lexeme) (contents : List Draft) (closer : Option Lexeme)
    (next : Token) : Draft :=
  let parts := wrap c.listKind contents ++ (closer.map leaf).toList
  let after :=
    match closer with
    | some _ => none
    | none => missing c.expectedCloser (lastTokenFrom opener.token parts) next
  plain .value (node c.nodeKind none (leaf opener) parts after) []

/-- Whether a piece can stand as a value as it is. -/
def startsValue : Draft → Bool
  | leaf l => l.kind.isScalar
  | node .. => true

def asValue : Draft → Draft
  | leaf l => single l
  | d => d

/-- The value at the front of a row of pieces, and the pieces behind it. -/
def valueAt (d : Draft) (ds : List Draft) : Draft × List Draft :=
  match d, ds with
  | leaf plus, leaf number :: rest =>
    if isSignedNumber plus.token number.token then (signed plus number, rest)
    else (single plus, ds)
  | d, ds => (asValue d, ds)

/-- What the value at the front of a row can be made of: a plus sign and its number, or one
piece. -/
inductive ValueRule : Draft → List Draft → Prop where
  | signed {plus number rest} (h : isSignedNumber plus.token number.token = true) :
      ValueRule (leaf plus) (leaf number :: rest)
  | alone {d ds} (h : ∀ plus number, d = leaf plus → ds.head? = some (leaf number) →
      isSignedNumber plus.token number.token = false) : ValueRule d ds

theorem valueRule (d : Draft) (ds : List Draft) : ValueRule d ds := by
  by_cases h : ∃ plus number rest, d = leaf plus ∧ ds = leaf number :: rest ∧
      isSignedNumber plus.token number.token = true
  · obtain ⟨plus, number, rest, rfl, rfl, hsigned⟩ := h
    exact .signed hsigned
  · refine .alone fun plus number hd hds => Bool.eq_false_iff.mpr fun hsigned => h ?_
    obtain ⟨rest, hrest⟩ := List.head?_eq_some_iff.mp hds
    exact ⟨plus, number, rest, hd, hrest, hsigned⟩

theorem valueAt_signed {plus number : Lexeme} (rest : List Draft)
    (h : isSignedNumber plus.token number.token = true) :
    valueAt (leaf plus) (leaf number :: rest) = (signed plus number, rest) := by
  rw [valueAt, if_pos h]

theorem valueAt_alone {d : Draft} {ds : List Draft}
    (h : ∀ plus number, d = leaf plus → ds.head? = some (leaf number) →
      isSignedNumber plus.token number.token = false) : valueAt d ds = (d.asValue, ds) := by
  unfold valueAt
  split
  · rename_i plus number rest
    rw [h plus number rfl rfl, if_neg Bool.false_ne_true]
    rfl
  · rfl

theorem valueAt_of_kind {p : TokenKind → Bool} {l : Lexeme} (hp : p l.kind = true)
    (hbad : p .badCharacter = false) (ds : List Draft) : valueAt (leaf l) ds = (single l, ds) := by
  refine valueAt_alone fun plus number hplus _ => ?_
  obtain rfl := Draft.leaf.inj hplus
  exact isSignedNumber_of_kind hp hbad number.token

theorem length_valueAt_le (d : Draft) (ds : List Draft) :
    (valueAt d ds).2.length ≤ ds.length := by
  cases valueRule d ds with
  | signed h => simp [valueAt_signed _ h]
  | alone h => simp [valueAt_alone h]

end Maml.Draft
