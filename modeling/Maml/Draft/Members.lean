import Maml.Draft.Items

/-! What is in an object: members, with or without commas between them.

A member is a key, a colon and a value. The value is missing if the next member,
a comma or the end comes first. A key without a colon is kept, and what follows
it up to the next place where a member can begin is skipped. A reserved word or
a number before a colon is a mistake for a key, and its value is kept; anything
else that is no key is skipped like that too. Skipped brackets are whole values,
and so is a scalar behind a skipped colon.

Each function comes with what it can meet (`SkipRule`, `MemberValueRule`, `MemberRule`), an equation
for each case, and an induction over the pieces it goes through (`skip_induction`,
`members_induction`). -/
namespace Maml.Draft

/-- The tokens read as keys. -/
def isKey (kind : TokenKind) : Bool := kind.isKeyStart || kind == .unterminatedString

/-- The tokens that could be keys if they were quoted. -/
def isQuotable (kind : TokenKind) : Bool := kind.isKeyword || kind == .number

/-- Whether a row of pieces begins with a colon. -/
def startsWithColon : List Draft → Bool
  | d :: _ => d.isToken .colon
  | [] => false

/-- A row that begins with a colon begins with its token. -/
theorem exists_eq_leaf_cons_of_startsWithColon {ds : List Draft} (h : startsWithColon ds = true) :
    ∃ colon ds', ds = leaf colon :: ds' ∧ colon.kind = .colon := by
  cases ds with
  | nil => simp [startsWithColon] at h
  | cons d ds =>
    obtain ⟨colon, rfl, hc⟩ := eq_leaf_of_isToken h
    exact ⟨colon, ds, rfl, hc⟩

theorem not_isKey_of_isQuotable : ∀ {kind : TokenKind}, isQuotable kind = true →
    isKey kind = false := by
  decide

/-! ## Skipping -/

/-- Whether skipping ends at a piece. -/
def resumesMembers : Draft → Bool
  | leaf l => isKey l.kind || l.kind == .comma
  | node .. => false

/-- The value that is skipped together with `d`, if `d` is a colon and a value follows it, and
the pieces behind. -/
def skipValue (d : Draft) (ds : List Draft) : List Draft × List Draft :=
  match ds with
  | v :: rest => if d.isToken .colon && v.startsValue then ([v.asValue], rest) else ([], ds)
  | [] => ([], [])

/-- What is skipped behind a piece: the value behind a colon, or nothing. -/
inductive SkipRule : Draft → List Draft → Prop where
  | taken {d v rest} (hc : d.isToken .colon = true) (hv : v.startsValue = true) :
      SkipRule d (v :: rest)
  | alone {d ds} (h : d.isToken .colon = true → ∀ v ∈ ds.head?, v.startsValue = false) :
      SkipRule d ds

theorem skipRule (d : Draft) (ds : List Draft) : SkipRule d ds := by
  by_cases h : d.isToken .colon = true ∧ ∃ v rest, ds = v :: rest ∧ v.startsValue = true
  · obtain ⟨hc, v, rest, rfl, hv⟩ := h
    exact .taken hc hv
  · refine .alone fun hc v hv => Bool.eq_false_iff.mpr fun hvalue => h ⟨hc, ?_⟩
    obtain ⟨rest, hrest⟩ := List.head?_eq_some_iff.mp hv
    exact ⟨v, rest, hrest, hvalue⟩

theorem skipValue_taken {d v : Draft} (rest : List Draft) (hc : d.isToken .colon = true)
    (hv : v.startsValue = true) : skipValue d (v :: rest) = ([v.asValue], rest) := by
  rw [skipValue, hc, hv, Bool.and_self, if_pos rfl]

theorem skipValue_alone {d : Draft} {ds : List Draft}
    (h : d.isToken .colon = true → ∀ v ∈ ds.head?, v.startsValue = false) :
    skipValue d ds = ([], ds) := by
  cases ds with
  | nil => rfl
  | cons v rest =>
    rw [skipValue, if_neg]
    rw [Bool.and_eq_true]
    exact fun hvalue => absurd ((h hvalue.1 v rfl).symm.trans hvalue.2) Bool.false_ne_true

theorem skipValue_of_not_colon {d : Draft} (hc : d.isToken .colon = false) (ds : List Draft) :
    skipValue d ds = ([], ds) :=
  skipValue_alone fun hcolon => absurd (hc.symm.trans hcolon) Bool.false_ne_true

theorem length_skipValue_le (d : Draft) (ds : List Draft) :
    (skipValue d ds).2.length ≤ ds.length := by
  cases skipRule d ds with
  | taken hc hv => simp [skipValue_taken _ hc hv]
  | alone h => simp [skipValue_alone h]

/-- The pieces skipped up to the next place where a member can begin, and the pieces behind. -/
def skip : List Draft → List Draft × List Draft
  | [] => ([], [])
  | d :: ds =>
    if d.resumesMembers then
      ([], d :: ds)
    else
      let skipped := skip (skipValue d ds).2
      (d :: (skipValue d ds).1 ++ skipped.1, skipped.2)
termination_by ds => ds.length
decreasing_by
  have := length_skipValue_le d ds
  simp only [List.length_cons]
  omega

@[simp] theorem skip_nil : skip [] = ([], []) := by
  rw [skip]

theorem skip_of_resumesMembers {d : Draft} (hd : d.resumesMembers = true) (ds : List Draft) :
    skip (d :: ds) = ([], d :: ds) := by
  rw [skip, if_pos hd]

theorem skip_cons {d : Draft} (hd : d.resumesMembers = false) (ds : List Draft) :
    skip (d :: ds) = (d :: ((skipValue d ds).1 ++ (skip (skipValue d ds).2).1),
      (skip (skipValue d ds).2).2) := by
  rw [skip, hd, if_neg Bool.false_ne_true]
  rfl

/-- Induction on the pieces that are skipped. -/
theorem skip_induction {P : List Draft → Prop} (nil : P [])
    (resumes : ∀ d ds, d.resumesMembers = true → P (d :: ds))
    (skipped : ∀ d ds, d.resumesMembers = false → P (skipValue d ds).2 → P (d :: ds))
    (ds : List Draft) : P ds := by
  induction ds using skip.induct with
  | case1 => exact nil
  | case2 d ds hd => exact resumes d ds hd
  | case3 d ds hd ih => exact skipped d ds (by simpa using hd) ih

theorem length_skip_le (ds : List Draft) : (skip ds).2.length ≤ ds.length := by
  induction ds using skip_induction with
  | nil => simp
  | resumes d ds hd => simp [skip_of_resumesMembers hd]
  | skipped d ds hd ih =>
    have := length_skipValue_le d ds
    rw [skip_cons hd]
    simp only [List.length_cons]
    omega

/-! ## The value of a member -/

/-- Whether what follows a colon belongs to something else. -/
def valueMissing : List Draft → Bool
  | [] => true
  | leaf l :: ds => l.kind == .comma || (l.kind.isKeyStart && startsWithColon ds)
  | node .. :: _ => false

/-- What a member has behind its colon: a value or a note that it is missing. -/
structure MemberValue where
  value : List Draft
  note : Option ParseError
  /-- The pieces behind the value. -/
  rest : List Draft

/-- The value behind a colon; `stop` is the token that comes after the row of pieces. -/
def memberValue (stop : Token) (colon : Draft) (ds : List Draft) : MemberValue :=
  match ds with
  | d :: ds' =>
    if valueMissing ds then ⟨[], missing .value colon.firstToken d.firstToken, ds⟩
    else ⟨[(valueAt d ds').1], none, (valueAt d ds').2⟩
  | [] => ⟨[], missing .value colon.firstToken stop, []⟩

theorem memberValue_missing {stop : Token} {ds : List Draft} (h : valueMissing ds = true)
    (colon : Draft) : memberValue stop colon ds =
      ⟨[], missing .value colon.firstToken (nextToken stop ds), ds⟩ := by
  cases ds with
  | nil => rfl
  | cons d ds =>
    rw [memberValue, if_pos h]
    rfl

theorem memberValue_present {d : Draft} {ds : List Draft} (h : valueMissing (d :: ds) = false)
    (stop : Token) (colon : Draft) :
    memberValue stop colon (d :: ds) = ⟨[(valueAt d ds).1], none, (valueAt d ds).2⟩ := by
  rw [memberValue, h, if_neg Bool.false_ne_true]

/-- What can be behind a colon. -/
inductive MemberValueRule : List Draft → Prop where
  | missing {ds} (h : valueMissing ds = true) : MemberValueRule ds
  | present {d ds} (h : valueMissing (d :: ds) = false) : MemberValueRule (d :: ds)

theorem memberValueRule (ds : List Draft) : MemberValueRule ds := by
  cases h : valueMissing ds with
  | true => exact .missing h
  | false =>
    cases ds with
    | nil => exact absurd h Bool.false_ne_true.symm
    | cons d ds => exact .present h

theorem length_memberValue_le (stop : Token) (colon : Draft) (ds : List Draft) :
    (memberValue stop colon ds).rest.length ≤ ds.length := by
  cases memberValueRule ds with
  | missing h => exact Nat.le_of_eq (by rw [memberValue_missing h])
  | @present d ds h =>
    have := length_valueAt_le d ds
    rw [memberValue_present h]
    simp only [List.length_cons]
    omega

/-! ## Members -/

/-- The note of a key whose closing quote is missing. -/
def keyNote (key : Lexeme) : Option ParseError :=
  if key.kind == .unterminatedString then unexpected .key key.token key.token.span else none

/-- The note of a key without a colon, unless its closing quote is missing as well. -/
def colonNote (key : Lexeme) (next : Token) : Option ParseError :=
  if key.kind == .unterminatedString then none else unexpected .colon next key.token.span

def keyValue (key : Lexeme) (colon : Draft) (v : MemberValue) : Draft :=
  node .keyValue (keyNote key) (plain .key (leaf key) []) (colon :: v.value) v.note

def incomplete (key : Lexeme) (next : Token) : Draft :=
  node .incompleteKeyValue (keyNote key) (plain .key (leaf key) []) [] (colonNote key next)

/-- A reserved word or a number in the place of a key, a colon and a value. -/
def literalKey (key : Lexeme) (colon : Draft) (v : MemberValue) : Draft :=
  node .error (unexpected .key key.token key.token.span) (leaf key) (colon :: v.value) v.note

/-- Skipped pieces in the place of a member. -/
def junk (first : Draft) (rest : List Draft) : Draft :=
  node .error (unexpected .key first.firstToken first.firstToken.span) first rest none

/-- Skips a piece that begins no member, and what follows it. -/
def skipMember (d : Draft) (ds : List Draft) : List Draft × List Draft :=
  let v := skipValue d ds
  let skipped := skip v.2
  ([junk d (v.1 ++ skipped.1)], skipped.2)

/-- The member at the front of a row of pieces, with what is skipped after it, and the pieces
behind. -/
def memberAt (stop : Token) (d : Draft) (ds : List Draft) : List Draft × List Draft :=
  match d, ds with
  | leaf key, colon :: rest =>
    if colon.isToken .colon && isKey key.kind then
      let v := memberValue stop colon rest
      ([keyValue key colon v], v.rest)
    else if colon.isToken .colon && isQuotable key.kind then
      let v := memberValue stop colon rest
      ([literalKey key colon v], v.rest)
    else if isKey key.kind then
      let skipped := skip ds
      (incomplete key (nextToken stop ds) :: wrap .error skipped.1, skipped.2)
    else
      skipMember d ds
  | leaf key, [] =>
    if isKey key.kind then ([incomplete key stop], [])
    else skipMember d ds
  | _, _ => skipMember d ds

/-! What a member is depends on its first piece and on whether a colon follows. -/

def isKeyToken : Draft → Bool
  | leaf l => isKey l.kind
  | node .. => false

def isQuotableToken : Draft → Bool
  | leaf l => isQuotable l.kind
  | node .. => false

/-- A word or a number is no colon, so no value is skipped with it. -/
theorem skipValue_of_isQuotableToken {d : Draft} (hq : d.isQuotableToken = true)
    (ds : List Draft) : skipValue d ds = ([], ds) := by
  cases d with
  | node => exact absurd hq Bool.false_ne_true
  | leaf l => exact skipValue_of_not_colon (@TokenKind.beq_eq_false isQuotable _ _ hq rfl) ds

/-- What can be at the front of a row of pieces where a member should be. -/
inductive MemberRule : Draft → List Draft → Prop where
  | keyValue {key colon ds} (hk : isKey key.kind = true) (hc : colon.kind = .colon) :
      MemberRule (leaf key) (leaf colon :: ds)
  | literalKey {key colon ds} (hq : isQuotable key.kind = true) (hc : colon.kind = .colon) :
      MemberRule (leaf key) (leaf colon :: ds)
  | incomplete {key ds} (hk : isKey key.kind = true) (hc : startsWithColon ds = false) :
      MemberRule (leaf key) ds
  | skipped {d ds} (hk : d.isKeyToken = false)
      (hq : d.isQuotableToken = true → startsWithColon ds = false) : MemberRule d ds

theorem memberRule (d : Draft) (ds : List Draft) : MemberRule d ds := by
  cases d with
  | node => exact .skipped rfl fun hq => absurd hq Bool.false_ne_true
  | leaf key =>
    cases hcolon : startsWithColon ds with
    | false =>
      cases hk : isKey key.kind with
      | true => exact .incomplete hk hcolon
      | false => exact .skipped hk fun _ => hcolon
    | true =>
      obtain ⟨colon, ds, rfl, hc⟩ := exists_eq_leaf_cons_of_startsWithColon hcolon
      cases hk : isKey key.kind with
      | true => exact .keyValue hk hc
      | false =>
        cases hq : isQuotable key.kind with
        | true => exact .literalKey hq hc
        | false => exact .skipped hk fun hquote => absurd (hq.symm.trans hquote) Bool.false_ne_true

theorem memberAt_keyValue {key colon : Lexeme} (hk : isKey key.kind = true)
    (hc : colon.kind = .colon) (stop : Token) (ds : List Draft) :
    memberAt stop (leaf key) (leaf colon :: ds) =
      ([keyValue key (leaf colon) (memberValue stop (leaf colon) ds)],
        (memberValue stop (leaf colon) ds).rest) := by
  rw [memberAt, if_pos (by simp [hk, hc, isToken])]

theorem memberAt_literalKey {key colon : Lexeme} (hq : isQuotable key.kind = true)
    (hc : colon.kind = .colon) (stop : Token) (ds : List Draft) :
    memberAt stop (leaf key) (leaf colon :: ds) =
      ([literalKey key (leaf colon) (memberValue stop (leaf colon) ds)],
        (memberValue stop (leaf colon) ds).rest) := by
  rw [memberAt, if_neg (by simp [not_isKey_of_isQuotable hq]), if_pos (by simp [hq, hc, isToken])]

theorem memberAt_incomplete {stop : Token} {key : Lexeme} {ds : List Draft}
    (hk : isKey key.kind = true) (hc : startsWithColon ds = false) :
    memberAt stop (leaf key) ds =
      (incomplete key (nextToken stop ds) :: wrap .error (skip ds).1, (skip ds).2) := by
  cases ds with
  | nil => rw [memberAt, if_pos hk, skip]; rfl
  | cons colon ds =>
    have hc : colon.isToken .colon = false := hc
    rw [memberAt, if_neg (by simp [hc]), if_neg (by simp [hc]), if_pos hk]

theorem memberAt_skip {stop : Token} {d : Draft} {ds : List Draft} (hk : d.isKeyToken = false)
    (hq : d.isQuotableToken = true → startsWithColon ds = false) :
    memberAt stop d ds = skipMember d ds := by
  cases d with
  | node => rfl
  | leaf key =>
    have hk : ¬ isKey key.kind = true := by simpa [isKeyToken] using hk
    cases ds with
    | nil => rw [memberAt, if_neg hk]
    | cons colon ds =>
      have hq : ¬ (colon.isToken .colon && isQuotable key.kind) = true := by
        rw [Bool.and_eq_true]
        rintro ⟨hc, hquote⟩
        have hc' : colon.isToken .colon = false := hq hquote
        simp [hc] at hc'
      rw [memberAt, if_neg (by simp [hk]), if_neg hq, if_neg hk]

theorem length_skipMember_le (d : Draft) (ds : List Draft) :
    (skipMember d ds).2.length ≤ ds.length :=
  Nat.le_trans (length_skip_le _) (length_skipValue_le d ds)

theorem length_memberAt_le (stop : Token) (d : Draft) (ds : List Draft) :
    (memberAt stop d ds).2.length ≤ ds.length := by
  cases memberRule d ds with
  | @keyValue key colon ds hk hc =>
    rw [memberAt_keyValue hk hc]
    exact Nat.le_trans (length_memberValue_le stop (leaf colon) ds) (Nat.le_succ _)
  | @literalKey key colon ds hq hc =>
    rw [memberAt_literalKey hq hc]
    exact Nat.le_trans (length_memberValue_le stop (leaf colon) ds) (Nat.le_succ _)
  | incomplete hk hc =>
    rw [memberAt_incomplete hk hc]
    exact length_skip_le _
  | skipped hk hq =>
    rw [memberAt_skip hk hq]
    exact length_skipMember_le _ _

/-- The members of an object, from the pieces between its braces. -/
def members (stop : Token) (afterSeparator : Bool) : List Draft → List Draft
  | [] => []
  | d :: ds =>
    if d.isToken .comma then
      -- a comma separates only if something stands in front of it
      if afterSeparator then strayComma .key d :: members stop false ds
      else d :: members stop true ds
    else
      (memberAt stop d ds).1 ++ members stop false (memberAt stop d ds).2
termination_by ds => ds.length
decreasing_by
  · simp
  · simp
  · have := length_memberAt_le stop d ds
    simp only [List.length_cons]
    omega

@[simp] theorem members_nil (stop : Token) (b : Bool) : members stop b [] = [] := by
  rw [members]

theorem members_stray {comma : Lexeme} (hc : comma.kind = .comma) (stop : Token)
    (ds : List Draft) : members stop true (leaf comma :: ds) =
      strayComma .key (leaf comma) :: members stop false ds := by
  rw [members, if_pos (by simpa [isToken] using hc), if_pos rfl]

theorem members_comma {comma : Lexeme} (hc : comma.kind = .comma) (stop : Token)
    (ds : List Draft) : members stop false (leaf comma :: ds) =
      leaf comma :: members stop true ds := by
  rw [members, if_pos (by simpa [isToken] using hc), if_neg Bool.false_ne_true]

theorem members_cons {d : Draft} (hd : d.isToken .comma = false) (stop : Token) (b : Bool)
    (ds : List Draft) : members stop b (d :: ds) =
      (memberAt stop d ds).1 ++ members stop false (memberAt stop d ds).2 := by
  rw [members, hd, if_neg Bool.false_ne_true]

/-- Induction on the pieces of a list of members. -/
theorem members_induction {stop : Token} {P : Bool → List Draft → Prop} (nil : ∀ b, P b [])
    (stray : ∀ comma ds, comma.kind = .comma → P false ds → P true (leaf comma :: ds))
    (comma : ∀ comma ds, comma.kind = .comma → P true ds → P false (leaf comma :: ds))
    (member : ∀ b d ds, d.isToken .comma = false → P false (memberAt stop d ds).2 → P b (d :: ds))
    (b : Bool) (ds : List Draft) : P b ds := by
  induction b, ds using members.induct stop with
  | case1 b => exact nil b
  | case2 d ds hc ih =>
    obtain ⟨l, rfl, hl⟩ := eq_leaf_of_isToken hc
    exact stray l ds hl ih
  | case3 b d ds hc hb ih =>
    obtain ⟨l, rfl, hl⟩ := eq_leaf_of_isToken hc
    obtain rfl : b = false := by simpa using hb
    exact comma l ds hl ih
  | case4 b d ds hc ih => exact member b d ds (by simpa using hc) ih

end Maml.Draft
