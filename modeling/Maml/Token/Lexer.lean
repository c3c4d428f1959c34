import Maml.Span

/-! Tokens and how a text is divided into them.

A rule of the lexer answers which characters it takes after the first one,
always a beginning of what follows; `scan` chooses the rule by the first
character. `lex` applies it until nothing is left, so every token has at least
one character and together they are the text (`flatMap_lex`). Nothing is
rejected: a quoted string without its closing quote ends before the first
structural character of its line, so that the brackets around it still pair up,
and a character no rule accepts is a token by itself.

Where a quoted string ends is also told by rules, `Closes` for a closing quote
and `FindsQuotes` for three of them, with the reading functions proved equal to
them; `unit_induction` is the induction on the units of a string, an escape
being one unit.

`tokenize` gives the tokens their places; `Cursor` is a lexer that stops between
tokens. -/
namespace Maml

/-- A token with its kind, its place and its text. -/
structure Token where
  kind : TokenKind
  span : Span
  text : Text
  deriving DecidableEq, Repr

namespace Token

def eof (offset : Nat) : Token := ⟨.eof, .empty offset, []⟩

def isTrivia (t : Token) : Bool := t.kind.isTrivia

end Token

namespace Lexer

/-! ## Characters -/

def isLineBreak (c : Char) : Bool := c == '\n' || c == '\r'

/-- The characters between tokens. -/
def isBlank (c : Char) : Bool := c == ' ' || c == '\t' || isLineBreak c

/-- The characters that end a quoted string whose closing quote is missing. -/
def isStructural (c : Char) : Bool := c == '{' || c == '}' || c == '[' || c == ']' || c == ','

def isNameStart (c : Char) : Bool := c.isAlpha || c == '_'

def isNameChar (c : Char) : Bool := c.isAlphanum || c == '_' || c == '-'

def startsWithDigit : Text → Bool
  | c :: _ => c.isDigit
  | [] => false

/-! ## Quoted strings -/

/-- The rest of a quoted string up to its closing quote, if that is on the same line.
A backslash takes the next character with it, unless that breaks the line. -/
def closedBody : Text → Option Text
  | [] => none
  -- a backslash before a line break takes nothing with it, and the string is not closed
  | '\\' :: c :: cs =>
    if isLineBreak c then none else (closedBody cs).map fun body => '\\' :: c :: body
  | c :: cs =>
    if c == '"' then some ['"']
    else if isLineBreak c then none
    else (closedBody cs).map (c :: ·)

/-- The rest of a quoted string that is never closed: it stops before the first structural
character, the line break or the end. -/
def openBody : Text → Text
  | [] => []
  | '\\' :: c :: cs => if isLineBreak c then ['\\'] else '\\' :: c :: openBody cs
  | c :: cs => if isLineBreak c || isStructural c then [] else c :: openBody cs

/-- Three quotes, which open and close a multiline string. -/
def tripleQuote : Text := ['"', '"', '"']

/-- The beginning of a text up to and including its first three consecutive quotes. -/
def tripleBody : Text → Option Text
  | '"' :: '"' :: '"' :: _ => some tripleQuote
  | [] => none
  | c :: cs => (tripleBody cs).map (c :: ·)

/-- A string after its first quote. -/
def string : Text → TokenKind × Text
  | '"' :: '"' :: cs =>
    match tripleBody cs with
    | some body => (.multilineString, '"' :: '"' :: body)
    | none => (.unterminatedString, '"' :: '"' :: cs)
  | cs =>
    match closedBody cs with
    | some body => (.string, body)
    | none => (.unterminatedString, openBody cs)

/-! ## Numbers -/

def digits (cs : Text) : Text := cs.takeWhile Char.isDigit

/-- A point and digits, or nothing. -/
def fraction : Text → Text
  | '.' :: cs => if startsWithDigit cs then '.' :: digits cs else []
  | _ => []

/-- A sign or nothing, and digits; or nothing at all. -/
def signedDigits : Text → Text
  | c :: cs =>
    if c == '+' || c == '-' then
      if startsWithDigit cs then c :: digits cs else []
    else
      digits (c :: cs)
  | [] => []

/-- The letter `e` and signed digits, or nothing. -/
def exponent : Text → Text
  | c :: cs =>
    if (c == 'e' || c == 'E') && !(signedDigits cs).isEmpty then c :: signedDigits cs else []
  | [] => []

/-- A number after its first character: digits, a fraction and an exponent. -/
def number (cs : Text) : Text :=
  let whole := digits cs
  let rest := cs.drop whole.length
  let part := fraction rest
  whole ++ part ++ exponent (rest.drop part.length)

/-! ## Words -/

/-- The reserved words and their kinds. -/
def reserved : List (Text × TokenKind) :=
  [(['t', 'r', 'u', 'e'], .trueWord), (['f', 'a', 'l', 's', 'e'], .falseWord),
    (['n', 'u', 'l', 'l'], .nullWord)]

/-- A word that is not reserved is an identifier. -/
def wordKind (word : Text) : TokenKind := (reserved.lookup word).getD .identifier

/-! ## The lexer -/

/-- The kind of the token that begins with `c`, and the characters it takes after `c`. -/
def scan (c : Char) (cs : Text) : TokenKind × Text :=
  match c with
  | '{' => (.lBrace, [])
  | '}' => (.rBrace, [])
  | '[' => (.lBracket, [])
  | ']' => (.rBracket, [])
  | ':' => (.colon, [])
  | ',' => (.comma, [])
  | '#' => (.comment, cs.takeWhile (!isLineBreak ·))
  | '"' => string cs
  -- a sign belongs to a number only if a digit follows
  | '-' => if startsWithDigit cs then (.number, number cs) else (.badCharacter, [])
  | c =>
    if isBlank c then (.whitespace, cs.takeWhile isBlank)
    else if c.isDigit then (.number, number cs)
    else if isNameStart c then
      (wordKind (c :: cs.takeWhile isNameChar), cs.takeWhile isNameChar)
    else (.badCharacter, [])

/-- The kinds and texts of all tokens of a text. -/
def lex : Text → List (TokenKind × Text)
  | [] => []
  | c :: cs =>
    ((scan c cs).1, c :: (scan c cs).2) :: lex (cs.drop (scan c cs).2.length)
termination_by text => text.length
decreasing_by simp only [List.length_cons, List.length_drop]; omega

/-- Tokens for kinds and texts that follow one another from an offset. -/
def place (offset : Nat) : List (TokenKind × Text) → List Token
  | [] => []
  | (kind, text) :: rest =>
    ⟨kind, ⟨offset, offset + text.size⟩, text⟩ :: place (offset + text.size) rest

end Lexer

/-- All tokens of a document, trivia included. -/
def tokenize (source : Text) : List Token := Lexer.place 0 (Lexer.lex source)

/-! ## Stopping between tokens -/

/-- A place in a text, between two tokens, and what is left of the text from there. -/
structure Cursor where
  position : Nat
  rest : Text
  deriving DecidableEq, Repr

namespace Cursor

/-- The cursor at an offset of a text; tokens keep their places in the whole text. -/
def startingAt (source : Text) (offset : Nat) : Except Fault Cursor :=
  match source.splitAt? offset with
  | some (_, rest) => .ok ⟨offset, rest⟩
  | none => .error (.restart offset)

def isEof (c : Cursor) : Bool := c.rest.isEmpty

def tokens (c : Cursor) : List Token := Lexer.place c.position (Lexer.lex c.rest)

/-- The next token and the cursor behind it, if the text has not ended. -/
def next? (c : Cursor) : Option (Token × Cursor) :=
  match c.rest with
  | [] => none
  | first :: more =>
    let (kind, taken) := Lexer.scan first more
    let stop := c.position + Text.size (first :: taken)
    some (⟨kind, ⟨c.position, stop⟩, first :: taken⟩, ⟨stop, more.drop taken.length⟩)

/-- The next token and the cursor behind it; at the end, an empty token again and again. -/
def next (c : Cursor) : Token × Cursor := c.next?.getD (.eof c.position, c)

end Cursor

/-! ## Nothing is lost -/

namespace Lexer

/-- Induction on the units of a quoted string: a backslash and the character behind it, if that
does not break the line, or any other character. -/
theorem unit_induction {P : Text → Prop} (nil : P []) (slash : P ['\\'])
    (broken : ∀ c cs, isLineBreak c = true → P ('\\' :: c :: cs))
    (escape : ∀ c cs, isLineBreak c = false → P cs → P ('\\' :: c :: cs))
    (plain : ∀ c cs, c ≠ '\\' → P cs → P (c :: cs)) : ∀ cs, P cs
  | [] => nil
  | [c] => by
    by_cases hslash : c = '\\'
    · exact hslash ▸ slash
    · exact plain c [] hslash nil
  | c :: d :: ds => by
    by_cases hslash : c = '\\'
    · subst hslash
      cases hbreak : isLineBreak d with
      | true => exact broken d ds hbreak
      | false => exact escape d ds hbreak (unit_induction nil slash broken escape plain ds)
    · exact plain c (d :: ds) hslash (unit_induction nil slash broken escape plain (d :: ds))

theorem closedBody_cons {c : Char} (hslash : c ≠ '\\') (hquote : c ≠ '"')
    (hbreak : isLineBreak c = false) (cs : Text) :
    closedBody (c :: cs) = (closedBody cs).map (c :: ·) := by
  rw [closedBody.eq_3 _ _ fun _ _ h => absurd h hslash]
  simp [hquote, hbreak]

theorem closedBody_escape {c : Char} (hbreak : isLineBreak c = false) (cs : Text) :
    closedBody ('\\' :: c :: cs) = (closedBody cs).map fun body => '\\' :: c :: body := by
  rw [closedBody, if_neg (by simp [hbreak])]

theorem closedBody_quote (cs : Text) : closedBody ('"' :: cs) = some ['"'] := by
  rw [closedBody.eq_3 _ _ fun _ _ h => absurd h (by decide)]
  rfl

theorem closedBody_lineBreak {c : Char} (hbreak : isLineBreak c = true) (cs : Text) :
    closedBody (c :: cs) = none := by
  have hne {d : Char} (hd : isLineBreak d = false) : c ≠ d := by
    rintro rfl
    exact absurd (hbreak.symm.trans hd) (by decide)
  rw [closedBody.eq_3 _ _ fun _ _ h => absurd h (hne rfl)]
  simp [hne (d := '"') rfl, hbreak]

/-- How the end of a quoted string is found, from the end on. -/
inductive Closes : Text → Text → Prop where
  | quote (cs : Text) : Closes ('"' :: cs) ['"']
  | escape {c cs body} (hbreak : isLineBreak c = false) (h : Closes cs body) :
      Closes ('\\' :: c :: cs) ('\\' :: c :: body)
  | plain {c cs body} (hslash : c ≠ '\\') (hquote : c ≠ '"') (hbreak : isLineBreak c = false)
      (h : Closes cs body) : Closes (c :: cs) (c :: body)

theorem closes_of_closedBody {cs body : Text} (h : closedBody cs = some body) :
    Closes cs body := by
  induction cs using unit_induction generalizing body with
  | nil | slash => exact absurd h nofun
  | broken c cs hbreak =>
    rw [closedBody, if_pos hbreak] at h
    exact absurd h nofun
  | escape c cs hbreak ih =>
    rw [closedBody_escape hbreak, Option.map_eq_some_iff] at h
    obtain ⟨body, h, rfl⟩ := h
    exact .escape hbreak (ih h)
  | plain c cs hslash ih =>
    by_cases hquote : c = '"'
    · subst hquote
      rw [closedBody_quote] at h
      exact Option.some.inj h ▸ .quote cs
    cases hbreak : isLineBreak c with
    | true =>
      rw [closedBody_lineBreak hbreak] at h
      exact absurd h nofun
    | false =>
      rw [closedBody_cons hslash hquote hbreak, Option.map_eq_some_iff] at h
      obtain ⟨body, h, rfl⟩ := h
      exact .plain hslash hquote hbreak (ih h)

namespace Closes
variable {cs body : Text}

theorem closedBody_eq (h : Closes cs body) : closedBody cs = some body := by
  induction h with
  | quote cs => exact closedBody_quote cs
  | escape hbreak _ ih => rw [closedBody_escape hbreak, ih, Option.map_some]
  | plain hslash hquote hbreak _ ih => rw [closedBody_cons hslash hquote hbreak, ih, Option.map_some]

theorem isPrefix (h : Closes cs body) : body <+: cs := by
  induction h with
  | quote cs => exact ⟨cs, rfl⟩
  | escape _ _ ih => simpa using ih
  | plain _ _ _ _ ih => simpa using ih

/-- What is found is found whatever stands behind it. -/
theorem append (h : Closes cs body) (tail : Text) : Closes (body ++ tail) body := by
  induction h with
  | quote => exact .quote tail
  | escape hbreak _ ih => exact .escape hbreak ih
  | plain hslash hquote hbreak _ ih => exact .plain hslash hquote hbreak ih

end Closes

theorem closedBody_isPrefix {cs body : Text} (h : closedBody cs = some body) : body <+: cs :=
  (closes_of_closedBody h).isPrefix

/-- A quoted string ends where it does whatever stands behind it. -/
theorem closedBody_body_append {cs body : Text} (h : closedBody cs = some body) (tail : Text) :
    closedBody (body ++ tail) = some body :=
  ((closes_of_closedBody h).append tail).closedBody_eq

theorem closedBody_append {cs body : Text} (h : closedBody cs = some body) (tail : Text) :
    closedBody (cs ++ tail) = some body := by
  obtain ⟨rest, rfl⟩ := closedBody_isPrefix h
  rw [List.append_assoc]
  exact closedBody_body_append h (rest ++ tail)

theorem openBody_escape {c : Char} (hbreak : isLineBreak c = false) (cs : Text) :
    openBody ('\\' :: c :: cs) = '\\' :: c :: openBody cs := by
  rw [openBody, if_neg (by simp [hbreak])]

theorem openBody_broken {c : Char} (hbreak : isLineBreak c = true) (cs : Text) :
    openBody ('\\' :: c :: cs) = ['\\'] := by
  rw [openBody, if_pos hbreak]

theorem openBody_plain {c : Char} (hslash : c ≠ '\\') (cs : Text) :
    openBody (c :: cs) = if isLineBreak c || isStructural c then [] else c :: openBody cs :=
  openBody.eq_3 _ _ fun _ _ h => absurd h hslash

theorem openBody_isPrefix (cs : Text) : openBody cs <+: cs := by
  induction cs using unit_induction with
  | nil | slash => exact List.prefix_refl _
  | broken c cs hbreak =>
    rw [openBody_broken hbreak]
    exact List.prefix_append ['\\'] (c :: cs)
  | escape c cs hbreak ih =>
    rw [openBody_escape hbreak]
    simpa using ih
  | plain c cs hslash ih =>
    rw [openBody_plain hslash]
    split
    · exact List.nil_prefix
    · simpa using ih

/-- How three quotes are found, from the end on. -/
inductive FindsQuotes : Text → Text → Prop where
  | here (cs : Text) : FindsQuotes (tripleQuote ++ cs) tripleQuote
  | behind {c cs body} (hne : ¬ tripleQuote <+: c :: cs) (h : FindsQuotes cs body) :
      FindsQuotes (c :: cs) (c :: body)

theorem tripleBody_cons {c : Char} {cs : Text} (hne : ¬ tripleQuote <+: c :: cs) :
    tripleBody (c :: cs) = (tripleBody cs).map (c :: ·) := by
  refine tripleBody.eq_3 c cs ?_
  rintro ds rfl rfl
  exact hne ⟨ds, rfl⟩

theorem findsQuotes_of_tripleBody {cs body : Text} (h : tripleBody cs = some body) :
    FindsQuotes cs body := by
  induction cs using tripleBody.induct generalizing body with
  | case1 cs => exact Option.some.inj h ▸ .here cs
  | case2 => exact absurd h nofun
  | case3 c cs hne ih =>
    rw [tripleBody.eq_3 _ _ hne, Option.map_eq_some_iff] at h
    obtain ⟨body, h, rfl⟩ := h
    refine .behind ?_ (ih h)
    rintro ⟨ds, hds⟩
    obtain ⟨rfl, rfl⟩ := List.cons.inj hds
    exact hne ds rfl rfl

namespace FindsQuotes
variable {cs body : Text}

theorem tripleBody_eq (h : FindsQuotes cs body) : tripleBody cs = some body := by
  induction h with
  | here => rfl
  | behind hne _ ih => rw [tripleBody_cons hne, ih, Option.map_some]

theorem isPrefix (h : FindsQuotes cs body) : body <+: cs := by
  induction h with
  | here cs => exact ⟨cs, rfl⟩
  | behind _ _ ih => simpa using ih

theorem isSuffix (h : FindsQuotes cs body) : tripleQuote <:+ body := by
  induction h with
  | here => exact List.suffix_refl _
  | behind _ _ ih => exact ih.trans (List.suffix_cons _ _)

/-- What is found is found whatever stands behind it. -/
theorem append (h : FindsQuotes cs body) (tail : Text) : FindsQuotes (body ++ tail) body := by
  induction h with
  | here => exact .here tail
  | @behind c cs body hne h ih =>
    refine .behind (fun hfront => hne ?_) ih
    -- the body has three quotes at its end, so the three in front are in `c :: cs`
    have hbody : tripleQuote <+: c :: body := List.prefix_of_prefix_length_le hfront
      (List.prefix_append (c :: body) tail) (Nat.le_succ_of_le h.isSuffix.length_le)
    exact hbody.trans (List.cons_prefix_cons.mpr ⟨rfl, h.isPrefix⟩)

end FindsQuotes

theorem tripleBody_isPrefix {cs body : Text} (h : tripleBody cs = some body) : body <+: cs :=
  (findsQuotes_of_tripleBody h).isPrefix

/-- A multiline string ends where it does whatever stands behind it. -/
theorem tripleBody_body_append {cs body : Text} (h : tripleBody cs = some body) (tail : Text) :
    tripleBody (body ++ tail) = some body :=
  ((findsQuotes_of_tripleBody h).append tail).tripleBody_eq

theorem tripleBody_append {cs body : Text} (h : tripleBody cs = some body) (tail : Text) :
    tripleBody (cs ++ tail) = some body := by
  obtain ⟨rest, rfl⟩ := tripleBody_isPrefix h
  rw [List.append_assoc]
  exact tripleBody_body_append h (rest ++ tail)

theorem string_isPrefix (cs : Text) : (string cs).2 <+: cs := by
  unfold string
  split
  · split
    · rename_i h
      simpa using tripleBody_isPrefix h
    · exact List.prefix_refl _
  · split
    · rename_i h
      exact closedBody_isPrefix h
    · exact openBody_isPrefix _

theorem digits_isPrefix (cs : Text) : digits cs <+: cs := List.takeWhile_prefix _

theorem fraction_isPrefix (cs : Text) : fraction cs <+: cs := by
  unfold fraction
  split
  · split
    · simpa using digits_isPrefix _
    · exact List.nil_prefix
  · exact List.nil_prefix

theorem signedDigits_isPrefix (cs : Text) : signedDigits cs <+: cs := by
  unfold signedDigits
  split
  · split
    · split
      · simpa using digits_isPrefix _
      · exact List.nil_prefix
    · exact digits_isPrefix _
  · exact List.nil_prefix

theorem exponent_isPrefix (cs : Text) : exponent cs <+: cs := by
  unfold exponent
  split
  · split
    · simpa using signedDigits_isPrefix _
    · exact List.nil_prefix
  · exact List.nil_prefix

/-- A beginning, and a beginning of what is left behind it, make a beginning. -/
theorem append_isPrefix {a b cs : Text} (ha : a <+: cs) (hb : b <+: cs.drop a.length) :
    a ++ b <+: cs := by
  obtain ⟨r, rfl⟩ := ha
  rw [List.drop_left] at hb
  exact List.prefix_append_right_inj a |>.mpr hb

theorem number_isPrefix (cs : Text) : number cs <+: cs := by
  have h : digits cs ++ fraction (cs.drop (digits cs).length) <+: cs :=
    append_isPrefix (digits_isPrefix cs) (fraction_isPrefix _)
  apply append_isPrefix h
  rw [List.length_append, ← List.drop_drop]
  exact exponent_isPrefix _

/-- The marks that are tokens by themselves, and their kinds. -/
def punctuation : List (Char × TokenKind) :=
  [('{', .lBrace), ('}', .rBrace), ('[', .lBracket), (']', .rBracket), (':', .colon), (',', .comma)]

/-- By which rule a token is scanned that begins with `c`, whatever follows. -/
inductive ScanRule (c : Char) : Prop where
  | mark {kind} (hc : (c, kind) ∈ punctuation) (hscan : ∀ cs, scan c cs = (kind, []))
  | comment (hc : c = '#') (hscan : ∀ cs, scan c cs = (.comment, cs.takeWhile (!isLineBreak ·)))
  | quote (hc : c = '"') (hscan : ∀ cs, scan c cs = string cs)
  | sign (hc : c = '-') (hscan : ∀ cs, scan c cs =
      if startsWithDigit cs then (.number, number cs) else (.badCharacter, []))
  | blank (hc : isBlank c = true) (hscan : ∀ cs, scan c cs = (.whitespace, cs.takeWhile isBlank))
  | digit (hc : c.isDigit = true) (hscan : ∀ cs, scan c cs = (.number, number cs))
  | name (hc : isNameStart c = true) (hscan : ∀ cs, scan c cs =
      (wordKind (c :: cs.takeWhile isNameChar), cs.takeWhile isNameChar))
  | bad (hscan : ∀ cs, scan c cs = (.badCharacter, []))

/-- Every token is scanned by one of the rules. -/
theorem scanRule (c : Char) : ScanRule c := by
  by_cases hfirst : c ∈ ['{', '}', '[', ']', ':', ',', '#', '"', '-']
  · simp only [List.mem_cons, List.not_mem_nil, or_false] at hfirst
    rcases hfirst with rfl | rfl | rfl | rfl | rfl | rfl | rfl | rfl | rfl
    case' inr.inr.inr.inr.inr.inr.inl => exact .comment rfl fun _ => rfl
    case' inr.inr.inr.inr.inr.inr.inr.inl => exact .quote rfl fun _ => rfl
    case' inr.inr.inr.inr.inr.inr.inr.inr => exact .sign rfl fun _ => rfl
    all_goals exact .mark (by decide) fun _ => rfl
  · have hscan (cs : Text) : scan c cs =
        if isBlank c then (.whitespace, cs.takeWhile isBlank)
        else if c.isDigit then (.number, number cs)
        else if isNameStart c then
          (wordKind (c :: cs.takeWhile isNameChar), cs.takeWhile isNameChar)
        else (.badCharacter, []) := by
      unfold scan
      split
      case h_10 => rfl
      all_goals exact absurd (by decide) hfirst
    by_cases hblank : isBlank c = true
    · exact .blank hblank fun cs => by rw [hscan, if_pos hblank]
    by_cases hdigit : c.isDigit = true
    · exact .digit hdigit fun cs => by rw [hscan, if_neg hblank, if_pos hdigit]
    by_cases hname : isNameStart c = true
    · exact .name hname fun cs => by rw [hscan, if_neg hblank, if_neg hdigit, if_pos hname]
    · exact .bad fun cs => by rw [hscan, if_neg hblank, if_neg hdigit, if_neg hname]

/-- A token takes a beginning of what follows its first character. -/
theorem scan_isPrefix (c : Char) (cs : Text) : (scan c cs).2 <+: cs := by
  cases scanRule c with
  | mark _ hscan | bad hscan =>
    rw [hscan]
    exact List.nil_prefix
  | comment _ hscan | blank _ hscan | name _ hscan =>
    rw [hscan]
    exact List.takeWhile_prefix _
  | quote _ hscan =>
    rw [hscan]
    exact string_isPrefix cs
  | digit _ hscan =>
    rw [hscan]
    exact number_isPrefix cs
  | sign _ hscan =>
    rw [hscan]
    split
    · exact number_isPrefix cs
    · exact List.nil_prefix

/-- The tokens of a text are the text. -/
theorem flatMap_lex (text : Text) : (lex text).flatMap (·.2) = text := by
  induction text using lex.induct with
  | case1 => simp [lex]
  | case2 c cs ih =>
    have h := List.prefix_iff_eq_append.mp (scan_isPrefix c cs)
    rw [lex, List.flatMap_cons, ih]
    simpa using h

/-- Every token has at least one character. -/
theorem text_ne_nil_of_mem_lex {text : Text} {t : TokenKind × Text} (h : t ∈ lex text) :
    t.2 ≠ [] := by
  induction text using lex.induct with
  | case1 => simp [lex] at h
  | case2 c cs ih =>
    rw [lex, List.mem_cons] at h
    rcases h with rfl | h
    · simp
    · exact ih h

/-- Placing tokens keeps their texts. -/
@[simp] theorem map_text_place (offset : Nat) (ts : List (TokenKind × Text)) :
    (place offset ts).map Token.text = ts.map (·.2) := by
  induction ts generalizing offset with
  | nil => rfl
  | cons t ts ih => simp [place, ih]

end Lexer

/-- The texts of a document's tokens are the document. -/
theorem flatten_text_tokenize (source : Text) :
    ((tokenize source).map Token.text).flatten = source := by
  rw [tokenize, Lexer.map_text_place, ← List.flatMap_def, Lexer.flatMap_lex]

end Maml
