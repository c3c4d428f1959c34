import Maml.Proofs.Endings
import Maml.Proofs.Scanning

/-! The longest match.

1. What the next token is depends on the text alone that is left: `IsNext` says it of cursors, which
   look at texts as they are, and of scanners, which count bytes (`isNext_cons_iff`).
2. A number is written as `IsNumber` says exactly if the rule for numbers takes it whole
   (`isNumber_cons_iff`), and in front of any text the rule takes no less
   (`isPrefix_number_append`). So it takes the longest number that a text begins with.
3. Names, blanks and comments are runs of characters (`isLongest_run`).
4. So each of these tokens is found by its first characters, and is the longest beginning of the
   text that is written like one (`next_is_longest`). -/
namespace Maml.Lexer

/-! ## The next token -/

/-- Whether the next token at a text has a kind and a text, wherever the text stands: for a cursor,
and for a scanner as far as its offsets reach. -/
structure IsNext (r : Text) (kind : TokenKind) (text : Text) : Prop where
  cursor (o : Nat) : (Cursor.mk o r).next.1 = ⟨kind, ⟨o, o + text.size⟩, text⟩
  scanner {front : Text} (h : Text.size (front ++ r) < Scanner.offsetLimit) :
    ∃ s, (Scanner.between front r).nextToken =
      .ok (⟨kind, ⟨front.size, front.size + text.size⟩, text⟩, s)

theorem isNext_cons_iff {c : Char} {cs : Text} {kind : TokenKind} {text : Text} :
    IsNext (c :: cs) kind text ↔ (scan c cs).1 = kind ∧ c :: (scan c cs).2 = text := by
  constructor
  · intro h
    have hnext := h.cursor 0
    exact ⟨congrArg Token.kind hnext, congrArg Token.text hnext⟩
  · rintro ⟨rfl, rfl⟩
    exact ⟨fun o => rfl, fun h => ⟨_, Scanner.nextToken_between h⟩⟩

theorem kind_eq_eof_of_isNext_nil {kind : TokenKind} {text : Text} (h : IsNext [] kind text) :
    kind = .eof := (congrArg Token.kind (h.cursor 0)).symm

theorem exists_isNext (r : Text) : ∃ kind text, IsNext r kind text := by
  cases r with
  | nil =>
    refine ⟨.eof, [], fun o => rfl, fun {front} _ => ⟨Scanner.between front [], ?_⟩⟩
    rw [Scanner.nextToken_end]
    rfl
  | cons c cs => exact ⟨_, _, isNext_cons_iff.mpr ⟨rfl, rfl⟩⟩

/-! ## How tokens are written -/

/-- Whether a text is the longest beginning of another of which something holds. -/
structure IsLongest (P : Text → Prop) (r text : Text) : Prop where
  begins : text <+: r
  holds : P text
  longest {other : Text} : other <+: r → P other → other.length ≤ text.length

def IsDigits (text : Text) : Prop := text ≠ [] ∧ AreDigits text

/-- How a number is written: `-?[0-9]+(\.[0-9]+)?([eE][+-]?[0-9]+)?`. -/
inductive IsNumber : Text → Prop where
  | intro {sign whole part expo : Text} (hsign : sign = [] ∨ sign = ['-']) (hwhole : IsDigits whole)
      (hpart : part = [] ∨ ∃ ds, part = '.' :: ds ∧ IsDigits ds)
      (hexpo : expo = [] ∨ ∃ e esign ds, expo = e :: (esign ++ ds) ∧ (e = 'e' ∨ e = 'E') ∧
        (esign = [] ∨ esign = ['+'] ∨ esign = ['-']) ∧ IsDigits ds) :
      IsNumber (sign ++ (whole ++ (part ++ expo)))

/-- Whether a text is a first character and a run of others. -/
def IsRun (first more : Char → Bool) (text : Text) : Prop :=
  ∃ c cs, text = c :: cs ∧ first c = true ∧ ∀ d ∈ cs, more d = true

/-- How names and reserved words are written: `[A-Za-z_][A-Za-z0-9_-]*`. -/
def IsName : Text → Prop := IsRun isNameStart isNameChar

/-- How blanks are written: `[ \t\r\n]+`. -/
def IsBlanks : Text → Prop := IsRun isBlank isBlank

/-- How a comment is written: `#[^\r\n]*`. -/
def IsComment : Text → Prop := IsRun (· == '#') (!isLineBreak ·)

/-! ## Numbers -/

section
variable {part expo : Text}

theorem AreDigits.digits_eq {ds : Text} (h : AreDigits ds) : digits ds = ds := by
  have happend := h.digits_append []
  rwa [List.append_nil, show digits [] = [] from rfl, List.append_nil] at happend

theorem IsDigits.signedDigits_eq {sign ds : Text} (hds : IsDigits ds)
    (hsign : sign = [] ∨ sign = ['+'] ∨ sign = ['-']) : signedDigits (sign ++ ds) = sign ++ ds := by
  have hstart := hds.2.startsWithDigit hds.1 []
  rw [List.append_nil] at hstart
  rcases hsign with rfl | rfl | rfl
  · obtain ⟨d, more, rfl⟩ := List.exists_cons_of_ne_nil hds.1
    have hd : (d == '+' || d == '-') = false := by
      rw [Bool.or_eq_false_iff, beq_eq_false_iff_ne, beq_eq_false_iff_ne]
      exact ⟨fun h => hds.2.not_mem (c := '+') (by decide) (by simp [h]),
        fun h => hds.2.not_mem (c := '-') (by decide) (by simp [h])⟩
    rw [List.nil_append, signedDigits, hd]
    exact hds.2.digits_eq
  · rw [List.singleton_append, signedDigits, hstart, hds.2.digits_eq]
    rfl
  · rw [List.singleton_append, signedDigits, hstart, hds.2.digits_eq]
    rfl

/-- What is taken whole as signed digits is a sign, or none, and digits. -/
theorem exists_sign_of_signedDigits {part : Text} (h : signedDigits part = part) (hne : part ≠ []) :
    ∃ sign ds, part = sign ++ ds ∧ (sign = [] ∨ sign = ['+'] ∨ sign = ['-']) ∧ IsDigits ds := by
  obtain ⟨c, cs, rfl⟩ := List.exists_cons_of_ne_nil hne
  rw [signedDigits] at h
  split at h
  · rename_i hsign
    split at h
    · rename_i hstart
      have hcs : AreDigits cs := (List.cons.inj h).2 ▸ areDigits_digits cs
      have hne : cs ≠ [] := by
        rintro rfl
        exact Bool.false_ne_true hstart
      refine ⟨[c], cs, rfl, .inr ?_, hne, hcs⟩
      simpa using hsign
    · exact absurd h.symm (List.cons_ne_nil _ _)
  · exact ⟨[], c :: cs, rfl, .inl rfl, hne, h ▸ areDigits_digits (c :: cs)⟩

theorem number_of_parts (hpart : part = [] ∨ ∃ ds, part = '.' :: ds ∧ IsDigits ds)
    (hexpo : expo = [] ∨ ∃ e esign ds, expo = e :: (esign ++ ds) ∧ (e = 'e' ∨ e = 'E') ∧
      (esign = [] ∨ esign = ['+'] ∨ esign = ['-']) ∧ IsDigits ds) :
    number (part ++ expo) = part ++ expo := by
  have hexponent : digits expo = [] ∧ exponent expo = expo ∧ number expo = expo := by
    rcases hexpo with rfl | ⟨e, esign, ds, rfl, he, hsign, hds⟩
    · exact ⟨rfl, rfl, rfl⟩
    have hne : esign ++ ds ≠ [] := by simp [hds.1]
    have hself := hds.signedDigits_eq hsign
    have hwhole := exponent_append_of_letter he hself hne []
    have hnumber := number_append_of_exponent he hself hne []
    have hnil : digits [] = [] := rfl
    rw [List.append_nil, hnil, List.append_nil] at hwhole hnumber
    exact ⟨by rcases he with rfl | rfl <;> rfl, hwhole, hnumber⟩
  rcases hpart with rfl | ⟨ds, rfl, hds⟩
  · exact hexponent.2.2
  · rw [number_append_of_point hds.2 hds.1, hexponent.1, List.nil_append, List.length_nil,
      List.drop_zero, hexponent.2.1]

/-- A number is what the rule for numbers takes whole behind a minus sign or a digit. -/
theorem isNumber_cons_iff {c : Char} {cs : Text} : IsNumber (c :: cs) ↔
    (c = '-' ∧ startsWithDigit cs = true ∨ c.isDigit = true) ∧ number cs = cs := by
  constructor
  · intro h
    generalize htext : c :: cs = text at h
    obtain ⟨hsign, hwhole, hpart, hexpo⟩ := h
    rename_i sign whole part expo
    have hparts := number_of_parts hpart hexpo
    rcases hsign with rfl | rfl
    · obtain ⟨d, ds, rfl⟩ := List.exists_cons_of_ne_nil hwhole.1
      rw [List.nil_append, List.cons_append] at htext
      obtain ⟨rfl, rfl⟩ := List.cons.inj htext
      obtain ⟨hd, hds⟩ := List.forall_mem_cons.mp hwhole.2
      exact ⟨.inr hd, by rw [AreDigits.number_append hds, hparts]⟩
    · rw [List.singleton_append] at htext
      obtain ⟨rfl, rfl⟩ := List.cons.inj htext
      exact ⟨.inl ⟨rfl, hwhole.2.startsWithDigit hwhole.1 _⟩,
        by rw [hwhole.2.number_append, hparts]⟩
  · rintro ⟨hc, hself⟩
    rw [number_eq, List.append_assoc] at hself
    have hpart : fraction (cs.drop (digits cs).length) = [] ∨
        ∃ ds, fraction (cs.drop (digits cs).length) = '.' :: ds ∧ IsDigits ds := by
      refine (fraction_cases _).imp_right ?_
      rintro ⟨ds, hds, hdigits, hne⟩
      exact ⟨ds, hds, hne, hdigits⟩
    have hexpo : exponent (cs.drop (digits cs ++ fraction (cs.drop (digits cs).length)).length) = [] ∨
        ∃ e esign ds, exponent (cs.drop (digits cs ++ fraction (cs.drop
          (digits cs).length)).length) = e :: (esign ++ ds) ∧ (e = 'e' ∨ e = 'E') ∧
            (esign = [] ∨ esign = ['+'] ∨ esign = ['-']) ∧ IsDigits ds := by
      refine (exponent_cases _).imp_right ?_
      rintro ⟨e, more, hmore, he, hsigned, hne⟩
      obtain ⟨esign, ds, rfl, hsign, hds⟩ := exists_sign_of_signedDigits hsigned hne
      exact ⟨e, esign, ds, hmore, he, hsign, hds⟩
    have hdigits := areDigits_digits cs
    rcases hc with ⟨rfl, hstart⟩ | hc
    · have hne : digits cs ≠ [] := by
        rw [ne_eq, digits_eq_nil_iff, hstart]
        decide
      have hnumber := IsNumber.intro (.inr rfl) ⟨hne, hdigits⟩ hpart hexpo
      rwa [hself] at hnumber
    · have hwhole : IsDigits (c :: digits cs) :=
        ⟨List.cons_ne_nil _ _, List.forall_mem_cons.mpr ⟨hc, hdigits⟩⟩
      have hnumber := IsNumber.intro (.inl rfl) hwhole hpart hexpo
      rwa [List.nil_append, List.cons_append, hself] at hnumber

/-- In front of any text a number is taken whole, and maybe more. -/
theorem isPrefix_number_append {cs : Text} (h : number cs = cs) (tail : Text) :
    cs <+: number (cs ++ tail) := by
  rcases number_cases h with hwhole | ⟨-, hnumber⟩ | ⟨-, hnumber⟩
  · rw [hwhole.number_append]
    exact List.prefix_append _ _
  · rw [hnumber]
    exact List.prefix_append _ _
  · rw [hnumber]
    exact List.prefix_append _ _

theorem isLongest_number {c : Char} {cs : Text}
    (hc : c = '-' ∧ startsWithDigit cs = true ∨ c.isDigit = true) :
    IsLongest IsNumber (c :: cs) (c :: number cs) where
  begins := List.cons_prefix_cons.mpr ⟨rfl, number_isPrefix cs⟩
  holds := by
    refine isNumber_cons_iff.mpr ⟨hc.imp_left (And.imp_right fun hstart => ?_),
      survivesCut_number.self number_isPrefix cs⟩
    have hne : digits cs ≠ [] := by
      rw [ne_eq, digits_eq_nil_iff, hstart]
      decide
    rw [number_eq, List.append_assoc]
    exact (areDigits_digits cs).startsWithDigit hne _
  longest {other} hother hnumber := by
    cases other with
    | nil => exact Nat.zero_le _
    | cons d ds =>
      obtain ⟨rfl, tail, rfl⟩ := List.cons_prefix_cons.mp hother
      have hself := (isNumber_cons_iff.mp hnumber).2
      exact Nat.succ_le_succ (isPrefix_number_append hself tail).length_le

end

/-! ## Runs -/

/-- A run ends where the characters are others. -/
theorem isLongest_run {first more : Char → Bool} {c : Char} {cs : Text} (hc : first c = true) :
    IsLongest (IsRun first more) (c :: cs) (c :: cs.takeWhile more) where
  begins := List.cons_prefix_cons.mpr ⟨rfl, List.takeWhile_prefix more⟩
  holds := ⟨c, _, rfl, hc, List.all_eq_true.mp List.all_takeWhile⟩
  longest {other} hother hrun := by
    obtain ⟨d, ds, rfl, -, hds⟩ := hrun
    obtain ⟨rfl, tail, rfl⟩ := List.cons_prefix_cons.mp hother
    rw [List.takeWhile_append_of_pos hds]
    simp

/-! ## Tokens -/

def Begins (first : Char → Bool) (r : Text) : Prop := ∃ c ∈ r.head?, first c = true

@[simp] theorem begins_cons {first : Char → Bool} {c : Char} {cs : Text} :
    Begins first (c :: cs) ↔ first c = true := by simp [Begins]

/-- Whether a text begins with a digit, or with a minus sign and a digit. -/
def BeginsNumber (r : Text) : Prop :=
  ∃ sign cs, r = sign ++ cs ∧ (sign = [] ∨ sign = ['-']) ∧ Begins Char.isDigit cs

theorem beginsNumber_cons {c : Char} {cs : Text} :
    BeginsNumber (c :: cs) ↔ c = '-' ∧ startsWithDigit cs = true ∨ c.isDigit = true := by
  have hstart (cs : Text) : Begins Char.isDigit cs ↔ startsWithDigit cs = true := by
    cases cs <;> simp [Begins, startsWithDigit]
  constructor
  · rintro ⟨sign, ds, hr, rfl | rfl, hdigit⟩
    · rw [List.nil_append] at hr
      subst hr
      exact .inr (begins_cons.mp hdigit)
    · obtain ⟨rfl, rfl⟩ := List.cons.inj hr
      exact .inl ⟨rfl, (hstart _).mp hdigit⟩
  · rintro (⟨rfl, hdigit⟩ | hdigit)
    · exact ⟨['-'], cs, rfl, .inr rfl, (hstart cs).mpr hdigit⟩
    · exact ⟨[], c :: cs, rfl, .inl rfl, begins_cons.mpr hdigit⟩

theorem not_isBlank_of_isNameChar {c : Char} (h : isNameChar c = true) : isBlank c ≠ true := by
  intro hblank
  have hc : c = ' ' ∨ c = '\t' ∨ c = '\n' ∨ c = '\r' := by
    simpa only [isBlank, isLineBreak, Bool.or_eq_true, beq_iff_eq, or_assoc] using hblank
  rcases hc with rfl | rfl | rfl | rfl <;> exact absurd h (by decide)

theorem not_isDigit_of_isNameStart {c : Char} (h : isNameStart c = true) : c.isDigit ≠ true := by
  intro hdigit
  rw [Char.isDigit, Bool.and_eq_true, decide_eq_true_eq, decide_eq_true_eq] at hdigit
  obtain ⟨-, hle⟩ := hdigit
  have hcases : (('A'.val ≤ c.val ∧ c.val ≤ 'Z'.val) ∨ ('a'.val ≤ c.val ∧ c.val ≤ 'z'.val)) ∨
      c = '_' := by
    have hor : (decide ('A'.val ≤ c.val ∧ c.val ≤ 'Z'.val) ||
        (decide ('a'.val ≤ c.val) && decide (c.val ≤ 'z'.val)) || c == '_') = true := h
    simpa only [Bool.or_eq_true, Bool.and_eq_true, decide_eq_true_eq, beq_iff_eq] using hor
  rcases hcases with (⟨hge, -⟩ | ⟨hge, -⟩) | rfl
  · exact absurd (UInt32.le_trans hge hle) (by decide)
  · exact absurd (UInt32.le_trans hge hle) (by decide)
  · exact absurd hle (by decide)

theorem scan_eq_number {c : Char} {cs : Text}
    (h : c = '-' ∧ startsWithDigit cs = true ∨ c.isDigit = true) :
    scan c cs = (.number, number cs) := by
  rcases h with ⟨rfl, hstart⟩ | hdigit
  · rw [scan, if_pos hstart]
  unfold scan
  split
  case h_10 =>
    have hname : isNameChar c = true := by simp [isNameChar, Char.isAlphanum, hdigit]
    rw [if_neg (not_isBlank_of_isNameChar hname), if_pos hdigit]
  all_goals exact absurd hdigit (by decide)

theorem scan_of_isNameStart {c : Char} (h : isNameStart c = true) (cs : Text) :
    scan c cs = (wordKind (c :: cs.takeWhile isNameChar), cs.takeWhile isNameChar) := by
  unfold scan
  split
  case h_10 =>
    have hname : isNameChar c = true := by
      rw [isNameStart, Bool.or_eq_true] at h
      rcases h with h | h <;> simp [isNameChar, Char.isAlphanum, h]
    rw [if_neg (not_isBlank_of_isNameChar hname), if_neg (not_isDigit_of_isNameStart h), if_pos h]
  all_goals exact absurd h (by decide)

theorem wordKind_eq_iff {reservedWord : Text × TokenKind} (h : reservedWord ∈ reserved)
    (word : Text) : wordKind word = reservedWord.2 ↔ word = reservedWord.1 := by
  have hdistinct : ∀ a ∈ reserved, wordKind a.1 = a.2 ∧ a.2 ≠ .identifier ∧
      ∀ b ∈ reserved, b.2 = a.2 → b.1 = a.1 := by decide
  obtain ⟨hself, hne, hsame⟩ := hdistinct _ h
  constructor
  · intro hkind
    rcases wordKind_cases word with hword | hword
    · exact absurd (hkind.symm.trans hword) hne
    · exact hsame _ hword hkind
  · rintro rfl
    exact hself

/-- Whether tokens of some kinds are found exactly where a text begins in some way, and are then the
longest beginning that is written like one. -/
structure TakesLongest (r : Text) (kinds : TokenKind → Bool) (begins written : Text → Prop) :
    Prop where
  found_iff : (∃ kind text, kinds kind = true ∧ IsNext r kind text) ↔ begins r
  longest {kind : TokenKind} {text : Text} : kinds kind = true → IsNext r kind text →
    IsLongest written r text

theorem takesLongest_nil {kinds : TokenKind → Bool} {begins written : Text → Prop}
    (hkinds : kinds .eof = false) (hbegins : ¬ begins []) : TakesLongest [] kinds begins written where
  found_iff := by
    refine iff_of_false ?_ hbegins
    rintro ⟨kind, text, hkind, hnext⟩
    rw [kind_eq_eof_of_isNext_nil hnext, hkinds] at hkind
    exact Bool.false_ne_true hkind
  longest hkind hnext := by
    rw [kind_eq_eof_of_isNext_nil hnext, hkinds] at hkind
    exact absurd hkind Bool.false_ne_true

theorem takesLongest_cons {kinds : TokenKind → Bool} {begins written : Text → Prop} {c : Char}
    {cs : Text} (hfound : kinds (scan c cs).1 = true ↔ begins (c :: cs))
    (hlongest : begins (c :: cs) → IsLongest written (c :: cs) (c :: (scan c cs).2)) :
    TakesLongest (c :: cs) kinds begins written where
  found_iff := by
    rw [← hfound]
    constructor
    · rintro ⟨kind, text, hkind, hnext⟩
      rwa [(isNext_cons_iff.mp hnext).1]
    · exact fun hkind => ⟨_, _, hkind, isNext_cons_iff.mpr ⟨rfl, rfl⟩⟩
  longest hkind hnext := by
    obtain ⟨rfl, rfl⟩ := isNext_cons_iff.mp hnext
    exact hlongest (hfound.mp hkind)

theorem takesLongest_number (r : Text) :
    TakesLongest r (· == .number) BeginsNumber IsNumber := by
  cases r with
  | nil =>
    refine takesLongest_nil rfl ?_
    rintro ⟨sign, cs, hr, -, d, hd, -⟩
    rw [(List.append_eq_nil_iff.mp hr.symm).2] at hd
    simp at hd
  | cons c cs =>
    refine takesLongest_cons ?_ fun hbegins => ?_
    · rw [beq_iff_eq, beginsNumber_cons]
      exact ⟨fun hkind => (scan_of_number hkind).1, fun h => by rw [scan_eq_number h]⟩
    · rw [beginsNumber_cons] at hbegins
      rw [scan_eq_number hbegins]
      exact isLongest_number hbegins

theorem takesLongest_run {kinds : TokenKind → Bool} {first more : Char → Bool}
    (hkinds : kinds .eof = false)
    (hfound : ∀ c cs, kinds (scan c cs).1 = true ↔ first c = true)
    (htaken : ∀ c cs, first c = true → (scan c cs).2 = cs.takeWhile more) (r : Text) :
    TakesLongest r kinds (Begins first) (IsRun first more) := by
  cases r with
  | nil => exact takesLongest_nil hkinds (by simp [Begins])
  | cons c cs =>
    refine takesLongest_cons ((hfound c cs).trans begins_cons.symm) fun hbegins => ?_
    rw [begins_cons] at hbegins
    rw [htaken c cs hbegins]
    exact isLongest_run hbegins

theorem takesLongest_name (r : Text) :
    TakesLongest r TokenKind.isName (Begins isNameStart) IsName := by
  refine takesLongest_run rfl (fun c cs => ⟨fun hkind => (scan_of_isName hkind).1, fun h => ?_⟩)
    (fun c cs h => by rw [scan_of_isNameStart h]) r
  rw [scan_of_isNameStart h, isName_wordKind]

theorem takesLongest_blanks (r : Text) :
    TakesLongest r (· == .whitespace) (Begins isBlank) IsBlanks := by
  refine takesLongest_run rfl (fun c cs => ⟨fun hkind => ?_, fun h => by rw [scan_of_isBlank h]; rfl⟩)
    (fun c cs h => by rw [scan_of_isBlank h]) r
  rw [beq_iff_eq] at hkind
  rcases scan_of_isTrivia (by rw [hkind]; rfl) with ⟨hblank, -⟩ | ⟨-, hscan⟩
  · exact hblank
  · rw [hscan] at hkind
    cases hkind

theorem takesLongest_comment (r : Text) :
    TakesLongest r (· == .comment) (Begins (· == '#')) IsComment := by
  have hscan {c : Char} (cs : Text) (h : (c == '#') = true) :
      scan c cs = (.comment, cs.takeWhile (!isLineBreak ·)) := by
    obtain rfl := eq_of_beq h
    rfl
  refine takesLongest_run rfl (fun c cs => ⟨fun hkind => ?_, fun h => by rw [hscan cs h]; rfl⟩)
    (fun c cs h => by rw [hscan cs h]) r
  rw [beq_iff_eq] at hkind
  rcases scan_of_isTrivia (by rw [hkind]; rfl) with ⟨-, hblanks⟩ | ⟨hc, -⟩
  · rw [hblanks] at hkind
    cases hkind
  · exact beq_iff_eq.mpr hc

/-- Numbers, names, blanks and comments are found by the first characters of a text alone, and each
is the longest beginning of the text that is written like one. A name is a reserved word exactly if
it is written as that word. -/
theorem next_is_longest (r : Text) :
    (∃ kind text, IsNext r kind text) ∧
      TakesLongest r (· == .number) BeginsNumber IsNumber ∧
      TakesLongest r TokenKind.isName (Begins isNameStart) IsName ∧
      (∀ kind text, kind.isName = true → IsNext r kind text →
        ∀ word ∈ reserved, kind = word.2 ↔ text = word.1) ∧
      TakesLongest r (· == .whitespace) (Begins isBlank) IsBlanks ∧
      TakesLongest r (· == .comment) (Begins (· == '#')) IsComment := by
  refine ⟨exists_isNext r, takesLongest_number r, takesLongest_name r,
    fun kind text hkind hnext word hword => ?_, takesLongest_blanks r, takesLongest_comment r⟩
  cases r with
  | nil =>
    rw [kind_eq_eof_of_isNext_nil hnext] at hkind
    exact absurd hkind Bool.false_ne_true
  | cons c cs =>
    obtain ⟨rfl, rfl⟩ := isNext_cons_iff.mp hnext
    rw [(scan_of_isName hkind).2]
    exact wordKind_eq_iff hword _

/-- A point and an exponent without digits are left alone. -/
example : scan '-' ['1', '.', 'e', '5'] = (.number, ['1']) ∧
    scan '1' ['.', '0', 'e', '+', 'x'] = (.number, ['.', '0']) := by decide

end Maml.Lexer
