import Maml.Proofs.Cuts
import Maml.Proofs.Quoting
import Maml.Proofs.Sorting

/-! Texts that are put together.

1. The tokens of two texts, one behind the other, are those of the two texts, if the last token
   of the first one ends where the second begins (`lex_append_of_endsAt`). What is quoted is a
   token in front of anything (`lex_quote_append`).
2. Edits that follow one another through a text make of it what it says piece by piece
   (`applyEdits_of_spliced`). -/
namespace Maml

open Quoted

namespace Lexer

/-! ## Texts one behind the other -/

/-- Whether a token does not go on into the text behind it, as far as blanks, comments and quotes
are concerned. -/
structure EndsAt (t : TokenKind × Text) (tail : Text) : Prop where
  whitespace : t.1 = .whitespace → ∀ c ∈ tail.head?, isBlank c = false
  comment : t.1 = .comment → ∀ c ∈ tail.head?, isLineBreak c = true
  quotes : t.2 = ['"', '"'] → ∀ c ∈ tail.head?, c ≠ '"'

theorem head?_drop_takeWhile {p : Char → Bool} (cs : Text) :
    ∀ c ∈ (cs.drop (cs.takeWhile p).length).head?, p c = false := by
  have hdrop : cs.drop (cs.takeWhile p).length = cs.dropWhile p := by
    have hleft : (cs.takeWhile p ++ cs.dropWhile p).drop (cs.takeWhile p).length =
        cs.dropWhile p := List.drop_left
    rwa [List.takeWhile_append_dropWhile] at hleft
  rw [hdrop]
  intro c hc
  have hhead := List.head?_dropWhile_not p cs
  rw [Option.mem_def.mp hc] at hhead
  exact hhead

/-- A token of a text ends where the next one begins. -/
theorem endsAt_of_lex_cons {text : Text} {t : TokenKind × Text} {ts : List (TokenKind × Text)}
    (h : lex text = t :: ts) : EndsAt t (ts.flatMap (·.2)) := by
  cases text with
  | nil => simp [lex] at h
  | cons c cs =>
    rw [lex_cons] at h
    obtain ⟨rfl, rfl⟩ := List.cons.inj h
    rw [flatMap_lex]
    refine ⟨fun hk => ?_, fun hk => ?_, fun hquotes => ?_⟩
    · rcases scan_of_isTrivia (by rw [hk]; rfl) with ⟨-, hscan⟩ | ⟨-, hscan⟩
      · rw [hscan]
        exact head?_drop_takeWhile cs
      · rw [hscan] at hk
        exact TokenKind.noConfusion hk
    · rcases scan_of_isTrivia (by rw [hk]; rfl) with ⟨-, hscan⟩ | ⟨-, hscan⟩
      · rw [hscan] at hk
        exact TokenKind.noConfusion hk
      · rw [hscan]
        intro d hd
        have hbreak := head?_drop_takeWhile cs d hd
        rwa [Bool.not_eq_false'] at hbreak
    · -- three quotes in a row would begin a multiline string
      obtain ⟨rfl, htext⟩ := List.cons.inj hquotes
      have htext : (string cs).2 = ['"'] := htext
      obtain ⟨rest, hrest⟩ := string_isPrefix cs
      rw [htext] at hrest
      subst hrest
      rw [show scan '"' (['"'] ++ rest) = string (['"'] ++ rest) from rfl, htext]
      rintro d hd rfl
      obtain ⟨ds, rfl⟩ : ∃ ds, rest = '"' :: ds := by
        cases rest with
        | nil => simp at hd
        | cons e ds => exact ⟨ds, by simpa using hd⟩
      have hlong : string (['"'] ++ '"' :: ds) = _ := string.eq_1 ds
      rw [hlong] at htext
      split at htext <;> simp at htext

theorem endsAt_of_lex_append {text : Text} {front back : List (TokenKind × Text)}
    (h : lex text = front ++ back) : ∀ t ∈ front.getLast?, EndsAt t (back.flatMap (·.2)) := by
  intro t ht
  obtain ⟨ts, rfl⟩ := List.getLast?_eq_some_iff.mp ht
  rw [List.append_assoc] at h
  exact endsAt_of_lex_cons (lex_cut h).2

theorem exists_cons_of_mem_lex {text : Text} {t : TokenKind × Text} (h : t ∈ lex text)
    (ht : t.1.isTrivia = false) : ∃ c cs, t.2 = c :: cs ∧ isBlank c = false := by
  obtain ⟨c, cs, htext⟩ := List.exists_cons_of_ne_nil (text_ne_nil_of_mem_lex h)
  refine ⟨c, cs, htext, Bool.eq_false_iff.mpr fun hblank => ?_⟩
  obtain ⟨us, vs, hlex⟩ := List.mem_iff_append.mp h
  have hself := (lex_cut hlex).2
  rw [List.flatMap_cons, htext, List.cons_append, lex_cons, scan_of_isBlank hblank] at hself
  have hkind := congrArg Prod.fst (List.cons.inj hself).1
  exact absurd (ht.symm.trans (congrArg TokenKind.isTrivia hkind.symm)) Bool.false_ne_true

theorem EndsAt.of_head? {t : TokenKind × Text} {tail tail' : Text} (h : EndsAt t tail)
    (hhead : tail'.head? = tail.head?) : EndsAt t tail' := by
  refine ⟨?_, ?_, ?_⟩
  all_goals rw [hhead]
  · exact h.whitespace
  · exact h.comment
  · exact h.quotes

/-- A word, or a mark between words, ends at a text that does not begin with a quote. -/
theorem endsAt_of_ne_quote {t : TokenKind × Text} {tail : Text} (ht : t.1.isTrivia = false)
    (h : ∀ c ∈ tail.head?, c ≠ '"') : EndsAt t tail := by
  refine ⟨fun hk => ?_, fun hk => ?_, fun _ => h⟩
  all_goals rw [hk] at ht; exact absurd ht (by decide)

theorem takeWhile_append_of_eq {p : Char → Bool} {cs tail : Text}
    (h : cs.takeWhile p = cs → ∀ c ∈ tail.head?, p c = false) :
    (cs ++ tail).takeWhile p = cs.takeWhile p := by
  by_cases hall : cs.takeWhile p = cs
  · exact takeWhile_append cs (h hall)
  · rw [List.takeWhile_append, if_neg]
    exact fun hlength => hall ((List.takeWhile_prefix p).eq_of_length hlength)

theorem scan_append_of_endsAt {c : Char} {cs tail : Text} (ht : Parted tail)
    (hs : (scan c cs).1 ≠ .unterminatedString)
    (hend : (scan c cs).2 = cs → EndsAt ((scan c cs).1, c :: (scan c cs).2) tail) :
    scan c (cs ++ tail) = scan c cs := by
  cases htrivia : (scan c cs).1.isTrivia with
  | false =>
    refine scan_append_of_parted ht htrivia hs fun htext => ?_
    obtain ⟨rfl, rfl⟩ := List.cons.inj htext
    exact (hend rfl).quotes rfl
  | true =>
    rcases scan_of_isTrivia htrivia with ⟨hc, hscan⟩ | ⟨rfl, hscan⟩
    · rw [hscan] at hend ⊢
      rw [scan_of_isBlank hc, takeWhile_append_of_eq fun h => (hend h).whitespace rfl]
    · rw [hscan] at hend ⊢
      rw [scan, takeWhile_append_of_eq fun h c hc => ?_]
      rw [(hend h).comment rfl c hc]
      rfl

/-- The tokens of two texts, one behind the other, are those of the first and then those of the
second, if nothing goes on from the first into the second. -/
theorem lex_append_of_endsAt {cs tail : Text} (ht : Parted tail)
    (hs : ∀ t ∈ lex cs, t.1 ≠ .unterminatedString)
    (hlast : ∀ t ∈ (lex cs).getLast?, EndsAt t tail) : lex (cs ++ tail) = lex cs ++ lex tail := by
  -- the induction follows the tokens, not the characters
  generalize hts : lex cs = ts at hs hlast
  induction ts generalizing cs with
  | nil =>
    have hcs : cs = [] := by rw [← flatMap_lex cs, hts, List.flatMap_nil]
    rw [hcs, List.nil_append, List.nil_append]
  | cons t ts ih =>
    cases cs with
    | nil => simp [lex] at hts
    | cons c cs =>
      rw [lex_cons] at hts
      obtain ⟨rfl, hrest⟩ := List.cons.inj hts
      obtain ⟨rest, hsplit⟩ := scan_isPrefix c cs
      have hdrop : cs.drop (scan c cs).2.length = rest := by
        have hleft : ((scan c cs).2 ++ rest).drop (scan c cs).2.length = rest := List.drop_left
        rwa [hsplit] at hleft
      rw [hdrop] at hrest
      have hscan : scan c (cs ++ tail) = scan c cs := by
        have hopen := hs _ (List.mem_cons_self (l := ts))
        refine scan_append_of_endsAt ht hopen fun hwhole => ?_
        -- nothing is left behind the token, so it is the last one
        have hnil : rest = [] := by simpa [hwhole] using hsplit
        rw [hnil, lex] at hrest
        exact hlast _ (by rw [← hrest]; rfl)
      have hbehind : lex (rest ++ tail) = ts ++ lex tail := by
        refine ih hrest (fun u hu => hs u (List.mem_cons_of_mem _ hu)) fun u hu => hlast u ?_
        cases ts with
        | nil => exact absurd hu (by simp)
        | cons v vs => rwa [List.getLast?_cons_cons]
      have hlong : scan c ((scan c cs).2 ++ (rest ++ tail)) = ((scan c cs).1, (scan c cs).2) := by
        rw [← List.append_assoc, hsplit, hscan]
      have hlex := lex_of_scan hlong
      rw [← List.append_assoc, hsplit, hbehind] at hlex
      exact hlex

theorem bounds_of_mem_place {o : Nat} {ts : List (TokenKind × Text)} {t : Token}
    (h : t ∈ place o ts) : o ≤ t.span.start ∧ t.span.stop = t.span.start + t.text.size ∧
      t.span.stop ≤ o + Text.size (ts.flatMap (·.2)) := by
  obtain ⟨front, back, rfl, hspan⟩ := exists_append_of_mem_place h
  rw [hspan, List.flatMap_append, List.flatMap_cons, Text.size_append, Text.size_append]
  refine ⟨Nat.le_add_right _ _, rfl, ?_⟩
  simp only
  omega

theorem map_place_of_change {f : Token → Token} {o k : Nat} {front back : List (TokenKind × Text)}
    {t u : TokenKind × Text}
    (hfront : ∀ v ∈ place o front, f v = v)
    (ht : f ⟨t.1, ⟨o + Text.size (front.flatMap (·.2)),
      o + Text.size (front.flatMap (·.2)) + t.2.size⟩, t.2⟩ =
        ⟨u.1, ⟨o + Text.size (front.flatMap (·.2)),
          o + Text.size (front.flatMap (·.2)) + u.2.size⟩, u.2⟩)
    (hk : u.2.size = t.2.size + k)
    (hback : ∀ v ∈ place (o + Text.size (front.flatMap (·.2)) + t.2.size) back,
      f v = v.shift k) :
    (place o (front ++ t :: back)).map f = place o (front ++ u :: back) := by
  rw [place_append_size, place_append_size, List.map_append, place, place, List.map_cons, ht,
    List.map_congr_left hfront, List.map_id', List.map_congr_left hback, map_shift_place, hk,
    Nat.add_assoc _ t.2.size]

theorem lex_comma (tail : Text) : lex (',' :: tail) = (.comma, [',']) :: lex tail := by
  have hscan : scan ',' ([] ++ tail) = (.comma, []) := rfl
  exact lex_of_scan hscan

/-- A quoted text is a token in front of anything, unless it is empty. -/
theorem lex_quote_append {s : Text} (hs : s ≠ []) (tail : Text) :
    lex (quote s ++ tail) = (.string, quote s) :: lex tail := by
  have hne : escape s ++ ['"'] ≠ ['"'] := by
    intro h
    obtain ⟨c, cs, rfl⟩ := List.exists_cons_of_ne_nil hs
    obtain ⟨d, ds, htext, -⟩ := (writes_partOf c).begins
    rw [escape_cons, htext] at h
    simp at h
  have hstring : string (escape s ++ ['"'] ++ tail) = (.string, escape s ++ ['"']) := by
    have hself := string_escape s
    rw [← hself]
    exact string_append (by rw [hself]; exact nofun) fun h => absurd h hne
  exact lex_of_scan hstring

end Lexer

/-! ## Edits -/

/-- What edits that follow one another make of a text that begins at an offset. -/
inductive Spliced : Nat → Text → List Edit → Text → Prop where
  | nothing (o : Nat) : Spliced o [] [] []
  | keep {o : Nat} (a : Text) {text text' : Text} {edits : List Edit}
      (h : Spliced (o + a.size) text edits text') : Spliced o (a ++ text) edits (a ++ text')
  | change {o : Nat} (a b : Text) {text text' : Text} {edits : List Edit}
      (h : Spliced (o + a.size) text edits text') :
      Spliced o (a ++ text) (⟨⟨o, o + a.size⟩, b⟩ :: edits) (b ++ text')

namespace Spliced

variable {o : Nat} {text text' : Text} {edits : List Edit}

theorem le_start (h : Spliced o text edits text') : ∀ e ∈ edits, o ≤ e.range.start := by
  induction h with
  | nothing => simp
  | keep a _ ih => exact fun e he => Nat.le_trans (Nat.le_add_right _ _) (ih e he)
  | change a b _ ih =>
    intro e he
    rcases List.mem_cons.mp he with rfl | he
    · exact Nat.le_refl _
    · exact Nat.le_trans (Nat.le_add_right _ _) (ih e he)

theorem ordered (h : Spliced o text edits text') : ∀ e ∈ edits, e.range.Ordered := by
  induction h with
  | nothing => simp
  | keep _ _ ih => exact ih
  | change a b _ ih => exact List.forall_mem_cons.mpr ⟨Nat.le_add_right _ _, ih⟩

theorem pairwise (h : Spliced o text edits text') :
    edits.Pairwise fun d e => d.range.stop ≤ e.range.start := by
  induction h with
  | nothing => exact .nil
  | keep _ _ ih => exact ih
  | change a b h ih => exact .cons h.le_start ih

theorem sorted (h : Spliced o text edits text') : SortedByRange Edit.range edits := by
  refine h.pairwise.imp_of_mem fun {d e} hd he hle => ?_
  have hd : d.range.start ≤ d.range.stop := h.ordered d hd
  have he : e.range.start ≤ e.range.stop := h.ordered e he
  rw [Span.sortsBefore_iff]
  omega

/-- The edits are made one after the other; `kept` is what stands between the last one made and
the text that is left. -/
theorem spliceFrom_eq (h : Spliced o text edits text') (front kept : Text)
    (ho : o = front.size + kept.size) :
    spliceFrom (front ++ kept ++ text) front.size edits = .ok (kept ++ text') := by
  induction h generalizing front kept with
  | nothing =>
    rw [spliceFrom, textFrom, List.append_assoc, Text.splitAt?_size]
  | keep a _ ih =>
    have hrest := ih front (kept ++ a) (by rw [ho, Text.size_append, Nat.add_assoc])
    simpa only [List.append_assoc] using hrest
  | @change o a b text text' edits _ ih =>
    have hkept : Span.slice ⟨front.size, o⟩ (front ++ kept ++ (a ++ text)) = .ok kept := by
      rw [ho, Span.slice, Text.slice?_size]
    have hrest := ih (front ++ kept ++ a) [] (by simp only [Text.size_append, ho]; rfl)
    simp only [List.append_assoc, List.nil_append, Text.size_append] at hrest hkept ⊢
    rw [spliceFrom, if_neg (by simp only; omega), hkept]
    simp only [ho, Nat.add_assoc] at hrest ⊢
    rw [hrest, ← List.append_assoc]
    rfl

end Spliced

/-- Edits that follow one another through a text make of it what it says piece by piece. -/
theorem applyEdits_of_spliced {text text' : Text} {edits : List Edit}
    (h : Spliced 0 text edits text') : applyEdits text edits = .ok text' := by
  rw [applyEdits, sortByRange_of_pairwise h.sorted]
  exact h.spliceFrom_eq [] [] rfl

theorem applyEdits_replace (front old new back : Text) :
    applyEdits (front ++ (old ++ back)) [⟨⟨front.size, front.size + old.size⟩, new⟩] =
      .ok (front ++ (new ++ back)) := by
  have hrest := Spliced.keep back (Spliced.nothing (0 + front.size + old.size + back.size))
  rw [List.append_nil] at hrest
  have hspliced := Spliced.keep front (Spliced.change old new hrest)
  rw [Nat.zero_add] at hspliced
  exact applyEdits_of_spliced hspliced

theorem applyEdits_insert (front inserted back : Text) :
    applyEdits (front ++ back) [.insert front.size inserted] = .ok (front ++ (inserted ++ back)) :=
  applyEdits_replace front [] inserted back

end Maml
