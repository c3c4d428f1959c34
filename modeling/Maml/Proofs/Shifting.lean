import Mathlib.Data.List.Sort
import Mathlib.Order.MinMax
import Maml.Proofs.Changes
import Maml.Proofs.Respacing
import Maml.Proofs.Sorting

/-! Places behind commas that are put in.

1. Offsets stay in their order (`Span.strictMono_startBehind`, `Span.strictMono_stopBehind`), and where nothing is
   put in they move together (`Span.countP_between`). So ranges stay in their order
   (`Span.sortsBefore_carried`), and so do things sorted by them (`sortByRange_map`).
2. The lexemes of a text with commas in front of some are its lexemes, moved, with a comma in front
   of those (`Parse.exists_text_of_cuts`). -/
namespace Maml

open Draft

/-! ## Offsets -/

namespace Span

variable {cuts : List Nat} {a b p : Nat}

theorem strictMono_startBehind : StrictMono (startBehind cuts) := by
  intro a b h
  have hcount : cuts.countP (· ≤ a) ≤ cuts.countP (· ≤ b) :=
    List.countP_mono_left fun c _ hc => by
      rw [decide_eq_true_eq] at hc ⊢
      omega
  rw [startBehind, startBehind]
  omega

theorem strictMono_stopBehind : StrictMono (stopBehind cuts) := by
  intro a b h
  have hcount : cuts.countP (· < a) ≤ cuts.countP (· < b) :=
    List.countP_mono_left fun c _ hc => by
      rw [decide_eq_true_eq] at hc ⊢
      omega
  rw [stopBehind, stopBehind]
  omega

theorem stopBehind_lt_startBehind (h : a < b) : stopBehind cuts a < startBehind cuts b := by
  have hstart : startBehind cuts a < startBehind cuts b := strictMono_startBehind h
  have hcount : cuts.countP (· < a) ≤ cuts.countP (· ≤ a) :=
    List.countP_mono_left fun c _ hc => by
      rw [decide_eq_true_eq] at hc ⊢
      omega
  rw [startBehind] at hstart
  rw [stopBehind]
  omega

theorem startBehind_eq_stopBehind (h : a ∉ cuts) : startBehind cuts a = stopBehind cuts a := by
  rw [startBehind, stopBehind]
  refine congrArg (a + ·) (List.countP_congr fun c hc => ?_)
  have hne : c ≠ a := ne_of_mem_of_not_mem hc h
  rw [decide_eq_true_eq, decide_eq_true_eq]
  omega

/-- What is put in at an offset comes between what stops and what starts there. -/
theorem startBehind_of_mem (hn : cuts.Nodup) (h : a ∈ cuts) :
    startBehind cuts a = stopBehind cuts a + 1 := by
  have hothers := startBehind_eq_stopBehind (hn.not_mem_erase (a := a))
  have hperm := List.perm_cons_erase h
  rw [startBehind, stopBehind, Nat.add_left_cancel_iff] at hothers
  rw [startBehind, stopBehind, hperm.countP_eq, hperm.countP_eq, List.countP_cons_of_pos (by simp),
    List.countP_cons_of_neg (by simp), hothers, Nat.add_assoc]

/-- Between two offsets at which something is put in all places move alike. -/
theorem countP_between (h : ∀ c ∈ cuts, c ≤ a ∨ b ≤ c) :
    (a ≤ p → p < b → cuts.countP (· ≤ p) = cuts.countP (· ≤ a)) ∧
      (a < p → p ≤ b → cuts.countP (· < p) = cuts.countP (· ≤ a)) := by
  constructor <;> intro hap hpb <;> refine List.countP_congr fun c hc => ?_ <;>
    have hc := h c hc <;> rw [decide_eq_true_eq, decide_eq_true_eq] <;> omega

/-- A range behind a byte put in at each of some offsets, if it is not empty. -/
def carried (cuts : List Nat) (s : Span) : Span := ⟨startBehind cuts s.start, stopBehind cuts s.stop⟩

theorem follow_eq_carried {s : Span} (h : s.isEmpty = true → s.start ∉ cuts) :
    s.follow cuts = s.carried cuts := by
  rw [follow]
  split
  · rename_i hempty
    have heq : s.start = s.stop := by simpa [isEmpty] using hempty
    rw [empty, carried, startBehind_eq_stopBehind (h hempty), heq]
  · rfl

theorem sortsBefore_carried (s t : Span) :
    (s.carried cuts).sortsBefore (t.carried cuts) = s.sortsBefore t := by
  rw [Bool.eq_iff_iff, sortsBefore_iff, sortsBefore_iff, carried, carried,
    strictMono_startBehind.lt_iff_lt, strictMono_startBehind.injective.eq_iff,
    strictMono_stopBehind.le_iff_le]

theorem cover_carried (s t : Span) :
    (s.carried cuts).cover (t.carried cuts) = (s.cover t).carried cuts := by
  have hstart : Monotone (startBehind cuts) := strictMono_startBehind.monotone
  have hstop : Monotone (stopBehind cuts) := strictMono_stopBehind.monotone
  simp only [cover, carried, hstart.map_min, hstop.map_max]

end Span

/-! ## Sorting -/

section
variable {α β : Type} {range : α → Span} {range' : β → Span} {f : α → β}

theorem insertByRange_map {a : α} {as : List α} (h : ∀ b ∈ as,
    (range' (f a)).sortsBefore (range' (f b)) = (range a).sortsBefore (range b)) :
    insertByRange range' (f a) (as.map f) = (insertByRange range a as).map f := by
  induction as with
  | nil => rfl
  | cons b bs ih =>
    obtain ⟨hb, hbs⟩ := List.forall_mem_cons.mp h
    rw [List.map_cons, insertByRange, insertByRange, hb, ih hbs]
    split <;> rfl

/-- Things that stay in the order of their ranges are sorted as they were. -/
theorem sortByRange_map {as : List α} (h : ∀ a ∈ as, ∀ b ∈ as,
    (range' (f a)).sortsBefore (range' (f b)) = (range a).sortsBefore (range b)) :
    sortByRange range' (as.map f) = (sortByRange range as).map f := by
  induction as with
  | nil => rfl
  | cons a as ih =>
    rw [List.map_cons, sortByRange_cons, sortByRange_cons, ih fun b hb c hc =>
      h b (List.mem_cons_of_mem _ hb) c (List.mem_cons_of_mem _ hc)]
    refine insertByRange_map fun b hb => ?_
    exact h a List.mem_cons_self b (List.mem_cons_of_mem _ ((mem_sortByRange range).mp hb))

end

/-! ## Lexemes -/

namespace Lexeme
variable (cuts : List Nat)

def carried (l : Lexeme) : Lexeme :=
  ⟨l.trivia.map (Token.shift (cuts.countP (· ≤ l.start))),
    { l.token with span := l.token.span.carried cuts }⟩

def commaAt (offset : Nat) : Lexeme :=
  ⟨[], ⟨.comma, ⟨Span.stopBehind cuts offset, Span.stopBehind cuts offset + 1⟩, [',']⟩⟩

def withComma (l : Lexeme) : List Lexeme :=
  if l.start ∈ cuts then [commaAt cuts l.start, l.carried cuts] else [l.carried cuts]

end Lexeme

theorem place_of_tiled {o : Nat} {ts : List Token} (h : Tiled o ts) :
    Lexer.place o (ts.map Token.word) = ts := by
  induction ts generalizing o with
  | nil => rfl
  | cons t ts ih =>
    obtain ⟨hspan, -, hrest⟩ := h
    have htoken : (⟨t.word.1, ⟨o, o + t.word.2.size⟩, t.word.2⟩ : Token) = t :=
      congrArg (Token.mk t.kind · t.text) hspan.symm
    rw [List.map_cons, Lexer.place, htoken]
    exact congrArg (t :: ·) (ih hrest)

theorem group_tokens {l : Lexeme} (hl : l.Valid) (us : List Token) :
    (Lexemes.group (l.tokens ++ us)).1 = l :: (Lexemes.group us).1 := by
  rw [Lexeme.tokens, List.append_assoc]
  exact congrArg Prod.fst (Lexemes.group_append_cons hl.1 hl.2 us)

theorem le_start_of_placed {o : Nat} {ls : List Lexeme} (h : Placed o ls) :
    ∀ l ∈ ls, o ≤ l.start := by
  intro l hl
  obtain ⟨front, back, rfl⟩ := List.mem_iff_append.mp hl
  have hstart := (start_of_placed (placed_append.mp h).2).1
  omega

section
variable {cuts : List Nat} {o : Nat} {l : Lexeme} {ls : List Lexeme}

theorem tokens_carried (hp : Placed o [l]) (hcuts : ∀ c ∈ cuts, c ≤ o ∨ o + Lexeme.sizeList [l] ≤ c) :
    (l.carried cuts).tokens = l.tokens.map (Token.shift (cuts.countP (· ≤ o))) := by
  obtain ⟨hstart, -⟩ := start_of_placed hp
  obtain ⟨hle, hlt, hstop, -⟩ := placed_cons hp
  have hspan : l.token.span.carried cuts = l.token.span.shift (cuts.countP (· ≤ o)) := by
    have hbegin := (Span.countP_between hcuts (p := l.token.span.start)).1 hle (by omega)
    have hend := (Span.countP_between hcuts (p := l.token.span.stop)).2 (by omega) (by omega)
    rw [Span.carried, Span.startBehind, Span.stopBehind, hbegin, hend]
    rfl
  rw [Lexeme.tokens, Lexeme.tokens, List.map_append, List.map_singleton, Lexeme.carried, hstart,
    hspan]
  rfl

theorem place_carried (hp : Placed o [l]) (hcuts : ∀ c ∈ cuts, c ≤ o ∨ o + Lexeme.sizeList [l] ≤ c)
    (rest : List (TokenKind × Text)) :
    Lexer.place (Span.startBehind cuts o) (spelled [l.spelling] ++ rest) =
      (l.carried cuts).tokens ++
        Lexer.place (Span.stopBehind cuts (o + Lexeme.sizeList [l])) rest := by
  have htiled : Tiled o l.tokens := by simpa using hp.1
  obtain ⟨hle, hlt, hstop, -⟩ := placed_cons hp
  have hend := (Span.countP_between hcuts (p := o + Lexeme.sizeList [l])).2 (by omega) (Nat.le_refl _)
  have hsize : Text.size ((spelled [l.spelling]).flatMap (·.2)) = Lexeme.sizeList [l] :=
    size_spelled [l]
  rw [Lexer.place_append_size, hsize, ← map_word_tokens, tokens_carried hp hcuts, Span.startBehind,
    ← Lexer.map_shift_place, place_of_tiled htiled, Span.stopBehind, hend, Nat.add_right_comm]

def Separator.comma : Separator := ⟨(.comma, [',']), false⟩

theorem Separator.tokens_comma (marked : List Lexeme) (l : Lexeme) : comma.tokens marked l =
    if l ∈ marked then (.comma, [',']) :: spelled [l.spelling] else spelled [l.spelling] := by
  rw [tokens]
  split
  · rw [spelled, List.flatMap_singleton]
    rfl
  · rfl

theorem group_place_withComma {marked : List Lexeme} {trailing : List (TokenKind × Text)}
    (hnodup : cuts.Nodup) (htrailing : ∀ t ∈ trailing, t.1.isTrivia = true) (hp : Placed o ls)
    (hcuts : ∀ c ∈ cuts, c < o ∨ ∃ l ∈ ls, c = l.start)
    (hmarked : ∀ l ∈ ls, l ∈ marked ↔ l.start ∈ cuts) :
    (Lexemes.group (Lexer.place (Span.stopBehind cuts o)
      (ls.flatMap (Separator.comma.tokens marked) ++ trailing))).1 =
        ls.flatMap (Lexeme.withComma cuts) := by
  induction ls generalizing o with
  | nil =>
    rw [List.flatMap_nil, List.nil_append, Lexemes.group_of_isTrivia (isTrivia_of_mem_place htrailing)]
    rfl
  | cons l ls ih =>
    obtain ⟨hl, hmarkedTail⟩ := List.forall_mem_cons.mp hmarked
    obtain ⟨hle, hlt, hstop, hrest⟩ := placed_cons hp
    obtain ⟨hstart, -⟩ := start_of_placed hp
    have hvalid : l.Valid := hp.2 l List.mem_cons_self
    -- what is put in further on is put in behind the lexeme
    have hbetween : ∀ c ∈ cuts, c ≤ o ∨ o + Lexeme.sizeList [l] ≤ c := by
      intro c hc
      rcases hcuts c hc with hlt | ⟨m, hm, rfl⟩
      · exact .inl (Nat.le_of_lt hlt)
      · rcases List.mem_cons.mp hm with rfl | hm
        · exact .inl (Nat.le_of_eq hstart)
        · exact .inr (le_start_of_placed hrest m hm)
    have hbehind : ∀ c ∈ cuts, c < o + Lexeme.sizeList [l] ∨ ∃ m ∈ ls, c = m.start := by
      intro c hc
      rcases hcuts c hc with hlt | ⟨m, hm, rfl⟩
      · exact .inl (by omega)
      · rcases List.mem_cons.mp hm with rfl | hm
        · exact .inl (by omega)
        · exact .inr ⟨m, hm, rfl⟩
    have hlexeme := place_carried (placed_head hp) hbetween
      (ls.flatMap (Separator.comma.tokens marked) ++ trailing)
    have hgroup := ih hrest hbehind hmarkedTail
    have hvalid' : (l.carried cuts).Valid := by
      refine ⟨fun t ht => ?_, hvalid.2⟩
      obtain ⟨u, hu, rfl⟩ := List.mem_map.mp ht
      exact hvalid.1 u hu
    have hmore : (Lexemes.group (Lexer.place (Span.startBehind cuts o) (spelled [l.spelling] ++
        (ls.flatMap (Separator.comma.tokens marked) ++ trailing)))).1 =
          l.carried cuts :: ls.flatMap (Lexeme.withComma cuts) := by
      rw [hlexeme, group_tokens hvalid', hgroup]
    rw [List.flatMap_cons, List.flatMap_cons, Separator.tokens_comma, Lexeme.withComma, hstart]
    by_cases hcut : o ∈ cuts
    · have hcomma := group_tokens (l := Lexeme.commaAt cuts o) ⟨by simp [Lexeme.commaAt], rfl⟩
        (Lexer.place (Span.startBehind cuts o) (spelled [l.spelling] ++
          (ls.flatMap (Separator.comma.tokens marked) ++ trailing)))
      rw [hmore, Span.startBehind_of_mem hnodup hcut] at hcomma
      rw [if_pos (hl.mpr (hstart ▸ hcut)), if_pos hcut, List.cons_append, List.cons_append,
        List.append_assoc, Lexer.place]
      exact hcomma
    · rw [if_neg fun hmem => hcut (hstart ▸ hl.mp hmem), if_neg hcut, List.append_assoc,
        ← Span.startBehind_eq_stopBehind hcut, hmore]
      rfl

end

theorem start_lt_of_placed {o : Nat} {ls : List Lexeme} (h : Placed o ls) :
    (ls.map Lexeme.start).Pairwise (· < ·) := by
  induction ls generalizing o with
  | nil => exact .nil
  | cons l ls ih =>
    obtain ⟨hle, hlt, hstop, hrest⟩ := placed_cons h
    obtain ⟨hstart, -⟩ := start_of_placed h
    rw [List.map_cons]
    refine List.pairwise_cons.mpr ⟨fun p hp => ?_, ih hrest⟩
    obtain ⟨m, hm, rfl⟩ := List.mem_map.mp hp
    have hbegin := le_start_of_placed hrest m hm
    omega

theorem nodup_of_placed {o : Nat} {ls : List Lexeme} (h : Placed o ls) : ls.Nodup :=
  List.Nodup.of_map Lexeme.start ((start_lt_of_placed h).imp Nat.ne_of_lt)

theorem map_start_filter {o : Nat} {ls : List Lexeme} {cuts : List Nat} (hp : Placed o ls)
    (hsorted : cuts.Pairwise (· < ·)) (hcuts : ∀ c ∈ cuts, ∃ l ∈ ls, c = l.start) :
    (ls.filter (decide <| ·.start ∈ cuts)).map Lexeme.start = cuts := by
  have hlt : ((ls.filter (decide <| ·.start ∈ cuts)).map Lexeme.start).Pairwise (· < ·) :=
    (start_lt_of_placed hp).sublist (List.filter_sublist.map _)
  refine hlt.eq_of_mem_iff hsorted fun c => ⟨fun hc => ?_, fun hc => ?_⟩
  · obtain ⟨l, hl, rfl⟩ := List.mem_map.mp hc
    exact of_decide_eq_true (List.mem_filter.mp hl).2
  · obtain ⟨l, hl, rfl⟩ := hcuts c hc
    exact List.mem_map_of_mem (List.mem_filter.mpr ⟨hl, decide_eq_true hc⟩)

namespace Parse

/-- Commas can be put in front of any lexemes of a text but the first, which move then. -/
theorem exists_text_of_cuts {source : Text} {cuts : List Nat}
    (hclosed : ∀ t ∈ tokenize source, t.kind ≠ .unterminatedString)
    (hsorted : cuts.Pairwise (· < ·))
    (hcuts : ∀ c ∈ cuts, 0 < c ∧ ∃ l ∈ lexemes source, c = l.start) :
    ∃ text, applyEdits source (cuts.map (Edit.insert · [','])) = .ok text ∧
      lexemes text = (lexemes source).flatMap (Lexeme.withComma cuts) := by
  have hp := placed_lexemes source
  let marked := (lexemes source).filter (decide <| ·.start ∈ cuts)
  have hmarked : ∀ l ∈ lexemes source, l ∈ marked ↔ l.start ∈ cuts := fun l hl => by
    simp [marked, hl]
  have hmap : marked.map Lexeme.start = cuts := map_start_filter hp hsorted fun c hc => (hcuts c hc).2
  have htail : marked.Sublist (lexemes source).tail := by
    rcases hls : lexemes source with _ | ⟨l, ls⟩
    · simp [marked, hls]
    · have hfirst : l.start ∉ cuts := fun hmem => by
        have hpos := (hcuts _ hmem).1
        have hzero := (start_of_placed (hls ▸ hp)).1
        omega
      simp only [marked, hls]
      rw [List.filter_cons_of_neg (by simpa using hfirst)]
      exact List.filter_sublist
  have hsep : ∀ l ∈ lexemes source, ∀ us, Lexer.Separates Separator.comma.token
      (Separator.comma.kept l ++ l.token.word :: us) := fun l _ us =>
    ⟨Lexer.parted_cons (by decide), by simp [Separator.comma], by simp [Separator.comma],
      Lexer.lex_comma _⟩
  obtain ⟨text, trailing, happly, hlex, htrailing⟩ := Separator.exists_apply hclosed htail hsep
  have hedits : marked.map Separator.comma.edit = cuts.map (Edit.insert · [',']) := by
    rw [← hmap, List.map_map]
    rfl
  have hgroup := group_place_withComma (hsorted.imp Nat.ne_of_lt) htrailing hp
    (fun c hc => .inr (hcuts c hc).2) hmarked
  have hzero : Span.stopBehind cuts 0 = 0 := by simp [Span.stopBehind]
  rw [hzero, ← hlex] at hgroup
  exact ⟨text, hedits ▸ happly, (lexemes_eq_group text).trans hgroup⟩

end Parse

end Maml
