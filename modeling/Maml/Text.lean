/-! Text and byte offsets.

A text is a list of characters. Offsets into a text count the bytes of its
UTF-8 form, so an offset that falls inside a character or past the end names no
position; `Text.splitAt?` answers `none` there. `Text.slice?` cuts the part
between two offsets. The lemmas say that a split loses nothing, that its first
part has exactly the size asked for, and that the offsets which split a text
are the sizes of its beginnings. -/
namespace Maml

/-- A text, as the list of its characters. -/
abbrev Text := List Char

namespace Text

/-- The number of bytes of a text in UTF-8. -/
def size : Text → Nat
  | [] => 0
  | c :: cs => c.utf8Size + size cs

@[simp] theorem size_nil : size [] = 0 := rfl

@[simp] theorem size_cons (c : Char) (cs : Text) : size (c :: cs) = c.utf8Size + size cs := rfl

@[simp] theorem size_append (a b : Text) : size (a ++ b) = size a + size b := by
  induction a with
  | nil => simp
  | cons c cs ih => simp [ih, Nat.add_assoc]

/-- Only the empty text has no bytes. -/
theorem size_eq_zero {t : Text} : size t = 0 ↔ t = [] := by
  cases t with
  | nil => simp
  | cons c cs =>
    have := c.utf8Size_pos
    simp only [size_cons, reduceCtorEq, iff_false]
    omega

/-- The two parts of a text at a byte offset, if a character starts or the text ends there. -/
def splitAt? : Text → Nat → Option (Text × Text)
  | cs, 0 => some ([], cs)
  | [], _ + 1 => none
  | c :: cs, n + 1 =>
    if c.utf8Size ≤ n + 1 then
      (splitAt? cs (n + 1 - c.utf8Size)).map fun (before, after) => (c :: before, after)
    else
      none

@[simp] theorem splitAt?_zero (t : Text) : t.splitAt? 0 = some ([], t) := by
  cases t <;> rfl

/-- A text splits at the size of each of its beginnings. -/
theorem splitAt?_size (a b : Text) : splitAt? (a ++ b) (size a) = some (a, b) := by
  induction a with
  | nil => simp
  | cons c cs ih =>
    have pos := c.utf8Size_pos
    obtain ⟨n, hn⟩ : ∃ n, size (c :: cs) = n + 1 := ⟨size (c :: cs) - 1, by simp; omega⟩
    have hc : c.utf8Size ≤ n + 1 := by rw [← hn]; simp
    have hd : n + 1 - c.utf8Size = size cs := by rw [← hn]; simp
    rw [hn, List.cons_append, splitAt?, if_pos hc, hd, ih]
    rfl

/-- A split loses nothing, and its first part has the size asked for. -/
theorem eq_append_of_splitAt? {t : Text} {n : Nat} {a b : Text}
    (h : t.splitAt? n = some (a, b)) : t = a ++ b ∧ size a = n := by
  induction t generalizing n a b with
  | nil =>
    cases n with
    | zero => simp at h; obtain ⟨rfl, rfl⟩ := h; simp
    | succ n => simp [splitAt?] at h
  | cons c cs ih =>
    cases n with
    | zero => simp at h; obtain ⟨rfl, rfl⟩ := h; simp
    | succ n =>
      rw [splitAt?] at h
      split at h
      · rename_i hc
        cases hs : splitAt? cs (n + 1 - c.utf8Size) with
        | none => simp [hs] at h
        | some p =>
          obtain ⟨a', b'⟩ := p
          simp only [hs, Option.map_some, Option.some.injEq, Prod.mk.injEq] at h
          obtain ⟨rfl, rfl⟩ := h
          obtain ⟨hcs, hsize⟩ := ih hs
          refine ⟨by rw [hcs]; rfl, ?_⟩
          simp only [size_cons, hsize]
          omega
      · simp at h

/-- Whether an offset lies between two characters, or at an end, of a text. -/
def isBoundary (t : Text) (n : Nat) : Bool := (t.splitAt? n).isSome

/-- The size of a beginning is a boundary. -/
theorem isBoundary_size (a b : Text) : isBoundary (a ++ b) (size a) = true := by
  rw [isBoundary, splitAt?_size]
  rfl

/-- At a boundary a text is divided in two. -/
theorem exists_append_of_isBoundary {t : Text} {n : Nat} (h : t.isBoundary n = true) :
    ∃ a b, t = a ++ b ∧ size a = n := by
  obtain ⟨⟨a, b⟩, hsplit⟩ := Option.isSome_iff_exists.mp h
  exact ⟨a, b, eq_append_of_splitAt? hsplit⟩

/-- The part of a text from one byte offset to another. -/
def slice? (t : Text) (start stop : Nat) : Option Text :=
  if start ≤ stop then do
    let (before, _) ← t.splitAt? stop
    let (_, part) ← before.splitAt? start
    return part
  else
    none

/-- The part between two texts is found by their sizes. -/
theorem slice?_size (a b c : Text) :
    slice? (a ++ b ++ c) (size a) (size a + size b) = some b := by
  have h := splitAt?_size (a ++ b) c
  rw [size_append] at h
  rw [slice?, if_pos (Nat.le_add_right ..), h]
  simp [splitAt?_size]

def startsWith (t start : Text) : Bool := start.isPrefixOf t

def endsWith (t stop : Text) : Bool := stop.isSuffixOf t

end Text

end Maml
