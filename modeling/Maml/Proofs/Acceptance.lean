import Maml.Grammar
import Maml.Proofs.Lossless
import Maml.Proofs.Pieces

/-! A document without mistakes is a document of the grammar.

1. Whatever is read without a mistake is derived by the grammar, with no more
   containers in one another than may be opened there (`accepts_of_shaped`).
2. Lexemes that the grammar derives are read without a mistake, whatever follows
   them (`readClean_of_derives`).
3. So the texts without mistakes are those whose significant tokens are a
   document (`isOk_parse_iff`). -/
namespace Maml

theorem Derives.split {n : Nat} {c : Container} {ts : List TokenKind}
    (h : Derives n (.list c) ts) :
    ∃ us vs, ts = us ++ vs ∧ Derives n (.element c) us ∧ Derives n (.tail c) vs := by
  cases h with
  | list h ht => exact ⟨_, _, rfl, h, ht⟩

namespace Draft

def kinds (ds : List Draft) : List TokenKind := (lexemesList ds).map Lexeme.kind

@[simp] theorem kinds_nil : kinds [] = [] := rfl

@[simp] theorem kinds_cons (d : Draft) (ds : List Draft) : kinds (d :: ds) = kinds [d] ++ kinds ds := by
  simp [kinds]

/-! ## What is read without a mistake -/

/-- How many more containers may be opened. -/
def room (e : List Container) : Nat := Container.maxDepth - e.length

/-- What the grammar says of a place that was read without a mistake. -/
def Accepts (e : List Container) : Place → List Draft → Prop
  | .value, ds => errorsList ds = [] → Derives (room e) .value (kinds ds)
  | .list c true, ds => errorsList ds = [] → ds = [] ∨ Derives (room e) (.list c) (kinds ds)
  | .list c false, ds => errorsList ds = [] → Derives (room e) (.tail c) (kinds ds)
  | .behindColon _ note, ds =>
    note = none → errorsList ds = [] → Derives (room e) .value (kinds ds)
  | .skipped, _ => True

theorem accepts_cons {e : List Container} {c : Container} {b : Bool} {d : Draft}
    {ds : List Draft} (hd : d.errors = [] → Derives (room e) (.element c) (kinds [d]))
    (hds : Accepts e (.list c false) ds) : Accepts e (.list c b) (d :: ds) := by
  have hcons : errorsList (d :: ds) = [] →
      Derives (room e) (.element c) (kinds [d]) ∧ Derives (room e) (.tail c) (kinds ds) := by
    intro h
    rw [errorsList_cons, List.append_eq_nil_iff] at h
    exact ⟨hd h.1, hds h.2⟩
  cases b with
  | true =>
    intro h
    obtain ⟨h₁, h₂⟩ := hcons h
    rw [kinds_cons]
    exact .inr (.list h₁ h₂)
  | false =>
    intro h
    obtain ⟨h₁, h₂⟩ := hcons h
    rw [kinds_cons]
    exact .next h₁ h₂

theorem accepts_of_errors_ne_nil {e : List Container} {c : Container} {b : Bool} {d : Draft}
    {ds : List Draft} (hd : d.errors ≠ []) : Accepts e (.list c b) (d :: ds) := by
  have hne : errorsList (d :: ds) ≠ [] := by
    rw [errorsList_cons]
    exact fun h => hd (List.append_eq_nil_iff.mp h).1
  cases b <;> exact fun h => absurd h hne

theorem keyNote_ne_none {key : Lexeme} (hk : isKey key.kind = true)
    (hn : keyNote key = none) : key.kind.isKeyStart = true := by
  unfold keyNote at hn
  split at hn
  · simp [unexpected] at hn
  · rename_i h
    simpa [isKey, h] using hk

theorem errors_incomplete_ne_nil (key : Lexeme) (next : Token) :
    (incomplete key next).errors ≠ [] := by
  unfold incomplete keyNote colonNote
  split <;> simp [unexpected]

theorem errors_invalid_ne_nil {l : Lexeme} (hl : l.kind.startsValue = false) :
    (single l).errors ≠ [] := by
  have hs : l.kind.isScalar = false := (Bool.or_eq_false_iff.mp hl).2
  simp [single, hs, unexpected]

theorem errors_container {c : Container} {opener : Lexeme} {ds : List Draft}
    {closer : Option Lexeme} {next : Token}
    (h : (container c opener ds closer next).errors = []) :
    errorsList ds = [] ∧ ∃ l, closer = some l := by
  cases closer with
  | none => simp [container, missing] at h
  | some l => exact ⟨by simpa [container] using h, l, rfl⟩

theorem room_cons {e : List Container} (c : Container) (he : e.length < Container.maxDepth) :
    room e = room (c :: e) + 1 := by
  unfold room
  rw [List.length_cons]
  omega

/-- Everything that is read without a mistake is derived by the grammar. -/
theorem accepts_of_shaped {e : List Container} {place : Place} {ds : List Draft}
    (h : Shaped e place ds) : Accepts e place ds := by
  induction h with
  | scalar hl =>
    intro _
    simpa [kinds] using Derives.scalar hl
  | invalid hl =>
    intro h
    exact absurd (by simpa using h) (errors_invalid_ne_nil hl)
  | signed =>
    intro h
    simp [signed, unexpected] at h
  | tooDeep =>
    intro h
    simp [tooDeep, unexpected] at h
  | @container e c opener ds closer next ho he hc hds ih =>
    intro h
    obtain ⟨herrors, l, rfl⟩ := errors_container (by simpa using h)
    have hl : l.kind = c.closer := hc l rfl
    have hkinds : kinds [container c opener ds (some l) next] =
        c.opener :: kinds ds ++ [c.closer] := by
      simp [kinds, lexemes_container, ho, hl]
    rw [hkinds, room_cons c he]
    rcases ih herrors with rfl | hlist
    · exact .empty c
    · exact .container hlist
  | @nil e c b =>
    -- nothing behind the opener is no list of the grammar, nothing behind an element is a tail
    cases b with
    | true => exact fun _ => .inl rfl
    | false => exact fun _ => .done c
  | @comma e c l ds hl hds ih =>
    intro h
    have hkinds : kinds (leaf l :: ds) = .comma :: kinds ds := by
      simp [kinds, hl]
    rw [hkinds]
    -- a comma is the last token of the list, or an element follows
    rcases ih (by simpa using h) with rfl | hlist
    · exact .comma c
    · obtain ⟨us, vs, hsplit, helement, htail⟩ := hlist.split
      rw [hsplit]
      exact .commaNext helement htail
  | stray => exact accepts_of_errors_ne_nil (by simp [strayComma, unexpected])
  | item _ _ ih ihs =>
    refine accepts_cons (fun h => .item (ih ?_)) ihs
    simpa using h
  | @keyValue e b key colon note value ds hk hc hv hds ihv ihs =>
    apply accepts_cons ?_ ihs
    intro h
    have hkinds : kinds [node .keyValue (keyNote key) (plain .key (leaf key) [])
        (leaf colon :: value) note] = key.kind :: .colon :: kinds value := by
      simp [kinds, hc]
    simp only [errors_node, List.append_eq_nil_iff, Option.toList_eq_nil_iff, errorsList_cons] at h
    obtain ⟨⟨⟨hkey, -⟩, -, hvalue⟩, hnote⟩ := h
    rw [hkinds]
    exact .keyValue (keyNote_ne_none hk hkey) (ihv hnote hvalue)
  | incomplete => exact accepts_of_errors_ne_nil (errors_incomplete_ne_nil _ _)
  | incompleteSkipped => exact accepts_of_errors_ne_nil (errors_incomplete_ne_nil _ _)
  | literalKey => exact accepts_of_errors_ne_nil (by simp [unexpected])
  | junk => exact accepts_of_errors_ne_nil (by simp [junk, unexpected])
  | missing => exact fun h => by simp [missing] at h
  | present _ ih => exact fun _ h => ih h
  | skippedNil => trivial
  | skippedToken => trivial
  | skippedValue => trivial

/-! ## What the grammar derives -/

/-- Pieces that are one element of a container, without a mistake. -/
def CleanElement (c : Container) (es : List Draft) : Prop := ∃ d, IsElement c es d ∧ d.errors = []

/-- Pieces behind an element that hold no mistake. -/
def CleanTail (c : Container) (ds : List Draft) : Prop :=
  startsWithColon ds = false ∧ ∀ stop, errorsList (contentsFrom c stop false ds) = []

theorem errorsList_cleanElement {c : Container} {es ds : List Draft} (he : CleanElement c es)
    (hds : CleanTail c ds) (b : Bool) :
    startsWithColon (es ++ ds) = false ∧
      ∀ stop, errorsList (contentsFrom c stop b (es ++ ds)) = [] := by
  obtain ⟨hcolon, herrors⟩ := hds
  obtain ⟨d, helement, hd⟩ := he
  refine ⟨helement.startsWithColon_append ds, ?_⟩
  intro stop
  rw [helement.contentsFrom_append hcolon, errorsList_cons, hd, herrors]
  rfl

/-- Lexemes of a phrase are read without a mistake, whatever follows them. -/
def ReadClean (eof : Token) (e : List Container) : Phrase → List Lexeme → Prop
  | .value, ls => ∃ d, ReadAs eof e ls [d] ∧ d.startsValue = true ∧ d.asValue.errors = []
  | .element c, ls => ∃ ds, ReadAs eof e ls ds ∧ CleanElement c ds
  | .list c, ls => ∃ ds, ReadAs eof e ls ds ∧ ∀ stop, errorsList (contentsFrom c stop true ds) = []
  | .tail c, ls => ∃ ds, ReadAs eof e ls ds ∧ CleanTail c ds

theorem cleanTail_comma {c : Container} {l : Lexeme} {ds : List Draft} (hl : l.kind = .comma)
    (h : ∀ stop, errorsList (contentsFrom c stop true ds) = []) : CleanTail c (leaf l :: ds) := by
  refine ⟨by simp [startsWithColon, isToken, hl], ?_⟩
  intro stop
  rw [contentsFrom_comma hl, errorsList_cons, h]
  rfl

theorem readClean_container (eof : Token) {e : List Container} {c : Container}
    {opener closer : Lexeme} {ls : List Lexeme} {ds : List Draft} (ho : opener.kind = c.opener)
    (hc : closer.kind = c.closer) (he : e.length < Container.maxDepth)
    (hread : ReadAs eof (c :: e) ls ds) (h : ∀ stop, errorsList (contentsFrom c stop true ds) = []) :
    ReadClean eof e .value (opener :: ls ++ [closer]) := by
  refine ⟨_, hread.container ho hc he, rfl, ?_⟩
  simp [asValue, container, plain, contents_eq, h]

theorem append_of_map_kind {ls : List Lexeme} {ts us : List TokenKind}
    (h : ls.map Lexeme.kind = ts ++ us) :
    ∃ as bs, ls = as ++ bs ∧ as.map Lexeme.kind = ts ∧ bs.map Lexeme.kind = us :=
  List.map_eq_append_iff.mp h

theorem cons_of_map_kind {ls : List Lexeme} {k : TokenKind} {ts : List TokenKind}
    (h : ls.map Lexeme.kind = k :: ts) :
    ∃ l ms, ls = l :: ms ∧ l.kind = k ∧ ms.map Lexeme.kind = ts :=
  List.map_eq_cons_iff.mp h

theorem readClean_cons {eof : Token} {e : List Container} {c : Container} {as bs : List Lexeme}
    (h₁ : ReadClean eof e (.element c) as) (h₂ : ReadClean eof e (.tail c) bs) (b : Bool) :
    ∃ ds, ReadAs eof e (as ++ bs) ds ∧ startsWithColon ds = false ∧
      ∀ stop, errorsList (contentsFrom c stop b ds) = [] := by
  obtain ⟨es, hes, helement⟩ := h₁
  obtain ⟨ds, hds, htail⟩ := h₂
  exact ⟨es ++ ds, hes.append hds, errorsList_cleanElement helement htail b⟩

/-- What the grammar derives is read without a mistake. -/
theorem readClean_of_derives {eof : Token} {n : Nat} {phrase : Phrase} {ts : List TokenKind}
    (h : Derives n phrase ts) : ∀ (e : List Container) (ls : List Lexeme),
      e.length + n ≤ Container.maxDepth → ls.map Lexeme.kind = ts → ReadClean eof e phrase ls := by
  induction h with
  | @scalar n kind hk =>
    intro e ls _ hls
    obtain ⟨l, rfl, rfl⟩ := List.map_eq_singleton_iff.mp hls
    obtain ⟨ho, hc⟩ := not_isBracket_of_isScalar hk
    exact ⟨leaf l, .token ho hc, hk, by simp [asValue, single, hk]⟩
  | @empty n c =>
    intro e ls hn hls
    obtain ⟨opener, ms, rfl, ho, hms⟩ := cons_of_map_kind hls
    obtain ⟨closer, rfl, hc⟩ := List.map_eq_singleton_iff.mp hms
    exact readClean_container eof ho hc (by omega) .nil (by simp)
  | @container n c ts h ih =>
    intro e ls hn hls
    obtain ⟨as, bs, rfl, has, hbs⟩ := append_of_map_kind hls
    obtain ⟨opener, ms, rfl, ho, hms⟩ := cons_of_map_kind has
    obtain ⟨closer, rfl, hc⟩ := List.map_eq_singleton_iff.mp hbs
    -- inside, one container more is open and one fewer may be opened
    obtain ⟨ds, hread, herrors⟩ := ih (c :: e) ms (by rw [List.length_cons]; omega) hms
    exact readClean_container eof ho hc (by omega) hread herrors
  | @keyValue n key ts hk h ih =>
    intro e ls hn hls
    obtain ⟨l, ms, rfl, rfl, hms⟩ := cons_of_map_kind hls
    obtain ⟨colon, vs, rfl, hc, hvs⟩ := cons_of_map_kind hms
    obtain ⟨d, hread, hd, hvalue⟩ := ih e vs hn hvs
    obtain ⟨hopen, hclose⟩ := not_isBracket_of_isKeyStart hk
    have hkey : ReadAs eof e [l] [leaf l] := .token hopen hclose
    have hcolon : ReadAs eof e [colon] [leaf colon] := .token (by rw [hc]; rfl) (by rw [hc]; rfl)
    refine ⟨_, hkey.append (hcolon.append hread), _, .keyValue hk hc hd, ?_⟩
    simp [hvalue]
  | item h ih =>
    intro e ls hn hls
    obtain ⟨d, hread, hd, hvalue⟩ := ih e ls hn hls
    exact ⟨[d], hread, _, .item hd, hvalue⟩
  | @list n c ts us h ht ih iht =>
    intro e ls hn hls
    obtain ⟨as, bs, rfl, has, hbs⟩ := append_of_map_kind hls
    obtain ⟨ds, hread, -, herrors⟩ := readClean_cons (ih e as hn has) (iht e bs hn hbs) true
    exact ⟨ds, hread, herrors⟩
  | done c =>
    intro e ls _ hls
    obtain rfl := List.map_eq_nil_iff.mp hls
    exact ⟨[], .nil, rfl, by simp⟩
  | comma c =>
    intro e ls _ hls
    obtain ⟨l, rfl, hl⟩ := List.map_eq_singleton_iff.mp hls
    exact ⟨[leaf l], .token (by rw [hl]; rfl) (by rw [hl]; rfl), cleanTail_comma hl (by simp)⟩
  | next h ht ih iht =>
    intro e ls hn hls
    obtain ⟨as, bs, rfl, has, hbs⟩ := append_of_map_kind hls
    exact readClean_cons (ih e as hn has) (iht e bs hn hbs) false
  | @commaNext n c ts us h ht ih iht =>
    intro e ls hn hls
    obtain ⟨l, ms, rfl, hl, hms⟩ := cons_of_map_kind hls
    obtain ⟨as, bs, rfl, has, hbs⟩ := append_of_map_kind hms
    obtain ⟨ds, hread, -, herrors⟩ := readClean_cons (ih e as hn has) (iht e bs hn hbs) true
    have hcomma : ReadAs eof e [l] [leaf l] := .token (by rw [hl]; rfl) (by rw [hl]; rfl)
    exact ⟨_, hcomma.append hread, cleanTail_comma hl herrors⟩

end Draft

/-! ## Documents -/

open Draft

theorem eq_nil_of_errorsList_trailing {ls : List Lexeme}
    (h : errorsList (trailing ls) = []) : ls = [] := by
  cases ls with
  | nil => rfl
  | cons l ls => simp [trailing, trailingError, unexpected] at h

theorem errors_ofLexemes_eq_nil_iff (input : Lexemes) :
    (Parse.ofLexemes input).errors = [] ↔ IsDocument (input.lexemes.map Lexeme.kind) := by
  show errorsList (documentDrafts input.eof input.lexemes) = [] ↔ _
  constructor
  · intro h
    have hlexemes := lexemes_documentDrafts input.eof input.lexemes
    rcases documentDrafts_cases input.eof input.lexemes with ⟨d, rest, hdrafts, hd⟩ | hdrafts
    · rw [hdrafts] at h hlexemes
      rw [errorsList_cons, List.append_eq_nil_iff] at h
      obtain rfl := eq_nil_of_errorsList_trailing h.2
      have hderives := accepts_of_shaped hd (by simpa using h.1)
      right
      rw [← hlexemes]
      exact hderives
    · rw [hdrafts] at h
      rw [eq_nil_of_errorsList_trailing h]
      exact .inl rfl
  · rintro (hnil | hderives)
    · rw [List.map_eq_nil_iff.mp hnil]
      rfl
    · obtain ⟨d, hread, hd, herrors⟩ := readClean_of_derives hderives [] _ (by simp) rfl
      rw [documentDrafts_of_readAs hread hd]
      simp [herrors]

theorem map_kind_lexemes (source : Text) :
    (Lexemes.ofTokens (tokenize source) source.size).lexemes.map Lexeme.kind =
      significantKinds source := by
  rw [Lexemes.ofTokens, takeWhile_tokenize, significantKinds, ← Lexemes.map_token_group, List.map_map]
  rfl

/-- The texts that are read without a mistake are those whose significant tokens are a
document. -/
theorem isOk_parse_iff (source : Text) :
    (parse source).isOk = true ↔ IsDocument (significantKinds source) := by
  rw [Parse.isOk, List.isEmpty_iff, parse, errors_ofLexemes_eq_nil_iff, map_kind_lexemes]

end Maml
