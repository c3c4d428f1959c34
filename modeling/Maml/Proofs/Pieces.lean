import Maml.Proofs.Lossless
import Maml.Proofs.Shape

/-! How lexemes without mistakes are cut into pieces.

1. `ReadAs` says that lexemes are read as given pieces, whatever follows them. It
   holds of a token that is no bracket (`ReadAs.token`), of rows side by side
   (`ReadAs.append`), and of a container with its closer (`ReadAs.container`).
2. An item is one piece (`items_value`), and a member is three (`members_keyValue`),
   as long as no colon follows it. So is an element of either container
   (`IsElement.contentsFrom_append`).
3. A document is one value (`documentDrafts_of_pieceAt`, `documentDrafts_of_readAs`). -/
namespace Maml.Draft

/-- Lexemes that are read as given pieces, whatever follows them. -/
def ReadAs (eof : Token) (e : List Container) (ls : List Lexeme) (ds : List Draft) : Prop :=
  ∀ rest, pieces eof e (ls ++ rest) = (ds ++ (pieces eof e rest).1, (pieces eof e rest).2)

theorem not_isBracket_of_isScalar : ∀ {kind : TokenKind}, kind.isScalar = true →
    kind.isOpener = false ∧ kind.isCloser = false := by
  decide

theorem not_isBracket_of_isKeyStart : ∀ {kind : TokenKind}, kind.isKeyStart = true →
    kind.isOpener = false ∧ kind.isCloser = false := by
  decide

namespace ReadAs
variable {eof : Token} {e : List Container}

theorem nil : ReadAs eof e [] [] := fun _ => rfl

theorem append {ls ms : List Lexeme} {ds es : List Draft} (h₁ : ReadAs eof e ls ds)
    (h₂ : ReadAs eof e ms es) : ReadAs eof e (ls ++ ms) (ds ++ es) := by
  intro rest
  rw [List.append_assoc, h₁, h₂, List.append_assoc]

theorem closesAny_eq_false {kind : TokenKind} (h : kind.isCloser = false) :
    closesAny e kind = false := by
  unfold closesAny
  rw [List.any_eq_false]
  intro c _
  revert h
  cases c <;> cases kind <;> decide

theorem closesAny_closer (c : Container) : closesAny (c :: e) c.closer = true := by
  simp [closesAny]

theorem token {l : Lexeme} (ho : l.kind.isOpener = false) (hc : l.kind.isCloser = false) :
    ReadAs eof e [l] [leaf l] := by
  intro rest
  have hopens : l.kind.opens? = none := opens?_of_not_isOpener ho
  rw [List.singleton_append, pieces_cons, closesAny_eq_false hc, pieceAt_of_opens?_eq_none hopens]
  rfl

theorem container {c : Container} {opener closer : Lexeme} {ls : List Lexeme} {ds : List Draft}
    (ho : opener.kind = c.opener) (hc : closer.kind = c.closer)
    (he : e.length < Container.maxDepth) (h : ReadAs eof (c :: e) ls ds) :
    ReadAs eof e (opener :: ls ++ [closer])
      [Draft.container c opener (contents c closer.token ds) (some closer) closer.token] := by
  intro rest
  have hopen : closesAny e opener.kind = false := by
    apply closesAny_eq_false
    rw [ho]
    cases c <;> rfl
  -- inside the brackets, reading stops at the closer
  have hinner : pieces eof (c :: e) (ls ++ closer :: rest) = (ds, closer :: rest) := by
    rw [h, pieces_cons, hc, closesAny_closer, if_pos rfl, List.append_nil]
  have hpiece : pieceAt eof e opener (ls ++ closer :: rest) =
      (Draft.container c opener (contents c closer.token ds) (some closer) closer.token, rest) := by
    rw [pieceAt_of_opens?_eq_some (Container.opens?_eq_some.mpr ho), if_pos he, hinner, close,
      if_pos (by simp [hc])]
  have hassoc : opener :: ls ++ [closer] ++ rest = opener :: (ls ++ closer :: rest) := by simp
  rw [hassoc, pieces_cons, hopen, hpiece]
  rfl

/-- Without brackets around them, lexemes that are one piece are read to their end. -/
theorem pieceAt_eq {l : Lexeme} {ls : List Lexeme} {d : Draft} (h : ReadAs eof [] (l :: ls) [d]) :
    pieceAt eof [] l ls = (d, []) := by
  have hall := h []
  rw [List.append_nil, pieces_cons, if_neg (by simp [closesAny]), pieces_nil] at hall
  obtain ⟨hd, hrest⟩ := List.cons.inj (congrArg Prod.fst hall)
  apply Prod.ext hd
  -- a token left behind would be a piece of its own
  cases hleft : (pieceAt eof [] l ls).2 with
  | nil => rfl
  | cons m ms =>
    rw [hleft, pieces_cons, if_neg (by simp [closesAny])] at hrest
    simp at hrest

theorem lexemesList_eq {ls : List Lexeme} {ds : List Draft} (h : ReadAs eof e ls ds) :
    lexemesList ds = ls := by
  have hlexemes := lexemes_pieces eof e (ls ++ [])
  rw [h, pieces_nil] at hlexemes
  simpa using hlexemes

end ReadAs

/-! ## Lists without mistakes -/

theorem not_isToken_of_startsValue (kind : TokenKind) {d : Draft} (h : d.startsValue = true)
    (hk : kind.isScalar = false) : d.isToken kind = false := by
  cases d with
  | node => rfl
  | leaf l => exact TokenKind.beq_eq_false (a := l.kind) h hk

theorem valueAt_of_startsValue {d : Draft} (ds : List Draft) (h : d.startsValue = true) :
    valueAt d ds = (d.asValue, ds) := by
  cases d with
  | leaf l => exact @valueAt_of_kind TokenKind.isScalar _ h rfl ds
  | node => rfl

theorem items_value {b : Bool} {d : Draft} {ds : List Draft} (hd : d.startsValue = true) :
    items b (d :: ds) = d.asValue :: items false ds := by
  rw [items_cons (not_isToken_of_startsValue .comma hd rfl), valueAt_of_startsValue ds hd]

theorem valueMissing_of_startsValue {d : Draft} {ds : List Draft} (hd : d.startsValue = true)
    (hds : startsWithColon ds = false) : valueMissing (d :: ds) = false := by
  cases d with
  | node => rfl
  | leaf l =>
    have hcomma : (l.kind == .comma) = false :=
      not_isToken_of_startsValue .comma hd rfl
    simp [valueMissing, hcomma, hds]

theorem memberValue_of_startsValue {stop : Token} {colon d : Draft} {ds : List Draft}
    (hd : d.startsValue = true) (hds : startsWithColon ds = false) :
    memberValue stop colon (d :: ds) = ⟨[d.asValue], none, ds⟩ := by
  rw [memberValue_present (valueMissing_of_startsValue hd hds), valueAt_of_startsValue ds hd]

theorem isKey_of_isKeyStart {kind : TokenKind} (h : kind.isKeyStart = true) :
    isKey kind = true := by
  simp [isKey, h]

theorem members_keyValue {stop : Token} {b : Bool} {key colon : Lexeme} {d : Draft}
    {ds : List Draft} (hk : key.kind.isKeyStart = true) (hc : colon.kind = .colon)
    (hd : d.startsValue = true) (hds : startsWithColon ds = false) :
    members stop b (leaf key :: leaf colon :: d :: ds) =
      keyValue key (leaf colon) ⟨[d.asValue], none, ds⟩ :: members stop false ds := by
  have hcomma : (leaf key).isToken .comma = false := TokenKind.beq_eq_false hk rfl
  rw [members_cons hcomma, memberAt_keyValue (isKey_of_isKeyStart hk) hc,
    memberValue_of_startsValue hd hds]
  rfl

theorem keyNote_of_isKeyStart {key : Lexeme} (hk : key.kind.isKeyStart = true) :
    keyNote key = none := by
  have h : (key.kind == .unterminatedString) = false := TokenKind.beq_eq_false hk rfl
  simp [keyNote, h]

/-! ## Contents without mistakes -/

/-- What is in a container, from the pieces behind its first ones. -/
def contentsFrom (c : Container) (stop : Token) (b : Bool) (ds : List Draft) : List Draft :=
  match c with
  | .object => members stop b ds
  | .array => items b ds

theorem contents_eq (c : Container) (stop : Token) (ds : List Draft) :
    contents c stop ds = contentsFrom c stop true ds := by
  cases c <;> rfl

@[simp] theorem contentsFrom_nil (c : Container) (stop : Token) (b : Bool) :
    contentsFrom c stop b [] = [] := by
  cases c with
  | object => exact members_nil stop b
  | array => exact items_nil b

theorem lexemesList_contentsFrom (c : Container) (stop : Token) (b : Bool) (ds : List Draft) :
    lexemesList (contentsFrom c stop b ds) = lexemesList ds := by
  cases c with
  | object => exact lexemesList_members stop b ds
  | array => exact lexemesList_items b ds

theorem contentsFrom_comma {c : Container} {stop : Token} {l : Lexeme} {ds : List Draft}
    (hl : l.kind = .comma) :
    contentsFrom c stop false (leaf l :: ds) = leaf l :: contentsFrom c stop true ds := by
  cases c with
  | object => exact members_comma hl stop ds
  | array => exact items_comma hl ds

/-- A comma that has nothing in front of it is stray. -/
theorem contentsFrom_stray {c : Container} {stop : Token} {l : Lexeme} (hl : l.kind = .comma)
    (ds : List Draft) : contentsFrom c stop true (leaf l :: ds) =
      strayComma c.expectedElement (leaf l) :: contentsFrom c stop false ds := by
  cases c with
  | object => exact members_stray hl stop ds
  | array => exact items_stray hl ds

/-- Pieces that are one element of a container, and the element. -/
inductive IsElement : Container → List Draft → Draft → Prop where
  | keyValue {key colon d} (hk : key.kind.isKeyStart = true) (hc : colon.kind = .colon)
      (hd : d.startsValue = true) : IsElement .object [leaf key, leaf colon, d]
        (node .keyValue none (plain .key (leaf key) []) [leaf colon, d.asValue] none)
  | item {d} (hd : d.startsValue = true) : IsElement .array [d] d.asValue

theorem IsElement.startsWithColon_append {c : Container} {es : List Draft} {d : Draft}
    (h : IsElement c es d) (ds : List Draft) : startsWithColon (es ++ ds) = false := by
  cases h with
  | @keyValue key _ _ hk => exact TokenKind.beq_eq_false (a := key.kind) hk rfl
  | item hd => exact not_isToken_of_startsValue .colon hd rfl

/-- An element is read as one, unless a colon follows it. -/
theorem IsElement.contentsFrom_append {c : Container} {es ds : List Draft} {d : Draft}
    (h : IsElement c es d) (hds : startsWithColon ds = false) (stop : Token) (b : Bool) :
    contentsFrom c stop b (es ++ ds) = d :: contentsFrom c stop false ds := by
  cases h with
  | @keyValue key colon d hk hc hd =>
    show members stop b (leaf key :: leaf colon :: d :: ds) = _ :: members stop false ds
    rw [members_keyValue hk hc hd hds, Draft.keyValue, keyNote_of_isKeyStart hk]
  | item hd => exact items_value hd

/-! ## Documents without mistakes -/

/-- Lexemes that are one piece, which can stand as a value, are read as a document. -/
theorem documentDrafts_of_pieceAt {eof : Token} {l : Lexeme} {ls : List Lexeme} {d : Draft}
    (h : pieceAt eof [] l ls = (d, [])) (hd : d.startsValue = true) :
    documentDrafts eof (l :: ls) = [d.asValue] := by
  have hbegins : beginsDocument l.kind = true := by
    cases ho : l.kind.opens? with
    | none =>
      rw [pieceAt_of_opens?_eq_none ho] at h
      obtain rfl : leaf l = d := congrArg Prod.fst h
      have hscalar : l.kind.isScalar = true := hd
      simp [beginsDocument, TokenKind.startsValue, hscalar]
    | some c => simp [beginsDocument, TokenKind.startsValue, isOpener_of_opens? ho]
  rw [documentDrafts, if_pos hbegins, h]
  rfl

/-- Lexemes that are one value are read as a document. -/
theorem documentDrafts_of_readAs {eof : Token} {ls : List Lexeme} {d : Draft}
    (h : ReadAs eof [] ls [d]) (hd : d.startsValue = true) :
    documentDrafts eof ls = [d.asValue] := by
  cases ls with
  | nil => simpa using congrArg Prod.fst (h [])
  | cons l ls => exact documentDrafts_of_pieceAt h.pieceAt_eq hd

end Maml.Draft
