import Maml.Proofs.Pieces
import Maml.Proofs.Placement
import Maml.Proofs.Spacing

/-! How a layout is read.

1. `Drawn` says that drafts are a part of a document: the same words in the same
   structure, with commas and line breaks between siblings.
2. The words of a layout are read as such drafts, whatever follows them
   (`readDrawn_of_laidOut`), and there is no mistake in these
   (`errorsList_of_drawn`). -/
namespace Maml

/-! ## Depths of parts -/

namespace Container

def depthOf : (c : Container) → c.Element → Nat
  | object, (_, d) => d.depth
  | array, d => d.depth

def depthOfList : (c : Container) → List c.Element → Nat
  | object, members => Document.depthOfMembers members
  | array, items => Document.depthOfItems items

theorem depthOfList_cons (c : Container) (e : c.Element) (es : List c.Element) :
    c.depthOfList (e :: es) = max (c.depthOf e) (c.depthOfList es) := by
  cases c <;> rfl

end Container

theorem Document.depth_ofElements (c : Container) (es : List c.Element) :
    (Document.ofElements c es).depth = c.depthOfList es + 1 := by
  cases c <;> rfl

def Part.depth : Part → Nat
  | value d => d.depth
  | element c e => c.depthOf e
  | list c es | tail c es => c.depthOfList es

namespace Draft

/-! ## Drafts of documents -/

def Spells (l : Lexeme) (w : Word) : Prop := l.kind = w.kind ∧ l.token.text = w.text

/-- The drafts that are a part of a document. -/
inductive Drawn : Part → List Draft → Prop where
  | scalar {w l} (hl : Spells l w.1) : Drawn (.value (.scalar w)) [plain .value (leaf l) []]
  | container {c es opener ds closer} (h : Drawn (.list c es) ds) :
      Drawn (.value (.ofElements c es)) [container c opener ds (some closer) closer.token]
  | member {k d key colon v} (hk : Spells key k.1) (h : Drawn (.value d) [v]) :
      Drawn (.element .object (k, d))
        [node .keyValue none (plain .key (leaf key) []) [leaf colon, v] none]
  | item {d v} (h : Drawn (.value d) [v]) : Drawn (.element .array d) [v]
  | nil {c} : Drawn (.list c []) []
  | cons {c e es d ds} (h : Drawn (.element c e) [d]) (ht : Drawn (.tail c es) ds) :
      Drawn (.list c (e :: es)) (d :: ds)
  | done {c} : Drawn (.tail c []) []
  | comma {c es l ds} (hl : l.kind = .comma) (h : Drawn (.list c es) ds) :
      Drawn (.tail c es) (leaf l :: ds)
  | line {c es d ds} (hd : d.firstLexeme.onNewLine = true) (h : Drawn (.list c es) (d :: ds)) :
      Drawn (.tail c es) (d :: ds)

/-- There is no mistake in the drafts of a document. -/
theorem errorsList_of_drawn {p : Part} {ds : List Draft} (h : Drawn p ds) : errorsList ds = [] := by
  induction h with
  | scalar => simp
  | container h ih => simp [Draft.container, ih]
  | member hk h ih =>
    rw [errorsList_cons, errorsList_nil, List.append_nil] at ih
    simp [ih]
  | item h ih => exact ih
  | nil => rfl
  | cons h ht ih iht =>
    rw [errorsList_cons, errorsList_nil, List.append_nil] at ih
    rw [errorsList_cons, ih, iht]
    rfl
  | done => rfl
  | comma hl h ih => exact ih
  | line hd h ih => exact ih

/-! ## Reading a layout -/

/-- Lexemes that are read as a part of a document, whatever follows them. -/
def ReadDrawn (eof : Token) (e : List Container) : Part → List Lexeme → Prop
  | .value d, ls => ∃ v, ReadAs eof e ls [v] ∧ v.startsValue = true ∧ Drawn (.value d) [v.asValue]
  | .element c x, ls => ∃ ds d, ReadAs eof e ls ds ∧ IsElement c ds d ∧ Drawn (.element c x) [d]
  | .list c es, ls => ∃ ds, ReadAs eof e ls ds ∧ startsWithColon ds = false ∧
      ∀ stop b, Drawn (.list c es) (contentsFrom c stop b ds)
  | .tail c es, ls => ∃ ds, ReadAs eof e ls ds ∧ startsWithColon ds = false ∧
      ∀ stop, Drawn (.tail c es) (contentsFrom c stop false ds)

theorem spells_of_outline {l : Lexeme} {s : Spaced} (h : l.outline = s.outline) :
    Spells l s.word ∧ l.onNewLine = s.onNewLine := by
  obtain ⟨hkind, hrest⟩ := Prod.mk.inj h
  obtain ⟨htext, hline⟩ := Prod.mk.inj hrest
  exact ⟨⟨hkind, htext⟩, hline⟩

theorem readAs_of_isPunctuation {eof : Token} {e : List Container} {l : Lexeme} {kind : TokenKind}
    (hl : l.kind = kind) (hk : kind.isOpener = false ∧ kind.isCloser = false) :
    ReadAs eof e [l] [leaf l] := by
  subst hl
  exact .token hk.1 hk.2

theorem drawn_line {c : Container} {es : List c.Element} {l : Lexeme} {ls : List Lexeme}
    {ds : List Draft} (hls : lexemesList ds = l :: ls) (hl : l.onNewLine = true)
    (h : Drawn (.list c es) ds) : Drawn (.tail c es) ds := by
  cases ds with
  | nil => simp at hls
  | cons d ds =>
    obtain ⟨ms, hms⟩ := exists_lexemes_eq_cons d
    rw [lexemesList_cons, hms] at hls
    obtain ⟨rfl, -⟩ := List.cons.inj hls
    exact .line hl h

section
variable {eof : Token} {e : List Container} {c : Container} {l : Lexeme} {ls ms : List Lexeme}

theorem readDrawn_scalar {w : ScalarWord} (hl : Spells l w.1) :
    ReadDrawn eof e (.value (.scalar w)) [l] := by
  have hk : l.kind.isScalar = true := by rw [hl.1]; exact w.2
  obtain ⟨ho, hc⟩ := not_isBracket_of_isScalar hk
  have hsingle : (leaf l).asValue = plain .value (leaf l) [] := if_pos hk
  refine ⟨leaf l, .token ho hc, hk, ?_⟩
  rw [hsingle]
  exact .scalar hl

theorem ReadDrawn.container {es : List c.Element} {opener closer : Lexeme}
    (h : ReadDrawn eof (c :: e) (.list c es) ls) (ho : opener.kind = c.opener)
    (hc : closer.kind = c.closer) (he : e.length < Container.maxDepth) :
    ReadDrawn eof e (.value (.ofElements c es)) (opener :: ls ++ [closer]) := by
  obtain ⟨ds, hread, -, hdrawn⟩ := h
  refine ⟨_, hread.container ho hc he, rfl, ?_⟩
  rw [contents_eq]
  exact .container (hdrawn _ _)

theorem ReadDrawn.member {k : KeyWord} {d : Document}
    {key colon : Lexeme} (h : ReadDrawn eof e (.value d) ls) (hk : Spells key k.1)
    (hc : colon.kind = .colon) :
    ReadDrawn eof e (.element .object (k, d)) (key :: colon :: ls) := by
  have hkey : key.kind.isKeyStart = true := by rw [hk.1]; exact k.2
  have hkeyRead : ReadAs eof e [key] [leaf key] :=
    readAs_of_isPunctuation rfl (not_isBracket_of_isKeyStart hkey)
  have hcolonRead : ReadAs eof e [colon] [leaf colon] := readAs_of_isPunctuation hc ⟨rfl, rfl⟩
  obtain ⟨v, hread, hv, hdrawn⟩ := h
  exact ⟨_, _, hkeyRead.append (hcolonRead.append hread), .keyValue hkey hc hv, .member hk hdrawn⟩

theorem ReadDrawn.item {d : Document} (h : ReadDrawn eof e (.value d) ls) :
    ReadDrawn eof e (.element .array d) ls := by
  obtain ⟨v, hread, hv, hdrawn⟩ := h
  exact ⟨_, _, hread, .item hv, .item hdrawn⟩

theorem ReadDrawn.cons {x : c.Element} {es : List c.Element}
    (h : ReadDrawn eof e (.element c x) ls) (ht : ReadDrawn eof e (.tail c es) ms) :
    ReadDrawn eof e (.list c (x :: es)) (ls ++ ms) := by
  obtain ⟨xs, d, hread, helement, hdrawn⟩ := h
  obtain ⟨ds, hread', hcolon, hdrawn'⟩ := ht
  refine ⟨xs ++ ds, hread.append hread', helement.startsWithColon_append ds, ?_⟩
  intro stop b
  rw [helement.contentsFrom_append hcolon]
  exact .cons hdrawn (hdrawn' stop)

theorem ReadDrawn.comma {es : List c.Element} (h : ReadDrawn eof e (.list c es) ls)
    (hl : l.kind = .comma) : ReadDrawn eof e (.tail c es) (l :: ls) := by
  obtain ⟨ds, hread, -, hdrawn⟩ := h
  have hcomma : ReadAs eof e [l] [leaf l] := readAs_of_isPunctuation hl ⟨rfl, rfl⟩
  refine ⟨leaf l :: ds, hcomma.append hread, by simp [startsWithColon, isToken, hl], ?_⟩
  intro stop
  rw [contentsFrom_comma hl]
  exact .comma hl (hdrawn stop true)

/-- The same words are a list and a tail; only the line break in front of them tells. -/
theorem ReadDrawn.line {es : List c.Element} (h : ReadDrawn eof e (.list c es) (l :: ls))
    (hl : l.onNewLine = true) : ReadDrawn eof e (.tail c es) (l :: ls) := by
  obtain ⟨ds, hread, hcolon, hdrawn⟩ := h
  refine ⟨ds, hread, hcolon, ?_⟩
  intro stop
  have hlexemes : lexemesList (contentsFrom c stop false ds) = l :: ls := by
    rw [lexemesList_contentsFrom, hread.lexemesList_eq]
  exact drawn_line hlexemes hl (hdrawn stop false)

theorem readDrawn_of_laidOut {p : Part} {ss : List Spaced} (h : LaidOut p ss)
    (hdepth : e.length + p.depth ≤ Container.maxDepth)
    (hls : ls.map Lexeme.outline = ss.map Spaced.outline) : ReadDrawn eof e p ls := by
  induction h generalizing e ls with
  | scalar hw =>
    obtain ⟨l, rfl, hl⟩ := List.map_eq_singleton_iff.mp hls
    obtain ⟨hspells, -⟩ := spells_of_outline hl
    rw [hw] at hspells
    exact readDrawn_scalar hspells
  | @container c es opener ss closer ho hc h ih =>
    rw [Part.depth, Document.depth_ofElements] at hdepth
    rw [List.map_append, List.map_cons] at hls
    obtain ⟨as, bs, rfl, has, hbs⟩ := List.map_eq_append_iff.mp hls
    obtain ⟨l, ms, rfl, hl, hms⟩ := List.map_eq_cons_iff.mp has
    obtain ⟨m, rfl, hm⟩ := List.map_eq_singleton_iff.mp hbs
    obtain ⟨⟨hlkind, -⟩, -⟩ := spells_of_outline hl
    obtain ⟨⟨hmkind, -⟩, -⟩ := spells_of_outline hm
    -- what is inside is read with one container more around it
    have hroom : (c :: e).length + (Part.list c es).depth ≤ Container.maxDepth := by
      rw [List.length_cons, Part.depth]
      omega
    exact (ih hroom hms).container (hlkind.trans ho) (hmkind.trans hc) (by omega)
  | @member k d key colon ss hk hc h ih =>
    obtain ⟨l, ms, rfl, hl, hms⟩ := List.map_eq_cons_iff.mp hls
    obtain ⟨m, vs, rfl, hm, hvs⟩ := List.map_eq_cons_iff.mp hms
    obtain ⟨hspells, -⟩ := spells_of_outline hl
    obtain ⟨⟨hcolon, -⟩, -⟩ := spells_of_outline hm
    rw [hk] at hspells
    exact (ih hdepth hvs).member hspells (hcolon.trans hc)
  | item h ih => exact (ih hdepth hls).item
  | nil =>
    obtain rfl := List.map_eq_nil_iff.mp hls
    refine ⟨[], .nil, rfl, fun stop b => ?_⟩
    rw [contentsFrom_nil]
    exact .nil
  | @cons c x es ss ts h ht ih iht =>
    rw [Part.depth, Container.depthOfList_cons] at hdepth
    rw [List.map_append] at hls
    obtain ⟨as, bs, rfl, has, hbs⟩ := List.map_eq_append_iff.mp hls
    have hroom : e.length + (Part.element c x).depth ≤ Container.maxDepth := by
      rw [Part.depth]
      omega
    have hroom' : e.length + (Part.tail c es).depth ≤ Container.maxDepth := by
      rw [Part.depth]
      omega
    exact (ih hroom has).cons (iht hroom' hbs)
  | done =>
    obtain rfl := List.map_eq_nil_iff.mp hls
    refine ⟨[], .nil, rfl, fun stop => ?_⟩
    rw [contentsFrom_nil]
    exact .done
  | comma hc h ih =>
    obtain ⟨l, ms, rfl, hl, hms⟩ := List.map_eq_cons_iff.mp hls
    obtain ⟨⟨hkind, -⟩, -⟩ := spells_of_outline hl
    exact (ih hdepth hms).comma (hkind.trans hc)
  | line hs h ih =>
    obtain ⟨l, ms, rfl, hl, -⟩ := List.map_eq_cons_iff.mp hls
    obtain ⟨-, hline⟩ := spells_of_outline hl
    exact (ih hdepth hls).line (hline.trans hs)

end

end Draft

end Maml
