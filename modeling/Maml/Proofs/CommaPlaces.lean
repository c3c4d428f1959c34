import Maml.Proofs.LineFixes
import Maml.Proofs.Shifting
import Maml.Proofs.Totality

/-! Documents with commas put in.

1. Where a comma is missing one element stands directly behind another, and there begins no other
   part of a node (`Parse.exists_adjoins_of_mem_gaps`, `Parse.IsMissingAt.everyNode_dividesParts`).
2. So a document with commas put in at some of these places is the old one, moved, with commas
   between these elements (`CommasPut.recast`).
3. Its tokens are the old ones with commas between them (`CommasPut.significant_text`), and its
   mistakes are the old ones, moved (`CommasPut.errors_eq`). -/
namespace Maml

open Draft

/-! ## Elements without a comma between them -/

namespace Draft

/-- Siblings without a comma stand directly one behind the other. -/
theorem adjacent_of_mem_siblings {kind : NodeKind} {ds : List Draft} :
    ∀ {first : Option Draft} {comma : Option Lexeme} {lineBreak : Bool},
      (∀ l, leaf l ∈ ds → l.kind = .comma) → (∀ e ∈ first, e.isNodeOf kind = true) →
      ∀ p ∈ siblings kind first comma lineBreak ds, p.comma = none →
        p.first.isNodeOf kind = true ∧
          ([p.first, p.next] <:+: ds ∨ comma = none ∧ p.first ∈ first ∧ p.next ∈ ds.head?) := by
  induction ds with
  | nil => exact fun _ _ p hp => absurd hp List.not_mem_nil
  | cons d ds ih =>
    intro first comma lineBreak hleaf hfirst p hp hnone
    have hleafTail := fun l hl => hleaf l (List.mem_cons_of_mem _ hl)
    cases d with
    | leaf l =>
      rw [siblings, if_pos (hleaf l List.mem_cons_self)] at hp
      obtain ⟨hkind, hinfix | ⟨hcomma, -⟩⟩ := ih hleafTail hfirst p hp hnone
      · exact ⟨hkind, .inl (List.infix_cons hinfix)⟩
      · exact absurd hcomma (by simp)
    | node k before parts rest after =>
      rw [siblings] at hp
      split at hp
      · rename_i hk
        have hself : (node k before parts rest after).isNodeOf kind = true := by
          rw [isNodeOf, hk, beq_self_eq_true]
        generalize node k before parts rest after = d at *
        rcases List.mem_append.mp hp with hp | hp
        · split at hp
          · exact absurd hp List.not_mem_nil
          · obtain ⟨e, he, rfl⟩ := List.mem_map.mp hp
            have he : e ∈ first := Option.mem_toList.mp he
            exact ⟨hfirst e he, .inr ⟨hnone, he, rfl⟩⟩
        · have hsome : ∀ e ∈ some d, e.isNodeOf kind = true := by simpa using hself
          obtain ⟨hkind, hinfix | ⟨-, hd, hnext⟩⟩ := ih hleafTail hsome p hp hnone
          · exact ⟨hkind, .inl (List.infix_cons hinfix)⟩
          · obtain rfl : d = p.first := Option.some.inj hd
            obtain ⟨es, rfl⟩ : ∃ es, ds = p.next :: es := List.head?_eq_some_iff.mp hnext
            exact ⟨hkind, .inl ⟨[], es, rfl⟩⟩
      · obtain ⟨hkind, hinfix | ⟨-, hd, -⟩⟩ := ih hleafTail (by simp) p hp hnone
        · exact ⟨hkind, .inl (List.infix_cons hinfix)⟩
        · exact absurd hd (by simp)

/-- In a list without duplicates what stands in front of something is told by it. -/
theorem eq_of_infix_pair {α : Type} {d d' e : α} {ds : List α} (hn : ds.Nodup)
    (h : [d, e] <:+: ds) (h' : [d', e] <:+: ds) : d = d' := by
  obtain ⟨front, back, rfl⟩ := h
  obtain ⟨front', back', heq⟩ := h'
  have hsplit : (front ++ [d]) ++ e :: back = (front' ++ [d']) ++ e :: back' := by
    simpa using heq.symm
  rw [show front ++ [d, e] ++ back = (front ++ [d]) ++ e :: back by simp] at hn
  obtain ⟨-, hback, happart⟩ := List.nodup_append.mp hn
  have hfront : e ∉ front ++ [d] := fun hmem => happart _ hmem _ List.mem_cons_self rfl
  obtain ⟨hfronts, -, -⟩ :=
    (List.append_cons_inj_of_notMem hfront (List.nodup_cons.mp hback).1).mp hsplit
  exact (List.append_inj' hfronts rfl).2 |> List.singleton_inj.mp

theorem mem_of_infix_cons {α : Type} {d e first : α} {rest : List α}
    (h : [d, e] <:+: first :: rest) : e ∈ rest := by
  rcases List.infix_cons_iff.mp h with hprefix | hinfix
  · obtain ⟨back, hback⟩ := hprefix
    rw [← (List.cons.inj hback).2]
    simp
  · exact List.IsInfix.subset hinfix (by simp)

theorem placed_infix_pair {o : Nat} {d e : Draft} {ds : List Draft} (hp : Placed o (lexemesList ds))
    (h : [d, e] <:+: ds) : ∃ o', Placed o' d.lexemes ∧
      Placed (o' + Lexeme.sizeList d.lexemes) e.lexemes := by
  obtain ⟨front, back, rfl⟩ := h
  have hrow : lexemesList (front ++ [d, e] ++ back) =
      lexemesList front ++ (d.lexemes ++ (e.lexemes ++ lexemesList back)) := by
    simp [lexemesList_append]
  rw [hrow, placed_append, placed_append, placed_append] at hp
  exact ⟨_, hp.2.1, hp.2.2.1⟩

theorem start_of_infix_pair {o : Nat} {d e : Draft} {ds : List Draft}
    (hp : Placed o (lexemesList ds)) (h : [d, e] <:+: ds) :
    e.firstLexeme.start = d.lastToken.span.stop := by
  obtain ⟨o', hd, he⟩ := placed_infix_pair hp h
  obtain ⟨ls, hls⟩ := exists_lexemes_eq_cons e
  rw [hls] at he
  rw [(start_of_placed he).1, stop_lastToken hd]

end Draft

namespace Parse

theorem eq_of_lexemeStart_eq {source : Text} {l m : Lexeme} (hl : l ∈ lexemes source)
    (hm : m ∈ lexemes source) (h : l.start = m.start) : l = m :=
  List.inj_on_of_nodup_map ((start_lt_of_placed (placed_lexemes source)).imp Nat.ne_of_lt) hl hm h

/-- Whether a part of a node of a document stands directly behind another; `row` are the parts of
the node. -/
structure Adjoins (source : Text) (x : Standing) (k : NodeKind) (row : List Draft) (d e : Draft) :
    Prop where
  mem : x ∈ standings source
  draft_eq : ∃ before first rest after, x.draft = node k before first rest after ∧ row = first :: rest
  pair : [d, e] <:+: row

namespace Adjoins
variable {source : Text} {x y : Standing} {k k' : NodeKind} {row row' : List Draft}
  {d d' e e' : Draft}

theorem placed (h : Adjoins source x k row d e) : Placed x.offset (lexemesList row) := by
  obtain ⟨before, first, rest, after, hdraft, rfl⟩ := h.draft_eq
  have hp : Placed x.offset x.draft.lexemes := isPlaced_of_mem_standings h.mem
  rwa [hdraft] at hp

theorem start_eq (h : Adjoins source x k row d e) :
    e.firstLexeme.start = d.lastToken.span.stop :=
  start_of_infix_pair h.placed h.pair

theorem mem_lexemes (h : Adjoins source x k row d e) : e.firstLexeme ∈ lexemes source := by
  obtain ⟨before, first, rest, after, hdraft, rfl⟩ := h.draft_eq
  obtain ⟨-, -, -, -, hall⟩ := exists_text_of_mem_standings h.mem
  rw [hdraft] at hall
  exact hall _ (firstLexeme_mem_lexemesList (h.pair.subset (by simp)))

theorem mem_laterHeads (h : Adjoins source x k row d e) : e.firstLexeme ∈ x.draft.laterHeads := by
  obtain ⟨before, first, rest, after, hdraft, rfl⟩ := h.draft_eq
  rw [hdraft]
  exact List.mem_map_of_mem (mem_of_infix_cons h.pair)

theorem unique (h : Adjoins source x k row d e) (h' : Adjoins source y k' row' d' e')
    (hstart : e.firstLexeme.start = e'.firstLexeme.start) : k = k' ∧ d = d' ∧ e = e' := by
  have hsame : e.firstLexeme = e'.firstLexeme :=
    eq_of_lexemeStart_eq h.mem_lexemes h'.mem_lexemes hstart
  obtain rfl : x = y := shares_laterHeads.eq_of_mem
    (lexemesList_drafts source ▸ nodup_lexemes source) h.mem h'.mem h.mem_laterHeads
    (hsame ▸ h'.mem_laterHeads)
  have hrow : row.Nodup :=
    ((nodup_of_placed h.placed).sublist (sublist_heads_lexemesList row)).of_map _
  have hlater := nodup_laterHeads h.mem
  obtain ⟨before, first, rest, after, hdraft, rfl⟩ := h.draft_eq
  obtain ⟨before', first', rest', after', hdraft', rfl⟩ := h'.draft_eq
  obtain ⟨rfl, -, rfl, rfl, -⟩ := Draft.node.inj (hdraft.symm.trans hdraft')
  rw [hdraft] at hlater
  obtain rfl : e = e' :=
    List.inj_on_of_nodup_map hlater (mem_of_infix_cons h.pair) (mem_of_infix_cons h'.pair) hsame
  exact ⟨rfl, eq_of_infix_pair hrow h.pair h'.pair, rfl⟩

end Adjoins

/-- Where a comma is missing stand two elements of a list, one directly behind the other. -/
theorem exists_adjoins_of_mem_gaps {source : Text} {gap : Span} (h : gap ∈ gaps source) :
    ∃ x k row d e, Adjoins source x k row d e ∧ isElementOf k d = true ∧ isElementOf k e = true ∧
      gap = ⟨d.lastToken.span.stop, e.firstToken.span.start⟩ := by
  obtain ⟨x, hx, hgap⟩ := List.mem_flatMap.mp h
  obtain ⟨kind, before, first, rest, after, hdraft⟩ := exists_node_of_mem_standings hx
  obtain ⟨c, rfl⟩ : ∃ c : Container, kind = c.listKind := by
    by_contra hnone
    rw [hdraft, ownGaps_of_not_list fun c hc => hnone ⟨c, hc⟩] at hgap
    exact List.not_mem_nil hgap
  obtain ⟨e, hshape⟩ := exists_shaped_of_formed (hdraft ▸ formed_of_mem_standings hx)
  rw [hdraft, ownGaps_list] at hgap
  obtain ⟨p, hp, rfl⟩ := List.mem_map.mp hgap
  obtain ⟨hp, hnone⟩ := List.mem_filter.mp hp
  obtain ⟨hfirst, hinfix | ⟨-, hfalse, -⟩⟩ := adjacent_of_mem_siblings (kind_of_leaf_mem hshape)
    (by simp) p hp (Option.isNone_iff_eq_none.mp hnone)
  · have helement {d : Draft} (hd : d.isNodeOf c.elementKind = true) :
        isElementOf c.listKind d = true := by cases c <;> exact hd
    exact ⟨x, c.listKind, first :: rest, p.first, p.next,
      ⟨hx, ⟨before, first, rest, after, hdraft, rfl⟩, hinfix⟩, helement hfirst,
      helement (next_of_mem_siblings p hp).2, rfl⟩
  · exact absurd hfalse (by simp)

/-- Whether commas are put in only where they are missing. -/
def IsMissingAt (source : Text) (cuts : List Nat) : Prop :=
  ∀ c ∈ cuts, ∃ gap ∈ gaps source, c = gap.start

end Parse

namespace Draft

/-- Whether commas are put in only between elements, in a row that is part of a node of a kind. -/
def Divides (cuts : List Nat) (k : NodeKind) (ds : List Draft) : Prop :=
  ∀ d e, [d, e] <:+: ds → e.firstLexeme.start ∈ cuts →
    isElementOf k d = true ∧ isElementOf k e = true

def DividesParts (cuts : List Nat) : Draft → Prop
  | leaf _ => True
  | node kind _ first rest _ => Divides cuts kind (first :: rest)

end Draft

namespace Parse.IsMissingAt

variable {source : Text} {cuts : List Nat}

theorem exists_adjoins (h : IsMissingAt source cuts) {c : Nat} (hc : c ∈ cuts) :
    ∃ x k row d e, Adjoins source x k row d e ∧ isElementOf k d = true ∧ isElementOf k e = true ∧
      e.firstLexeme.start = c := by
  obtain ⟨gap, hgap, rfl⟩ := h c hc
  obtain ⟨x, k, row, d, e, hadjoins, hd, he, rfl⟩ := exists_adjoins_of_mem_gaps hgap
  exact ⟨x, k, row, d, e, hadjoins, hd, he, hadjoins.start_eq⟩

theorem exists_lexeme (h : IsMissingAt source cuts) {c : Nat} (hc : c ∈ cuts) :
    0 < c ∧ ∃ l ∈ lexemes source, c = l.start := by
  obtain ⟨x, k, row, d, e, hadjoins, -, -, rfl⟩ := h.exists_adjoins hc
  refine ⟨?_, e.firstLexeme, hadjoins.mem_lexemes, rfl⟩
  obtain ⟨o', hd, -⟩ := placed_infix_pair hadjoins.placed hadjoins.pair
  obtain ⟨ls, hls⟩ := exists_lexemes_eq_cons d
  have hstop := stop_lastToken hd
  have hbounds := bounds_of_placed hd d.firstLexeme (by rw [hls]; exact List.mem_cons_self)
  have hstart := hadjoins.start_eq
  omega

/-- Commas are put in only between elements that stand directly one behind the other. -/
theorem everyNode_dividesParts (h : IsMissingAt source cuts) :
    EveryNode (DividesParts cuts) (drafts source) := by
  refine (everyNode_iff 0 []).mpr fun x hx => ?_
  have hx : x ∈ standings source := hx
  obtain ⟨kind, before, first, rest, after, hdraft⟩ := exists_node_of_mem_standings hx
  rw [hdraft]
  intro d e hnext hcut
  obtain ⟨y, k, row, d', e', hadjoins, hd, he, hstart⟩ := h.exists_adjoins hcut
  obtain ⟨rfl, rfl, rfl⟩ := (⟨hx, ⟨_, _, _, _, hdraft, rfl⟩, hnext⟩ :
    Adjoins source x kind (first :: rest) d e).unique hadjoins hstart.symm
  exact ⟨hd, he⟩

theorem divides_drafts (h : IsMissingAt source cuts) : Divides cuts .file (drafts source) := by
  intro d e hnext hcut
  obtain ⟨y, k, row, d', e', hadjoins, -, -, hstart⟩ := h.exists_adjoins hcut
  -- a lexeme that begins a part of a node does not begin one of the document
  have hall := (shares_laterHeads.permRow 0 [] (drafts source)).nodup_iff.mpr
    (lexemesList_drafts source ▸ nodup_lexemes source)
  have hmem : e.firstLexeme ∈ lexemes source := by
    rw [← lexemesList_drafts]
    exact firstLexeme_mem_lexemesList (hnext.subset (by simp))
  have hsame : e.firstLexeme = e'.firstLexeme :=
    eq_of_lexemeStart_eq hmem hadjoins.mem_lexemes hstart.symm
  refine ((List.nodup_append.mp hall).2.2 e.firstLexeme ?_ e.firstLexeme ?_ rfl).elim
  · exact List.mem_flatMap.mpr ⟨e, hnext.subset (by simp), List.mem_singleton.mpr rfl⟩
  · exact List.mem_flatMap.mpr ⟨y, hadjoins.mem, hsame ▸ hadjoins.mem_laterHeads⟩

end Parse.IsMissingAt

/-! ## The document with commas -/

namespace Draft

/-- The change of a document in which commas are put in at some offsets. -/
def Recasting.commas (cuts : List Nat) : Recasting where
  map := Lexeme.carried cuts
  quotes _ := false
  cut d := if d.lastToken.span.stop ∈ cuts then some (Lexeme.commaAt cuts d.lastToken.span.stop)
    else none
  alike e e' := e'.expected = e.expected ∧ (e'.range = e.range.carried cuts ∨
    e.range.isEmpty = true ∧ e'.range = .empty (Span.stopBehind cuts e.range.stop))
  kind_map _ := rfl
  kind_quotes h := absurd h Bool.false_ne_true
  kind_cut h := by
    split at h
    · obtain rfl := Option.some.inj h
      rfl
    · exact absurd h (by simp)
  alike_stretch _ _ _ _ := ⟨rfl, .inl rfl⟩
  alike_cover _ _ _ := ⟨rfl, .inl (Span.cover_carried _ _)⟩
  alike_colon _ _ _ _ := ⟨rfl, .inl rfl⟩
  alike_gap _ _ _ _ := ⟨rfl, .inr ⟨beq_self_eq_true _, rfl⟩⟩

variable {cuts : List Nat}

theorem Recasting.isNone_cut_commas (d : Draft) : ((Recasting.commas cuts).cut d).isNone =
    decide (d.lastToken.span.stop ∉ cuts) := by
  by_cases h : d.lastToken.span.stop ∈ cuts <;> simp [Recasting.commas, h]

theorem Recasting.onNewLine_of_mem_cut {d : Draft} {c : Lexeme}
    (h : c ∈ (Recasting.commas cuts).cut d) : c.onNewLine = false := by
  have h : c ∈ (if d.lastToken.span.stop ∈ cuts then
    some (Lexeme.commaAt cuts d.lastToken.span.stop) else none) := h
  split at h
  · obtain rfl := Option.some.inj h
    rfl
  · exact absurd h (by simp)

def withCommas (cuts : List Nat) : List Lexeme → List Lexeme
  | [] => []
  | l :: ls => l.carried cuts :: ls.flatMap (Lexeme.withComma cuts)

theorem withCommas_append {ls : List Lexeme} (h : ls ≠ []) (ms : List Lexeme) :
    withCommas cuts (ls ++ ms) = withCommas cuts ls ++ ms.flatMap (Lexeme.withComma cuts) := by
  obtain ⟨l, ls, rfl⟩ := List.exists_cons_of_ne_nil h
  rw [List.cons_append, withCommas, List.flatMap_append]
  rfl

/-- What comes between a draft and the row behind it is the comma in front of the row. -/
theorem separator_append_withCommas {o : Nat} {k : NodeKind} {d : Draft} {ds : List Draft}
    (hp : Placed o (lexemesList (d :: ds))) (h : Divides cuts k (d :: ds)) :
    (Recasting.commas cuts).separator k d ds ++ withCommas cuts (lexemesList ds) =
      (lexemesList ds).flatMap (Lexeme.withComma cuts) := by
  cases ds with
  | nil => rfl
  | cons e ds =>
    have hpair : [d, e] <:+: d :: e :: ds := ⟨[], ds, rfl⟩
    have hstart := start_of_infix_pair hp hpair
    obtain ⟨ls, hls⟩ := exists_lexemes_eq_cons e
    rw [lexemesList_cons, hls, List.cons_append, withCommas, List.flatMap_cons, Lexeme.withComma,
      Recasting.separator]
    simp only [Recasting.commas, ← hstart]
    by_cases hcut : e.firstLexeme.start ∈ cuts
    · obtain ⟨hd, he⟩ := h d e hpair hcut
      simp [hcut, hd, he]
    · simp [hcut]

/-- The lexemes of a row with commas are those of the row, with commas in front of some. -/
theorem lexemesList_of_recast_commas {k : NodeKind} {ds ds' : List Draft}
    (h : Recast (Recasting.commas cuts) k ds ds') : ∀ {o : Nat}, Placed o (lexemesList ds) →
      EveryNode (DividesParts cuts) ds → Divides cuts k ds →
      lexemesList ds' = withCommas cuts (lexemesList ds) := by
  induction h with
  | nil => exact fun _ _ _ => rfl
  | leaf => exact fun _ _ _ => rfl
  | node _ _ _ ih =>
    intro o hp hnodes _
    obtain ⟨hself, hparts⟩ := everyNode_node_iff.mp hnodes
    rw [lexemesList_singleton, lexemes_node] at hp ⊢
    rw [lexemesList_singleton, lexemes_node]
    exact ih hp hparts hself
  | quotedValue hl => exact absurd hl Bool.false_ne_true
  | quotedKey hkey => exact absurd hkey Bool.false_ne_true
  | @cons k d d' ds ds' _ _ ihd ihds =>
    intro o hp hnodes hdivides
    obtain ⟨hd, hds⟩ := everyNode_cons_iff.mp hnodes
    have hrow := separator_append_withCommas hp hdivides
    rw [lexemesList_cons] at hp
    obtain ⟨hpd, hpds⟩ := placed_append.mp hp
    have hhead := ihd (by rwa [lexemesList_singleton]) hd fun a b hpair => by
      have hlength := hpair.length_le
      simp at hlength
    have htail := ihds hpds hds fun a b hpair => hdivides a b (List.infix_cons hpair)
    rw [lexemesList_singleton, lexemesList_singleton] at hhead
    obtain ⟨ls, hls⟩ := exists_lexemes_eq_cons d
    rw [lexemesList_cons, lexemesList_append, lexemesList_map_leaf, htail, hrow, lexemesList_cons,
      withCommas_append (by rw [hls]; exact List.cons_ne_nil _ _), hhead]

end Draft

/-- Whether a text is another one with commas put in at some offsets where they are missing. -/
structure CommasPut (source text : Text) (cuts : List Nat) : Prop where
  missing : Parse.IsMissingAt source cuts
  sorted : cuts.Pairwise (· < ·)
  lexemes_eq : Parse.lexemes text = (Parse.lexemes source).flatMap (Lexeme.withComma cuts)

/-- Commas in front of lexemes are commas behind the lexemes in front of them. -/
theorem flatMap_withComma {cuts : List Nat} {o : Nat} {ls : List Lexeme} (hp : Placed o ls) :
    ls.flatMap (Lexeme.withComma cuts) ++
        (if o + Lexeme.sizeList ls ∈ cuts then [Lexeme.commaAt cuts (o + Lexeme.sizeList ls)]
          else []) =
      (if o ∈ cuts then [Lexeme.commaAt cuts o] else []) ++ ls.flatMap fun l =>
        l.carried cuts :: if l.token.span.stop ∈ cuts then [Lexeme.commaAt cuts l.token.span.stop]
          else [] := by
  induction ls generalizing o with
  | nil => simp [Lexeme.sizeList]
  | cons l ls ih =>
    obtain ⟨hstart, -⟩ := start_of_placed hp
    obtain ⟨-, -, hstop, hrest⟩ := placed_cons hp
    rw [List.flatMap_cons, List.append_assoc, Lexeme.sizeList_cons, ← Nat.add_assoc, ih hrest,
      Lexeme.withComma, hstart, List.flatMap_cons, hstop]
    split <;> simp

namespace CommasPut

variable {source text : Text} {cuts : List Nat}

theorem keepsApart (source : Text) (cuts : List Nat) :
    (Recasting.commas cuts).KeepsApart (Parse.lexemes source) := by
  intro l m hnext hsigned _
  have hle : l.token.span.stop ≤ m.token.span.start := by
    have hpair := (pairwise_start_of_placed (Parse.placed_lexemes source)).sublist hnext.sublist
    exact List.rel_of_pairwise_cons hpair (by simp)
  obtain ⟨hkind, htext, hnumber, hadjacent⟩ := isSignedNumber_eq_true.mp hsigned
  have hadjacent : Span.startBehind cuts m.token.span.start =
      Span.stopBehind cuts l.token.span.stop := hadjacent
  refine isSignedNumber_eq_true.mpr ⟨hkind, htext, hnumber, ?_⟩
  by_contra hne
  have hlt : Span.stopBehind cuts l.token.span.stop < Span.startBehind cuts m.token.span.start :=
    Span.stopBehind_lt_startBehind (Nat.lt_of_le_of_ne hle (Ne.symm hne))
  omega

theorem fits (h : CommasPut source text cuts) : ∀ x ∈ Parse.standings source,
    (Recasting.commas cuts).Fits (Parse.lexemes source) x.draft := by
  intro x hx
  have hparts := (everyNode_iff 0 []).mp h.missing.everyNode_dividesParts x hx
  cases hd : x.draft with
  | leaf => trivial
  | node kind before first rest after =>
    refine ⟨fun _ _ hq => absurd hq Bool.false_ne_true, ?_⟩
    rintro plus number rfl rfl hold
    rw [hd] at hparts
    have hadjoins : Parse.Adjoins source x kind [leaf plus, leaf number] (leaf plus) (leaf number) :=
      ⟨hx, ⟨_, _, _, _, hd, rfl⟩, List.infix_refl _⟩
    obtain ⟨hkind, htext, hnumber, hadjacent⟩ := isSignedNumber_eq_true.mp hold
    refine isSignedNumber_eq_true.mpr ⟨hkind, htext, hnumber, ?_⟩
    have hcut : plus.token.span.stop ∉ cuts := fun hcut => by
      have helement := (hparts _ _ hadjoins.pair (hadjoins.start_eq ▸ hcut)).1
      rw [isElementOf_leaf] at helement
      exact Bool.false_ne_true helement
    show Span.startBehind cuts number.token.span.start = Span.stopBehind cuts plus.token.span.stop
    rw [hadjacent, Span.startBehind_eq_stopBehind hcut]

theorem withCommas_lexemes (h : CommasPut source text cuts) :
    withCommas cuts (Parse.lexemes source) = Parse.lexemes text := by
  rw [h.lexemes_eq]
  have hp := Parse.placed_lexemes source
  cases hls : Parse.lexemes source with
  | nil => rfl
  | cons l ls =>
    have hfirst : l.start ∉ cuts := fun hmem => by
      have hpos := (h.missing.exists_lexeme hmem).1
      have hzero := (start_of_placed (hls ▸ hp)).1
      omega
    rw [List.flatMap_cons, Lexeme.withComma, if_neg hfirst]
    rfl

theorem recast (h : CommasPut source text cuts) :
    Recast (Recasting.commas cuts) .file (Parse.drafts source) (Parse.drafts text) := by
  have hp := Parse.placed_lexemes source
  rw [← Parse.lexemesList_drafts] at hp
  refine Parse.recast_drafts (keepsApart source cuts) h.fits fun ds' hds' => ?_
  rw [lexemesList_of_recast_commas hds' hp h.missing.everyNode_dividesParts h.missing.divides_drafts,
    Parse.lexemesList_drafts, h.withCommas_lexemes]

/-! ## Tokens -/

theorem stop_not_mem (h : CommasPut source text cuts) :
    Lexeme.sizeList (Parse.lexemes source) ∉ cuts := by
  intro hcut
  obtain ⟨-, l, hl, hstart⟩ := h.missing.exists_lexeme hcut
  have hbounds := bounds_of_placed (Parse.placed_lexemes source) l hl
  rw [Lexeme.start] at hstart
  omega

theorem le_start_or_stop_le (h : CommasPut source text cuts) {l : Lexeme}
    (hl : l ∈ Parse.lexemes source) : ∀ c ∈ cuts, c ≤ l.start ∨ l.token.span.stop ≤ c := by
  intro c hc
  obtain ⟨-, m, hm, rfl⟩ := h.missing.exists_lexeme hc
  have hp := Parse.placed_lexemes source
  obtain ⟨front, back, hsplit⟩ := List.mem_iff_append.mp hl
  rw [hsplit] at hp hm
  obtain ⟨hfront, hback⟩ := placed_append.mp hp
  obtain ⟨-, -, hstop, hbehind⟩ := placed_cons hback
  obtain ⟨hstart, -⟩ := start_of_placed hback
  rcases List.mem_append.mp hm with hm | hm
  · have hbounds := bounds_of_placed hfront m hm
    refine .inl ?_
    rw [hstart, Lexeme.start]
    omega
  · rcases List.mem_cons.mp hm with rfl | hm
    · exact .inl (Nat.le_refl _)
    · exact .inr (hstop ▸ le_start_of_placed hbehind m hm)

theorem token_carried {l : Lexeme} (hl : l ∈ Parse.lexemes source) :
    (l.carried cuts).token = l.token.follow cuts := by
  have hbounds := bounds_of_placed (Parse.placed_lexemes source) l hl
  rw [Token.follow, Span.follow_eq_carried fun hempty => ?_]
  · rfl
  · have hstart : l.token.span.start = l.token.span.stop := beq_iff_eq.mp hempty
    omega

theorem significant_text (h : CommasPut source text cuts) :
    significant text = (significant source).flatMap fun t =>
      t.follow cuts :: if t.span.stop ∈ cuts then
        [⟨.comma, ⟨(t.follow cuts).span.stop, (t.follow cuts).span.stop + 1⟩, [',']⟩]
      else [] := by
  have hzero : 0 ∉ cuts := fun hcut => Nat.lt_irrefl 0 (h.missing.exists_lexeme hcut).1
  have hbehind := @flatMap_withComma cuts _ _ (Parse.placed_lexemes source)
  rw [Nat.zero_add, if_neg h.stop_not_mem, if_neg hzero, List.append_nil, List.nil_append,
    ← h.lexemes_eq] at hbehind
  rw [significant_eq, significant_eq, hbehind, List.map_flatMap, List.flatMap_map]
  refine List.flatMap_congr fun l hl => ?_
  rw [List.map_cons, ← token_carried hl]
  split <;> rfl

theorem length_significant (h : CommasPut source text cuts) :
    (significant text).length = (significant source).length + cuts.length := by
  have hcuts := map_start_filter (Parse.placed_lexemes source) h.sorted fun c hc =>
    (h.missing.exists_lexeme hc).2
  have hlength := congrArg List.length hcuts
  rw [List.length_map, ← List.countP_eq_length_filter] at hlength
  rw [significant_eq, significant_eq, List.length_map, List.length_map, h.lexemes_eq, ← hlength]
  generalize Parse.lexemes source = ls
  induction ls with
  | nil => rfl
  | cons l ls ih =>
    rw [List.flatMap_cons, List.length_append, ih, List.countP_cons, List.length_cons,
      Lexeme.withComma]
    by_cases hcut : l.start ∈ cuts <;> simp [hcut] <;> omega

/-! ## Mistakes -/

theorem errors_eq (h : CommasPut source text cuts) :
    (parse text).errors.map (fun e => (e.expected, e.range)) =
      (parse source).errors.map fun e => (e.expected, e.range.follow cuts) := by
  have halike : List.Forall₂ (Recasting.commas cuts).alike (parse source).errors
      (parse text).errors := Recast.forall₂_errorsList (fun _ => rfl) h.recast
  refine map_eq_of_forall₂ halike fun e _ e' he' ⟨hexpected, hrange⟩ => ?_
  have hordered : e'.range.start ≤ e'.range.stop := (Reader.ordered_of_mem_errors_parse he').1
  refine Prod.ext hexpected ?_
  show e'.range = e.range.follow cuts
  rcases hrange with hrange | ⟨hempty, hrange⟩
  · -- the range would be reversed if it was empty and something was put in at it
    rw [hrange]
    refine (Span.follow_eq_carried fun hempty hcut => ?_).symm
    have hstart : e.range.start = e.range.stop := beq_iff_eq.mp hempty
    have hbehind := Span.startBehind_of_mem (h.sorted.imp Nat.ne_of_lt) hcut
    rw [hrange, Span.carried, hbehind, hstart] at hordered
    exact Nat.not_succ_le_self _ hordered
  · rw [hrange, Span.follow, if_pos hempty]

end CommasPut

end Maml
