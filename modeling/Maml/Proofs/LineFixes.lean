import Mathlib.Data.List.TakeWhile
import Maml.Proofs.Findings
import Maml.Proofs.Respacing
import Maml.Proofs.Usable

/-! Fixes that begin lines.

The fix of a missing comma that puts each item of its list on a line of its own changes the layout
alone (`line_fix_breaks_lines_only`).

1. The slots in front of a node tell the line on which it starts (`onLine_of_mem_standingsRow`), so
   the indent that the lines get is that of the list's own line (`Parse.indent_of_mem_standings`).
2. Between siblings on one line stands the trivia of a lexeme (`blanks_of_mem_siblings`); it is
   spaces and tabs (`Parse.isInlineIn_start`).
3. Lines can begin in front of any lexemes but the first (`exists_relaid`). The document that is
   read then has the same parts (`Relaid.recast`); commas are missing where they were, but for those
   between siblings that stand on lines of their own now (`Relaid.length_ownGaps`). -/
namespace Maml

open Draft

/-! ## The line of a node -/

/-- Whether slots tell the last line of a text. -/
def TellsLine (b : List (Option Text)) (text : Text) : Prop := Site.lineBefore b = text.lastLine

theorem Text.lastLine_append (a b : Text) : (a ++ b).lastLine =
    if b.any Lexer.isLineBreak then b.lastLine else a.lastLine ++ b := by
  have hwhole : (b.reverse.takeWhile (!Lexer.isLineBreak ·)).length = b.reverse.length ↔
      b.any Lexer.isLineBreak = false := by
    have hself : (b.reverse.takeWhile (!Lexer.isLineBreak ·)).length = b.reverse.length ↔
        b.reverse.takeWhile (!Lexer.isLineBreak ·) = b.reverse :=
      ⟨(List.takeWhile_prefix _).eq_of_length, congrArg List.length⟩
    rw [hself, List.takeWhile_eq_self_iff]
    simp
  rw [lastLine, List.reverse_append, List.takeWhile_append]
  cases hb : b.any Lexer.isLineBreak with
  | true =>
    rw [if_neg (by rw [hwhole, hb]; exact Bool.false_ne_true.symm), if_pos rfl]
    rfl
  | false =>
    rw [if_pos (hwhole.mpr hb), if_neg Bool.false_ne_true, List.reverse_append,
      List.reverse_reverse]
    rfl

namespace TellsLine

theorem push {b : List (Option Text)} {text : Text} (h : TellsLine b text) (t : Text) :
    TellsLine (some t :: b) (text ++ t) := by
  rw [TellsLine, Text.lastLine_append, Site.lineBefore, h]
  rfl

theorem tokens {b : List (Option Text)} {text : Text} (h : TellsLine b text) (ts : List Token) :
    TellsLine (Tree.slotsAfterRow b (ts.map tokenLeaf)) (text ++ ts.flatMap Token.text) := by
  induction ts generalizing b text with
  | nil => simpa [Tree.slotsAfterRow] using h
  | cons t ts ih =>
    rw [List.flatMap_cons, ← List.append_assoc]
    exact ih (h.push t.text)

end TellsLine

theorem Tree.slotsAfterRow_append (b : List (Option Text)) (ts us : List Tree) :
    slotsAfterRow b (ts ++ us) = slotsAfterRow (slotsAfterRow b ts) us := by
  induction ts generalizing b with
  | nil => rfl
  | cons t ts ih => exact ih _

namespace Draft

mutual

theorem tellsLine_slotsBehind {b : List (Option Text)} {text : Text} (h : TellsLine b text) :
    ∀ d : Draft, TellsLine (slotsBehind b d) (text ++ d.lexemes.flatMap Lexeme.text)
  | leaf l => by
    have hline := (h.tokens l.trivia).push l.token.text
    have htext : (leaf l).lexemes.flatMap Lexeme.text =
        l.trivia.flatMap Token.text ++ l.token.text := by
      simp [Lexeme.text, Lexeme.tokens]
    rw [htext, ← List.append_assoc]
    exact hline
  | node kind before first rest after => by
    have hparts := tellsLine_slotsAfterRow (tellsLine_slotsBehind h first) rest
    rw [List.append_assoc, ← List.flatMap_append] at hparts
    exact hparts

/-- If the slots in front of a row tell the line there, so do those behind it. -/
theorem tellsLine_slotsAfterRow {b : List (Option Text)} {text : Text} (h : TellsLine b text) :
    ∀ ds : List Draft, TellsLine (Tree.slotsAfterRow b (trees ds))
      (text ++ (lexemesList ds).flatMap Lexeme.text)
  | [] => by
    rw [lexemesList, List.flatMap_nil, List.append_nil]
    exact h
  | d :: ds => by
    have hrow := tellsLine_slotsAfterRow (tellsLine_slotsBehind h d) ds
    rw [List.append_assoc, ← List.flatMap_append] at hrow
    rw [trees, Tree.slotsAfterRow_append]
    exact hrow

end

/-- Whether a node stands among lexemes behind a text, and the slots in front of it tell the line
there. -/
def OnLine (x : Standing) (o : Nat) (text : Text) (ls : List Lexeme) : Prop :=
  ∃ front back, ls = front ++ x.draft.lexemes ++ back ∧ x.offset = o + Lexeme.sizeList front ∧
    TellsLine x.before (text ++ front.flatMap Lexeme.text)

variable {x : Standing} {o : Nat} {text : Text}

theorem OnLine.append_right {ls : List Lexeme} (h : OnLine x o text ls) (ms : List Lexeme) :
    OnLine x o text (ls ++ ms) := by
  obtain ⟨front, back, rfl, ho, hline⟩ := h
  exact ⟨front, back ++ ms, by rw [List.append_assoc], ho, hline⟩

theorem OnLine.append_left {ls ms : List Lexeme}
    (h : OnLine x (o + Lexeme.sizeList ls) (text ++ ls.flatMap Lexeme.text) ms) :
    OnLine x o text (ls ++ ms) := by
  obtain ⟨front, back, rfl, ho, hline⟩ := h
  refine ⟨ls ++ front, back, by simp only [List.append_assoc], ?_, ?_⟩
  · rw [ho, Lexeme.sizeList_append, Nat.add_assoc]
  · rwa [List.flatMap_append, ← List.append_assoc]

mutual

theorem onLine_of_mem_standings {text : Text} {b : List (Option Text)} (o : Nat)
    (h : TellsLine b text) :
    ∀ d : Draft, ∀ x ∈ standings o b d, OnLine x o text d.lexemes
  | leaf l => by simp [standings]
  | node kind before first rest after => by
    intro x hx
    rcases List.mem_cons.mp hx with rfl | hx
    · exact ⟨[], [], by simp, rfl, by simpa using h⟩
    rcases List.mem_append.mp hx with hx | hx
    · exact (onLine_of_mem_standings o h first x hx).append_right _
    · exact (onLine_of_mem_standingsRow _ (tellsLine_slotsBehind h first) rest x hx).append_left

/-- The slots in front of each node of a row tell the line there, if those in front of the row
do. -/
theorem onLine_of_mem_standingsRow {text : Text} {b : List (Option Text)} (o : Nat)
    (h : TellsLine b text) :
    ∀ ds : List Draft, ∀ x ∈ standingsRow o b ds, OnLine x o text (lexemesList ds)
  | [] => by simp [standingsRow]
  | d :: ds => by
    intro x hx
    rcases mem_standingsRow_cons.mp hx with hx | hx
    · exact (onLine_of_mem_standings o h d x hx).append_right _
    · exact (onLine_of_mem_standingsRow _ (tellsLine_slotsBehind h d) ds x hx).append_left

end

end Draft

/-- The indent of a node of a document is that of the line on which it starts. -/
theorem Parse.indent_of_mem_standings {source : Text} (hx : x ∈ standings source) {kind : NodeKind}
    {before after : Option ParseError} {first : Draft} {rest : List Draft}
    (hdraft : x.draft = node kind before first rest after) :
    ∃ front back, source = front ++ back ∧
      front.size = (viewOf x.offset x.before kind first rest).offset ∧
      (viewOf x.offset x.before kind first rest).site.indent = front.indent := by
  obtain ⟨front, back, hls, ho, hline⟩ := onLine_of_mem_standingsRow 0
    (show TellsLine [] [] from rfl) _ x hx
  obtain ⟨trailing, hsource⟩ := flatMap_text_lexemes source
  obtain ⟨more, hfirst⟩ := exists_lexemes_eq_cons first
  have hlexemes : lexemes source = front ++ (first.lexemes ++ lexemesList rest) ++ back := by
    rw [← lexemesList_drafts, show lexemesList (drafts source) = _ from hls, hdraft]
    rfl
  have htext : first.firstLexeme.text = first.trivia.flatMap Token.text ++ first.firstToken.text := by
    rw [Lexeme.text, Lexeme.tokens, List.flatMap_append, List.flatMap_singleton]
    rfl
  refine ⟨front.flatMap Lexeme.text ++ first.trivia.flatMap Token.text,
    first.firstToken.text ++ (more ++ lexemesList rest ++ back).flatMap Lexeme.text ++ trailing,
    ?_, ?_, ?_⟩
  · rw [hsource, hlexemes, hfirst]
    simp [htext]
  · rw [Text.size_append, Lexeme.size_flatMap_text, Token.size_flatMap_text]
    rw [Nat.zero_add] at ho
    rw [← ho]
    rfl
  · have hbehind := hline.tokens first.trivia
    have hleaf : (viewOf x.offset x.before kind first rest).site.tree.firstLeaf? =
        some (leafOf first.firstToken) :=
      firstLeaf?_tree (node kind before first rest after)
    rw [List.nil_append] at hbehind
    rw [Site.indent, hleaf, Text.indent, ← hbehind]
    rfl

/-! ## Blanks between siblings -/

namespace Draft

theorem sublist_heads_siblings (kind : NodeKind) (ds : List Draft) :
    ∀ (first : Option Draft) (comma : Option Lexeme) (lineBreak : Bool),
      ((siblings kind first comma lineBreak ds).map (·.next.firstLexeme)).Sublist
        (ds.map firstLexeme) := by
  induction ds with
  | nil => exact fun _ _ _ => List.Sublist.refl _
  | cons d ds ih =>
    intro first comma lineBreak
    cases d with
    | leaf l =>
      rw [siblings]
      exact (ih _ _ _).cons _
    | node k before parts rest after =>
      rw [siblings]
      split
      · rw [List.map_append]
        split
        · exact (ih _ _ _).cons _
        · cases first with
          | none => exact (ih _ _ _).cons _
          | some e => exact (ih _ _ _).cons_cons _
      · exact (ih _ _ _).cons _

theorem sublist_heads_siblings_cons (kind : NodeKind) (first : Draft) (rest : List Draft) :
    ((siblings kind none none false (first :: rest)).map (·.next.firstLexeme)).Sublist
      (rest.map firstLexeme) := by
  cases first with
  | leaf l =>
    rw [siblings]
    exact sublist_heads_siblings kind rest _ _ _
  | node k before parts more after =>
    rw [siblings]
    split
    · simpa using sublist_heads_siblings kind rest _ _ _
    · exact sublist_heads_siblings kind rest _ _ _

/-- Between siblings on one line, behind the comma if there is one, stands the trivia in front of
the second. -/
theorem blanks_of_mem_siblings (kind : NodeKind) {ds : List Draft} :
    ∀ {o : Nat} {first : Option Draft} {comma : Option Lexeme} {lineBreak : Bool},
      (∀ l, leaf l ∈ ds → l.kind = .comma) → Placed o (lexemesList ds) →
      (∀ e ∈ first, (comma.map (·.token.span.stop)).getD e.lastToken.span.stop = o) →
      ∀ p ∈ siblings kind first comma lineBreak ds,
        p.blanks = ⟨p.next.firstLexeme.start, p.next.firstToken.span.start⟩ ∧
          p.next.firstLexeme.onNewLine = false := by
  induction ds with
  | nil => exact fun _ _ _ p hp => absurd hp List.not_mem_nil
  | cons d ds ih =>
    intro o first comma lineBreak hleaf hp hfirst p hmem
    rw [lexemesList_cons] at hp
    obtain ⟨hd, hds⟩ := placed_append.mp hp
    have hleafTail := fun l hl => hleaf l (List.mem_cons_of_mem _ hl)
    have hstop := stop_lastToken hd
    cases d with
    | leaf l =>
      rw [siblings, if_pos (hleaf l List.mem_cons_self)] at hmem
      refine ih hleafTail hds ?_ p hmem
      exact fun _ _ => hstop
    | node k before parts rest after =>
      rw [siblings] at hmem
      split at hmem
      · generalize node k before parts rest after = d at *
        rcases List.mem_append.mp hmem with hmem | hmem
        · split at hmem
          · exact absurd hmem List.not_mem_nil
          · rename_i hline
            obtain ⟨e, he, rfl⟩ := List.mem_map.mp hmem
            obtain ⟨ls, hls⟩ := exists_lexemes_eq_cons d
            have hstart := (start_of_placed (hls ▸ hd)).1
            refine ⟨?_, by simpa using (by simpa using hline : _ ∧ _).2⟩
            rw [hstart, ← hfirst e (Option.mem_toList.mp he)]
            rfl
        · refine ih hleafTail hds (fun e he => ?_) p hmem
          obtain rfl := Option.some.inj he
          exact hstop
      · exact ih hleafTail hds (fun e he => absurd he (by simp)) p hmem

end Draft

/-! ## Lines in front of lexemes -/

def Separator.line (indent : Text) : Separator := ⟨(.whitespace, '\n' :: indent), true⟩

theorem Text.isBlank_of_mem_indent (t : Text) : ∀ c ∈ t.indent, Lexer.isBlank c = true := by
  intro c hc
  have hspace := List.mem_takeWhile_imp hc
  rw [Lexer.isBlank, hspace, Bool.true_or]

theorem Lexer.separates_line {indent : Text} (hindent : ∀ c ∈ indent, isBlank c = true)
    {t : TokenKind × Text} (ht : ∃ c cs, t.2 = c :: cs ∧ isBlank c = false)
    (back : List (TokenKind × Text)) :
    Separates (.whitespace, '\n' :: indent) (t :: back) := by
  obtain ⟨c, cs, htext, hblank⟩ := ht
  have hscan : scan '\n' (indent ++ (t :: back).flatMap (·.2)) = (.whitespace, indent) := by
    have hhead : ∀ d ∈ ((t :: back).flatMap (·.2)).head?, isBlank d = false := by
      rw [List.flatMap_cons, htext]
      intro d hd
      obtain rfl := Option.some.inj hd
      exact hblank
    rw [scan_of_isBlank (by decide), takeWhile_append indent hhead,
      List.takeWhile_eq_self_iff.mpr hindent]
  exact ⟨parted_cons (by decide), List.cons_ne_nil _ _, by simp, lex_of_scan hscan⟩

/-- Whether a text is another one in which lines with an indent begin in front of some lexemes, and
what becomes of each lexeme. -/
structure Relaid (source text : Text) (marked : List Lexeme) (indent : Text)
    (m : Lexeme → Lexeme) : Prop where
  lexemes_eq : Parse.lexemes text = (Parse.lexemes source).map m
  spelling_eq : ∀ l ∈ Parse.lexemes source, (m l).spelling =
    if l ∈ marked then ([(.whitespace, '\n' :: indent)], l.token.word) else l.spelling
  eq_self : ∀ l ∉ Parse.lexemes source, m l = l

/-- Lines can begin in front of any lexemes of a text but the first. -/
theorem exists_relaid {source : Text} {marked : List Lexeme} (indent : Text)
    (hclosed : ∀ t ∈ tokenize source, t.kind ≠ .unterminatedString)
    (h : marked.Sublist (Parse.lexemes source).tail)
    (hindent : ∀ c ∈ indent, Lexer.isBlank c = true) :
    ∃ text m, applyEdits source (marked.map (Separator.line indent).edit) = .ok text ∧
      Relaid source text marked indent m := by
  have hp := Parse.placed_lexemes source
  have hsep : ∀ l ∈ Parse.lexemes source, ∀ us, Lexer.Separates (Separator.line indent).token
      ((Separator.line indent).kept l ++ l.token.word :: us) := by
    intro l hl us
    have hmem : l.token.word ∈ Lexer.lex source := by
      have hmap := List.mem_map_of_mem (f := Token.word) (Parse.mem_tokenize_of_mem_lexemes hl)
      rwa [tokenize, show (Lexer.place 0 _).map Token.word = _ from map_place 0 _] at hmap
    exact Lexer.separates_line hindent (Lexer.exists_cons_of_mem_lex hmem (hp.2 l hl).2) us
  obtain ⟨text, trailing, happly, hlex, htrailing⟩ := Separator.exists_apply hclosed h hsep
  let g (l : Lexeme) : List (TokenKind × Text) × (TokenKind × Text) :=
    if l ∈ marked then ([(.whitespace, '\n' :: indent)], l.token.word) else l.spelling
  have htokens : (Parse.lexemes source).flatMap ((Separator.line indent).tokens marked) =
      spelled ((Parse.lexemes source).map g) := by
    rw [spelled, List.flatMap_map]
    refine List.flatMap_congr fun l _ => ?_
    simp only [g, Separator.tokens]
    split
    · rfl
    · exact List.flatMap_singleton ..
  have hspelling : ∀ u ∈ (Parse.lexemes source).map g, IsSpelling u := by
    intro u hu
    obtain ⟨l, hl, rfl⟩ := List.mem_map.mp hu
    simp only [g]
    split
    · exact ⟨by simp [TokenKind.isTrivia], (hp.2 l hl).2⟩
    · exact isSpelling_spelling (hp.2 l hl)
  rw [htokens] at hlex
  obtain ⟨m, hlexemes, hm, hself⟩ := exists_map_of_map_eq (Parse.nodup_lexemes source)
    (Parse.map_spelling_lexemes hlex hspelling htrailing)
  exact ⟨text, m, happly, hlexemes, hm, hself⟩

namespace Relaid

variable {source text : Text} {marked : List Lexeme} {indent : Text} {m : Lexeme → Lexeme}

theorem word_eq (h : Relaid source text marked indent m) {l : Lexeme}
    (hl : l ∈ Parse.lexemes source) : (m l).token.word = l.token.word := by
  have hword := congrArg Prod.snd (h.spelling_eq l hl)
  split at hword <;> exact hword

theorem kind_eq (h : Relaid source text marked indent m) (l : Lexeme) : (m l).kind = l.kind := by
  by_cases hl : l ∈ Parse.lexemes source
  · exact congrArg Prod.fst (h.word_eq hl)
  · rw [h.eq_self l hl]

theorem onNewLine_eq (h : Relaid source text marked indent m) {l : Lexeme}
    (hl : l ∈ Parse.lexemes source) :
    (m l).onNewLine = (l.onNewLine || decide (l ∈ marked)) := by
  rw [Maml.onNewLine_eq, h.spelling_eq l hl]
  split
  · rename_i hmem
    simp [hmem, Lexer.breaksLine, Lexer.isLineBreak]
  · rename_i hmem
    simp [hmem, Maml.onNewLine_eq]

theorem isSignedNumber_map_iff (h : Relaid source text marked indent m) {l n : Lexeme}
    (hnext : [l, n] <:+: Parse.lexemes source) :
    isSignedNumber (m l).token (m n).token = true ↔
      isSignedNumber l.token n.token = true ∧ n ∉ marked := by
  have hl : l ∈ Parse.lexemes source := hnext.subset (by simp)
  have hn : n ∈ Parse.lexemes source := hnext.subset (by simp)
  have hnext' : [m l, m n] <:+: Parse.lexemes text := by
    rw [h.lexemes_eq]
    exact hnext.map m
  have hplus : (m l).spelling.2 = l.spelling.2 := h.word_eq hl
  have hnumber : (m n).spelling.2 = n.spelling.2 := h.word_eq hn
  rw [isSignedNumber_iff (Parse.placed_lexemes source) hnext,
    isSignedNumber_iff (Parse.placed_lexemes text) hnext', SpellsSigned, SpellsSigned, hplus,
    hnumber, h.spelling_eq n hn]
  by_cases hmarked : n ∈ marked
  · have hpos := Char.utf8Size_pos '\n'
    simp only [hmarked, if_true, List.flatMap_singleton, Text.size_cons, not_true, and_false,
      iff_false]
    omega
  · simp [hmarked]

theorem keepsApart (h : Relaid source text marked indent m) :
    (Recasting.relaid m h.kind_eq).KeepsApart (Parse.lexemes source) :=
  fun _ _ hnext hsigned _ => ((h.isSignedNumber_map_iff hnext).mp hsigned).1

theorem fits (h : Relaid source text marked indent m) {y : Standing} {j : Nat}
    (hy : (Parse.standings source)[j]? = some y) {c : Container}
    {before after : Option ParseError} {first : Draft} {rest : List Draft}
    (hdraft : y.draft = node c.listKind before first rest after)
    (hmarked : ∀ l ∈ marked, l ∈ rest.map firstLexeme) :
    ∀ x ∈ Parse.standings source,
      (Recasting.relaid m h.kind_eq).Fits (Parse.lexemes source) x.draft := by
  intro x hx
  cases hd : x.draft with
  | leaf => trivial
  | node kind b f r a =>
    refine ⟨fun _ _ hq => absurd hq Bool.false_ne_true, ?_⟩
    rintro plus number rfl rfl hsigned
    obtain ⟨front, back, hlexemes, -⟩ := among_of_mem_standingsRow 0 [] _ x hx
    have hnext : [plus, number] <:+: Parse.lexemes source := by
      rw [← Parse.lexemesList_drafts, show lexemesList (Parse.drafts source) = _ from hlexemes, hd]
      exact ⟨front, back, rfl⟩
    refine (h.isSignedNumber_map_iff hnext).mpr ⟨hsigned, fun hnumber => ?_⟩
    -- the number would be a part of the list, where tokens are commas
    obtain ⟨i, hi⟩ := List.mem_iff_getElem?.mp hx
    have hij : i = j := Parse.index_eq_of_mem_laterHeads hi hy
      (l := number) (by rw [hd]; exact List.mem_singleton.mpr rfl)
      (by rw [hdraft]; exact hmarked number hnumber)
    subst hij
    obtain rfl : x = y := Option.some.inj (hi.symm.trans hy)
    obtain ⟨rfl, -, rfl, rfl, -⟩ := Draft.node.inj (hd.symm.trans hdraft)
    obtain ⟨e, hshape⟩ := exists_shaped_of_formed (hdraft ▸ Parse.formed_of_mem_standings hx)
    have hcomma := kind_of_leaf_mem hshape number (by simp)
    obtain ⟨-, -, hkind, -⟩ := isSignedNumber_eq_true.mp hsigned
    exact absurd (hcomma.symm.trans hkind) (by decide)

theorem recast (h : Relaid source text marked indent m) {y : Standing} {j : Nat}
    (hy : (Parse.standings source)[j]? = some y) {c : Container}
    {before after : Option ParseError} {first : Draft} {rest : List Draft}
    (hdraft : y.draft = node c.listKind before first rest after)
    (hmarked : ∀ l ∈ marked, l ∈ rest.map firstLexeme) :
    Recast (Recasting.relaid m h.kind_eq) .file (Parse.drafts source) (Parse.drafts text) := by
  refine Parse.recast_drafts h.keepsApart (h.fits hy hdraft hmarked) fun ds' hds' => ?_
  rw [hds'.lexemesList_eq fun _ => rfl, Parse.lexemesList_drafts, h.lexemes_eq]
  rfl

end Relaid

/-! ## Missing commas of each node -/

namespace Parse

theorem countP_atNode {source : Text} {x : Standing} (hx : x ∈ standings source) {v : AnyView}
    (hv : x.site.anyView? = some v) :
    (Validation.atNode .default v).countP (·.category == .expectedComma) =
      x.draft.ownGaps.length := by
  have hgaps := congrArg List.length (Validation.filter_atNode (isPlaced_of_mem_standings hx))
  rw [hv, Option.toList_some, List.flatMap_singleton, List.length_map, List.length_map] at hgaps
  rw [List.countP_eq_length_filter, hgaps]

theorem bare_tree (source : Text) :
    (parse source).tree.bare = .node (.node .file) ((drafts source).map (·.tree.bare)) := by
  have hp := placed_lexemes source
  rw [← lexemesList_drafts] at hp
  have htree : (parse source).tree = .node (.node .file) (trees (drafts source) ++
      (Lexemes.ofTokens (tokenize source) source.size).trailing.map tokenLeaf) := rfl
  have htrailing : ((Lexemes.ofTokens (tokenize source) source.size).trailing.map
      tokenLeaf).filter (!·.isTrivia) = [] := filter_map_tokenLeaf (isTrivia_of_mem_trailing _)
  rw [htree, Tree.bare, Tree.bareList_eq, List.filter_append, filter_trees hp, htrailing,
    List.append_nil, List.map_map]
  rfl

theorem commaCounts_parse (source : Text) :
    (parse source).commaCounts = 0 :: (standings source).map (·.draft.ownGaps.length) := by
  obtain ⟨file, hviews⟩ := views_parse source
  rw [commaCounts, hviews, List.map_cons, List.map_map]
  refine congrArg (0 :: ·) (List.map_congr_left fun x hx => ?_)
  obtain ⟨kind, before, first, rest, after, hdraft⟩ := exists_node_of_mem_standings hx
  have hv := Standing.anyView?_site hdraft
  rw [Function.comp_apply, hv, Option.getD_some]
  exact countP_atNode hx hv

end Parse

/-! ## Missing commas after a line is begun -/

namespace Draft

theorem ownGaps_list (c : Container) {before after : Option ParseError} {first : Draft}
    {rest : List Draft} :
    (node c.listKind before first rest after).ownGaps = commaGaps c.elementKind (first :: rest) := by
  cases c <;> rfl

theorem ownGaps_of_not_list {kind : NodeKind} (h : ∀ c : Container, kind ≠ c.listKind)
    {before after : Option ParseError} {first : Draft} {rest : List Draft} :
    (node kind before first rest after).ownGaps = [] := by
  cases kind with
  | members => exact absurd rfl (h .object)
  | items => exact absurd rfl (h .array)
  | _ => rfl

theorem length_commaGaps (kind : NodeKind) (ds : List Draft) :
    (commaGaps kind ds).length = (siblings kind none none false ds).countP (·.comma.isNone) := by
  rw [commaGaps, List.length_map, List.countP_eq_length_filter]

theorem next_of_mem_siblings {kind : NodeKind} {ds : List Draft} :
    ∀ {first : Option Draft} {comma : Option Lexeme} {lineBreak : Bool},
      ∀ p ∈ siblings kind first comma lineBreak ds, p.next ∈ ds ∧ p.next.isNodeOf kind = true := by
  induction ds with
  | nil => exact fun p hp => absurd hp List.not_mem_nil
  | cons d ds ih =>
    intro first comma lineBreak p hp
    cases d with
    | leaf l =>
      rw [siblings] at hp
      exact (ih p hp).imp_left (List.mem_cons_of_mem _)
    | node k before parts rest after =>
      rw [siblings] at hp
      split at hp
      · rename_i hk
        rcases List.mem_append.mp hp with hp | hp
        · split at hp
          · exact absurd hp List.not_mem_nil
          · obtain ⟨e, -, rfl⟩ := List.mem_map.mp hp
            exact ⟨List.mem_cons_self, by rw [isNodeOf, hk, beq_self_eq_true]⟩
        · exact (ih p hp).imp_left (List.mem_cons_of_mem _)
      · exact (ih p hp).imp_left (List.mem_cons_of_mem _)

theorem sublist_heads_lexemesList (ds : List Draft) :
    (ds.map firstLexeme).Sublist (lexemesList ds) := by
  induction ds with
  | nil => exact List.Sublist.refl _
  | cons d ds ih =>
    obtain ⟨ls, hls⟩ := exists_lexemes_eq_cons d
    rw [List.map_cons, lexemesList_cons, hls, List.cons_append]
    exact (ih.trans (List.sublist_append_right _ _)).cons_cons _

theorem firstLexeme_mem_lexemesList {d : Draft} {ds : List Draft} (h : d ∈ ds) :
    d.firstLexeme ∈ lexemesList ds :=
  (sublist_heads_lexemesList ds).subset (List.mem_map_of_mem h)

theorem Container.listKind_injective {c c' : Container} (h : c.listKind = c'.listKind) : c = c' := by
  revert h
  cases c <;> cases c' <;> decide

theorem next_of_mem_siblings_cons {kind : NodeKind} {first : Draft} {rest : List Draft} :
    ∀ p ∈ siblings kind none none false (first :: rest),
      p.next ∈ rest ∧ p.next.isNodeOf kind = true := by
  intro p hp
  cases first with
  | leaf l =>
    rw [siblings] at hp
    exact next_of_mem_siblings p hp
  | node k before parts more after =>
    rw [siblings] at hp
    split at hp
    · simp only [Option.toList_none, List.map_nil, ite_self, List.nil_append] at hp
      exact next_of_mem_siblings p hp
    · exact next_of_mem_siblings p hp

theorem not_shaped_leaf {e : List Container} {c : Container} {l : Lexeme} {ds : List Draft} :
    ¬ Shaped e (.list c true) (leaf l :: ds) := by
  intro h
  generalize hplace : Place.list c true = place at h
  generalize hrow : leaf l :: ds = row at h
  cases h <;>
    simp only [reduceCtorEq, Place.list.injEq, Bool.true_eq_false, and_false, List.cons.injEq,
      false_and] at hplace hrow
  case item hd _ =>
    obtain ⟨first, hfirst⟩ := exists_plain_of_shaped hd
    rw [hfirst] at hrow
    exact absurd hrow.1 (by simp [plain])
  all_goals simp [strayComma, incomplete, junk] at hrow

end Draft

/-- Where lines begin in front of the next siblings of a list: the lexemes that those begin with. -/
def Draft.lineHeads (c : Container) (ds : List Draft) : List Lexeme :=
  (siblings c.elementKind none none false ds).map (·.next.firstLexeme)

namespace Relaid

variable {source text : Text} {indent : Text} {m : Lexeme → Lexeme} {c : Container} {i j : Nat}
  {x x' y : Standing} {before after : Option ParseError} {first : Draft} {rest : List Draft}

/-- A token of a list stays on its line if lines begin in front of siblings. -/
theorem not_mem_lineHeads (hx : (Parse.standings source)[i]? = some x)
    (hy : (Parse.standings source)[j]? = some y)
    (hdraft : y.draft = node c.listKind before first rest after) {c' : Container}
    {before' after' : Option ParseError} {first' : Draft} {rest' : List Draft}
    (hdraft' : x.draft = node c'.listKind before' first' rest' after') {l : Lexeme}
    (hl : leaf l ∈ first' :: rest') : l ∉ lineHeads c (first :: rest) := by
  intro hmem
  have hmemx := List.mem_of_getElem? hx
  obtain ⟨e, hshape⟩ := exists_shaped_of_formed (hdraft' ▸ Parse.formed_of_mem_standings hmemx)
  have hrest : leaf l ∈ rest' := by
    refine (List.mem_cons.mp hl).resolve_left fun hfirst => ?_
    rw [← hfirst] at hshape
    exact not_shaped_leaf hshape
  obtain ⟨p, hp, hfirst⟩ := List.mem_map.mp hmem
  obtain ⟨hnext, hkind⟩ := next_of_mem_siblings_cons p hp
  obtain rfl : i = j := Parse.index_eq_of_mem_laterHeads hx hy
    (by rw [hdraft']; exact List.mem_map_of_mem hrest)
    (by rw [hdraft]; exact List.mem_map.mpr ⟨p.next, hnext, hfirst⟩)
  obtain rfl : x = y := Option.some.inj (hx.symm.trans hy)
  obtain ⟨-, -, rfl, rfl, -⟩ := Draft.node.inj (hdraft'.symm.trans hdraft)
  -- in the list itself the token would begin two parts
  have hnodup := Parse.nodup_laterHeads hmemx
  rw [hdraft'] at hnodup
  have hsame : p.next = leaf l := List.inj_on_of_nodup_map hnodup hnext hrest hfirst
  rw [hsame] at hkind
  exact Bool.false_ne_true hkind

/-- Behind lines that begin in front of the siblings of a list no comma is missing in that list, and
as many as before in the others. -/
theorem length_ownGaps (h : Relaid source text (lineHeads c (first :: rest)) indent m)
    (hy : (Parse.standings source)[j]? = some y)
    (hdraft : y.draft = node c.listKind before first rest after)
    (hx : (Parse.standings source)[i]? = some x)
    (hrenews : (Recasting.relaid m h.kind_eq).Renews x.draft x'.draft) :
    x'.draft.ownGaps.length = if i = j then 0 else x.draft.ownGaps.length := by
  have hmemx := List.mem_of_getElem? hx
  obtain ⟨kind, b, f, r, a, hd⟩ := Parse.exists_node_of_mem_standings hmemx
  rw [hd] at hrenews
  obtain ⟨b', f', r', a', hd', hparts⟩ := hrenews.exists_node
  by_cases hlist : ∃ c' : Container, kind = c'.listKind
  · obtain ⟨c', rfl⟩ := hlist
    obtain ⟨e, hshape⟩ := exists_shaped_of_formed (hd ▸ Parse.formed_of_mem_standings hmemx)
    have hlexemes : ∀ l ∈ lexemesList (f :: r), l ∈ Parse.lexemes source := by
      obtain ⟨-, -, -, -, hall⟩ := Parse.exists_text_of_mem_standings hmemx
      rw [hd] at hall
      exact hall
    have hsiblings := siblings_of_recast_list (fun _ => rfl)
      (fun l => decide (l ∈ lineHeads c (first :: rest)))
      (fun _ _ hcut => absurd hcut (by simp [Recasting.relaid])) hparts
      (fun d hdmem => h.onNewLine_eq (hlexemes _ (firstLexeme_mem_lexemesList hdmem)))
      (fun l hl => ⟨kind_of_leaf_mem hshape l hl,
        decide_eq_false (not_mem_lineHeads hx hy hdraft hd hl)⟩)
    have hcommas := map_eq_of_forall₂ (f := fun p : Siblings => p.comma.isNone)
      (g := fun p : Siblings => p.comma.isNone) hsiblings fun p _ p' _ hp => by
        simpa [Recasting.relaid] using hp.comma
    have hcount := congrArg (List.countP id) hcommas
    rw [List.countP_map, List.countP_map, Function.id_comp] at hcount
    rw [hd, hd', ownGaps_list, ownGaps_list, length_commaGaps, length_commaGaps, hcount]
    split
    · rename_i hij
      subst hij
      obtain rfl : x = y := Option.some.inj (hx.symm.trans hy)
      obtain ⟨hkind, -, rfl, rfl, -⟩ := Draft.node.inj (hd.symm.trans hdraft)
      obtain rfl := Container.listKind_injective hkind
      refine List.countP_eq_zero.mpr fun p hp => ?_
      obtain ⟨hp, hbreaks⟩ := List.mem_filter.mp hp
      have hmem : p.next.firstLexeme ∈ lineHeads c' (f :: r) := List.mem_map_of_mem hp
      simp [hmem] at hbreaks
    · rename_i hij
      rw [List.filter_eq_self.mpr]
      intro p hp
      obtain ⟨hnext, -⟩ := next_of_mem_siblings_cons p hp
      rw [Bool.not_eq_true', decide_eq_false_iff_not]
      intro hmem
      obtain ⟨q, hq, hfirst⟩ := List.mem_map.mp hmem
      obtain ⟨hqnext, -⟩ := next_of_mem_siblings_cons q hq
      exact hij (Parse.index_eq_of_mem_laterHeads hx hy
        (by rw [hd]; exact List.mem_map.mpr ⟨p.next, hnext, rfl⟩)
        (by rw [hdraft]; exact List.mem_map.mpr ⟨q.next, hqnext, hfirst⟩))
  · rw [hd, hd', ownGaps_of_not_list fun c' hc => hlist ⟨c', hc⟩,
      ownGaps_of_not_list fun c' hc => hlist ⟨c', hc⟩]
    exact (ite_self 0).symm

/-- Lines that begin in front of the siblings of a list change the layout alone. -/
theorem breaksLinesOnly (h : Relaid source text (lineHeads c (first :: rest)) indent m)
    (hy : (Parse.standings source)[j]? = some y)
    (hdraft : y.draft = node c.listKind before first rest after) :
    BreaksLinesOnly source text (j + 1) := by
  have hrecast := h.recast hy hdraft fun l hl => by
    obtain ⟨p, hp, rfl⟩ := List.mem_map.mp hl
    exact List.mem_map_of_mem (next_of_mem_siblings_cons p hp).1
  refine ⟨?_, ?_, ?_, ?_⟩
  · rw [significant_eq, significant_eq, h.lexemes_eq, List.map_map, List.map_map, List.map_map]
    exact List.map_congr_left fun l hl => h.word_eq hl
  · exact Parse.expectations_of_relaid hrecast
  · have hp := Parse.placed_lexemes source
    have hp' := Parse.placed_lexemes text
    rw [← Parse.lexemesList_drafts] at hp hp'
    rw [Parse.bare_tree, Parse.bare_tree, map_bare_of_recast (fun _ => rfl) (fun _ => rfl) hrecast
      hp hp' fun l hl => h.word_eq (by rwa [Parse.lexemesList_drafts] at hl)]
  · have hnodes := standingsRow_of_recast (fun _ => rfl) hrecast 0 0 [] []
    obtain ⟨hlength, hall⟩ := List.forall₂_iff_get.mp hnodes
    rw [Parse.commaCounts_parse, Parse.commaCounts_parse, List.set_cons_succ]
    refine congrArg (0 :: ·) (List.ext_getElem ?_ fun i hi hi' => ?_)
    · rw [List.length_map, List.length_set, List.length_map]
      exact hlength.symm
    rw [List.length_map] at hi
    have hi' : i < (Parse.standings source).length := by simpa using hi'
    have hlen := h.length_ownGaps hy hdraft (List.getElem?_eq_getElem hi') (hall i hi' hi)
    rw [List.getElem_map, List.getElem_set, List.getElem_map]
    simp only [eq_comm (a := j)]
    exact hlen

end Relaid

/-! ## The fix that begins lines -/

namespace Draft

/-- The edits that begin lines in a list put a line in front of each next sibling. -/
theorem edits_lineBreaks {o : Nat} {c : Container} {e : List Container} {ds : List Draft}
    (hshape : Shaped e (.list c true) ds) (hp : Placed o (lexemesList ds)) (indent : Text) :
    (lineBreaks indent (siblings c.elementKind none none false ds)).edits =
      (lineHeads c ds).map (Separator.line indent).edit := by
  rw [lineBreaks, lineHeads, List.map_map]
  refine List.map_congr_left fun p hp' => ?_
  have hblanks := (blanks_of_mem_siblings c.elementKind (kind_of_leaf_mem hshape) hp (by simp) p
    hp').1
  rw [hblanks]
  rfl

end Draft

namespace Parse

/-- In front of a token that does not begin a line are spaces and tabs. -/
theorem isInlineIn_start {source : Text} {l : Lexeme} (hl : l ∈ lexemes source)
    (hline : l.onNewLine = false) :
    Span.isInlineIn ⟨l.start, l.token.span.start⟩ source = true := by
  obtain ⟨front, back, hlexemes⟩ := List.mem_iff_append.mp hl
  obtain ⟨trailing, hsource⟩ := flatMap_text_lexemes source
  have hp := placed_lexemes source
  rw [hlexemes] at hp
  obtain ⟨hstart, htoken⟩ := start_of_placed (placed_append.mp hp).2
  rw [Nat.zero_add] at hstart htoken
  have htext : source = front.flatMap Lexeme.text ++ l.trivia.flatMap Token.text ++
      (l.token.text ++ back.flatMap Lexeme.text ++ trailing) := by
    conv_lhs => rw [hsource, hlexemes]
    simp [Lexeme.text, Lexeme.tokens]
  rw [hstart, htoken, ← Lexeme.size_flatMap_text, ← Token.size_flatMap_text, htext,
    isInlineIn_append, (isSpelled_of_mem_lexemes hl).1, hline]
  rfl

theorem sublist_laterHeads {source : Text} {x : Standing} (hx : x ∈ standings source) :
    x.draft.laterHeads.Sublist (lexemes source).tail := by
  obtain ⟨front, back, hlexemes, -⟩ := among_of_mem_standingsRow 0 [] _ x hx
  have hlexemes : lexemes source = front ++ x.draft.lexemes ++ back :=
    (lexemesList_drafts source).symm.trans hlexemes
  cases hd : x.draft with
  | leaf l => exact List.nil_sublist _
  | node kind before first rest after =>
    obtain ⟨more, hfirst⟩ := exists_lexemes_eq_cons first
    rw [hd, lexemes_node, hfirst] at hlexemes
    rw [hlexemes]
    refine (sublist_heads_lexemesList rest).trans ?_
    cases front with
    | nil =>
      simp only [List.nil_append, List.cons_append, List.append_assoc, List.tail_cons]
      exact (List.sublist_append_left _ _).trans (List.sublist_append_right _ _)
    | cons l front =>
      simp only [List.cons_append, List.append_assoc, List.tail_cons]
      refine List.Sublist.trans ?_ (List.sublist_append_right _ _)
      refine List.Sublist.trans ?_ (List.sublist_cons_self _ _)
      exact (List.sublist_append_left _ _).trans (List.sublist_append_right _ _)

theorem exists_list_of_foundAt {source : Text} {d : Diagnostic} {i : Nat} {v : AnyView}
    (h : d.FoundAt source i v) (hcategory : d.category = .expectedComma) :
    ∃ j x, i = j + 1 ∧ (standings source)[j]? = some x ∧ ∃ (c : Container) (before : _) (first : _)
      (rest : _) (after : _), x.draft = node c.listKind before first rest after ∧
        v = ⟨c.listKind, viewOf x.offset x.before c.listKind first rest⟩ ∧
          d ∈ Validation.missingCommas c.elementKind
            (viewOf x.offset x.before c.listKind first rest) := by
  obtain ⟨file, hviews⟩ := views_parse source
  obtain ⟨hi, hd⟩ := h
  rw [hviews] at hi
  cases i with
  | zero =>
    obtain rfl := Option.some.inj hi
    exact absurd hd List.not_mem_nil
  | succ j =>
    rw [List.getElem?_cons_succ, List.getElem?_map] at hi
    obtain ⟨x, hx, hv⟩ := Option.map_eq_some_iff.mp hi
    obtain ⟨kind, before, first, rest, after, hdraft⟩ :=
      exists_node_of_mem_standings (List.mem_of_getElem? hx)
    rw [Standing.anyView?_site hdraft, Option.getD_some] at hv
    subst hv
    have hcommas : d ∈ Validation.atNode ⟨true, false, false⟩
        ⟨kind, viewOf x.offset x.before kind first rest⟩ :=
      Validation.filter_atNode_default (· == .expectedComma) _ ▸
        List.mem_filter.mpr ⟨hd, beq_iff_eq.mpr hcategory⟩
    cases kind with
    | members =>
      exact ⟨j, x, rfl, hx, .object, before, first, rest, after, hdraft, rfl,
        List.append_nil (Validation.missingCommas _ _) ▸ hcommas⟩
    | items => exact ⟨j, x, rfl, hx, .array, before, first, rest, after, hdraft, rfl, hcommas⟩
    | _ => exact absurd hcommas List.not_mem_nil

end Parse

theorem exists_foundAt {o : ValidationOptions} {source : Text} {d : Diagnostic}
    (hd : d ∈ check o source) (hcategory : d.category = .expectedComma) :
    ∃ i v, d.FoundAt source i v := by
  rw [check, mem_sortByRange, List.mem_append] at hd
  rcases hd with hd | hd
  · obtain ⟨e, he, rfl⟩ := List.mem_map.mp hd
    have hreports := reports_ofParseError ⟨false, false, false⟩ (expected_ne_comma_of_mem_errors he)
    rw [hcategory] at hreports
    exact absurd hreports Bool.false_ne_true
  · rw [validate_eq_filter_reports] at hd
    obtain ⟨v, hv, hd⟩ := List.mem_flatMap.mp (List.mem_filter.mp hd).1
    obtain ⟨i, hi⟩ := List.mem_iff_getElem?.mp hv
    exact ⟨i, v, hi, hd⟩

/-- The fix that puts each item of a list on its own line changes the layout alone, wherever a comma
is missing: each of its edits puts a line break and the indent of the list's own line in place of
spaces and tabs. Then no comma is missing in the list, and as many as before in the others. -/
theorem line_fix_breaks_lines_only {o : ValidationOptions} {source : Text} {d : Diagnostic}
    (hclosed : ∀ t ∈ tokenize source, t.kind ≠ .unterminatedString)
    (hd : d ∈ check o source) (hcategory : d.category = .expectedComma) :
    (∃ i v, d.FoundAt source i v) ∧ ∀ i v, d.FoundAt source i v →
      ∃ comma lines front back text, d.fixes = [comma, lines] ∧
        lines.title = "Put each item on its own line" ∧
        source = front ++ back ∧ front.size = v.view.offset ∧
        (∀ e ∈ lines.edits,
          e.range.isInlineIn source = true ∧ e.replacement = '\n' :: front.indent) ∧
        lines.apply source = .ok text ∧ BreaksLinesOnly source text i := by
  refine ⟨exists_foundAt hd hcategory, fun i v hfound => ?_⟩
  obtain ⟨j, x, rfl, hx, c, before, first, rest, after, hdraft, rfl, hmissing⟩ :=
    Parse.exists_list_of_foundAt hfound hcategory
  have hmem := List.mem_of_getElem? hx
  have hp : Placed x.offset (lexemesList (first :: rest)) := by
    have hplaced : Placed x.offset x.draft.lexemes := Parse.isPlaced_of_mem_standings hmem
    rwa [hdraft] at hplaced
  obtain ⟨e, hshape⟩ := exists_shaped_of_formed (hdraft ▸ Parse.formed_of_mem_standings hmem)
  obtain ⟨front, back, hsource, hoffset, hindent⟩ := Parse.indent_of_mem_standings hmem hdraft
  rw [missingCommas_viewOf x.before c.elementKind c.listKind hp, hindent] at hmissing
  obtain ⟨gap, -, rfl⟩ := List.mem_map.mp hmissing
  have hedits := edits_lineBreaks hshape hp front.indent
  have hheads : (lineHeads c (first :: rest)).Sublist (Parse.lexemes source).tail := by
    have hlater := Parse.sublist_laterHeads hmem
    rw [hdraft] at hlater
    exact (sublist_heads_siblings_cons c.elementKind first rest).trans hlater
  obtain ⟨text, m, happly, hrelaid⟩ := exists_relaid front.indent hclosed hheads
    (Text.isBlank_of_mem_indent front)
  refine ⟨_, _, front, back, text, rfl, rfl, hsource, hoffset, ?_, ?_,
    hrelaid.breaksLinesOnly hx hdraft⟩
  · intro edit hedit
    rw [hedits] at hedit
    obtain ⟨l, hl, rfl⟩ := List.mem_map.mp hedit
    have hlexeme := List.mem_of_mem_tail (hheads.subset hl)
    obtain ⟨p, hp', rfl⟩ := List.mem_map.mp hl
    have hline := (blanks_of_mem_siblings c.elementKind (kind_of_leaf_mem hshape) hp (by simp) p
      hp').2
    exact ⟨Parse.isInlineIn_start hlexeme hline, rfl⟩
  · rw [Fix.apply, hedits, happly]

/-- The items of an indented array on lines of their own. -/
theorem line_fix_breaks_lines_only_in_array :
    let source : Text := [' ', '[', '1', ' ', '2', ',', '3', ']']
    let d := commaDiagnostic ⟨"Put each item on its own line",
      [⟨⟨3, 4⟩, ['\n', ' ']⟩, ⟨⟨6, 6⟩, ['\n', ' ']⟩]⟩ ⟨3, 4⟩
    (∀ t ∈ tokenize source, t.kind ≠ .unterminatedString) ∧ d ∈ check .default source ∧
      d.category = .expectedComma ∧
      (∃ i v, d.FoundAt source i v) ∧ ∀ i v, d.FoundAt source i v →
        ∃ comma lines front back text, d.fixes = [comma, lines] ∧
          lines.title = "Put each item on its own line" ∧
          source = front ++ back ∧ front.size = v.view.offset ∧
          (∀ e ∈ lines.edits,
            e.range.isInlineIn source = true ∧ e.replacement = '\n' :: front.indent) ∧
          lines.apply source = .ok text ∧ BreaksLinesOnly source text i := by
  have hclosed : ∀ t ∈ tokenize [' ', '[', '1', ' ', '2', ',', '3', ']'],
      t.kind ≠ .unterminatedString := by
    decide +kernel
  have hd : commaDiagnostic ⟨"Put each item on its own line",
      [⟨⟨3, 4⟩, ['\n', ' ']⟩, ⟨⟨6, 6⟩, ['\n', ' ']⟩]⟩ ⟨3, 4⟩ ∈
        check .default [' ', '[', '1', ' ', '2', ',', '3', ']'] := by
    decide +kernel
  exact ⟨hclosed, hd, rfl, line_fix_breaks_lines_only hclosed hd rfl⟩

end Maml
