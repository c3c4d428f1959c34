import Maml.Proofs.CloserFixes
import Maml.Proofs.Endings
import Maml.Proofs.Findings
import Maml.Proofs.Options
import Maml.Proofs.PlusPlaces
import Maml.Proofs.Usable

/-! Fixes that take plus signs away.

1. Behind tokens that do not go on with it, a number is a token without its sign as well, and all
   other tokens stay (`Lexer.lex_unsigned_iff`).
2. A diagnostic of a number with its sign is about a marked place of the document
   (`Parse.exists_signed`), and the lexemes in front of the sign are those that the number is put
   behind (`Parse.exists_recast_unsigned`).
3. So the fix does what it says exactly if nothing in front of the sign goes on with the number
   (`plus_fix_resolves_iff`), and goes wrong behind a minus sign
   (`not_removesPlus_behind_minus`). -/
namespace Maml

open Draft

/-! ## Tokens around a sign -/

namespace Lexer

section
variable {source n : Text} {ts us : List (TokenKind × Text)}
  (h : lex source = ts ++ (.badCharacter, ['+']) :: (.number, n) :: us)
include h

theorem eq_of_lex_signed : source = ts.flatMap (·.2) ++ '+' :: (n ++ us.flatMap (·.2)) := by
  rw [← flatMap_lex source, h]
  simp

theorem lex_signed_number : lex (n ++ us.flatMap (·.2)) = (.number, n) :: us := by
  have hcut := (@lex_cut source (ts ++ [(.badCharacter, ['+'])]) ((.number, n) :: us)
    (by rw [h]; simp)).2
  rwa [List.flatMap_cons] at hcut

theorem lex_sign : lex (ts.flatMap (·.2) ++ '+' :: (n ++ us.flatMap (·.2))) =
    ts ++ lex ('+' :: (n ++ us.flatMap (·.2))) := by
  have hsign := (lex_cut h).2
  simp only [List.flatMap_cons, List.cons_append, List.nil_append] at hsign
  rw [← eq_of_lex_signed h, h, hsign]

theorem exists_start_of_signed : ∃ c cs, n = c :: cs ∧ (c = '-' ∨ c.isDigit = true) := by
  have hself := @lex_of_mem_lex source (.number, n) (by rw [h]; simp)
  obtain ⟨c, cs, rfl, hscan⟩ := exists_scan_of_lex_eq hself
  obtain ⟨hc, -⟩ := scan_of_number (by rw [hscan])
  exact ⟨c, cs, rfl, hc.imp_left And.left⟩

/-- Without its sign a number stays a token, and with it all others, exactly if no token in front of
the sign goes on with it. -/
theorem lex_unsigned_iff (hopen : ∀ t ∈ lex source, t.1 ≠ .unterminatedString) :
    lex (ts.flatMap (·.2) ++ (n ++ us.flatMap (·.2))) = ts ++ (.number, n) :: us ↔
      ¬ Joins n ts := by
  have hn := exists_start_of_signed h
  rw [← lex_signed_number h]
  refine ⟨not_joins_of_lex hn, lex_unsigned hn (fun t ht => hopen t ?_) (lex_sign h)⟩
  rw [h]
  exact List.mem_append_left _ ht

/-- If the significant tokens of a text without the sign are those of the other, so are all. -/
theorem lex_unsigned_of_filter (hfilter :
    (lex (ts.flatMap (·.2) ++ (n ++ us.flatMap (·.2)))).filter (!·.1.isTrivia) =
      (ts ++ (.number, n) :: us).filter (!·.1.isTrivia)) :
    lex (ts.flatMap (·.2) ++ (n ++ us.flatMap (·.2))) = ts ++ (.number, n) :: us := by
  rw [← lex_signed_number h] at hfilter ⊢
  exact lex_eq_of_filter_eq (exists_start_of_signed h) (lex_sign h) hfilter

end

theorem eq_nil_of_size_eq_zero {source : Text} {ts : List (TokenKind × Text)}
    (hts : ∀ t ∈ ts, t ∈ lex source) (h : Text.size (ts.flatMap (·.2)) = 0) : ts = [] := by
  cases ts with
  | nil => rfl
  | cons t ts =>
    rw [Text.size_eq_zero, List.flatMap_cons, List.append_eq_nil_iff] at h
    exact absurd h.1 (text_ne_nil_of_mem_lex (hts t List.mem_cons_self))

end Lexer

theorem wordsBefore_eq {source : Text} {ts us : List (TokenKind × Text)}
    (h : Lexer.lex source = ts ++ us) : wordsBefore source (Text.size (ts.flatMap (·.2))) = ts := by
  have hfront : ∀ t ∈ Lexer.place 0 ts,
      decide (t.span.stop ≤ Text.size (ts.flatMap (·.2))) = true := by
    intro t ht
    obtain ⟨-, -, hstop⟩ := Lexer.bounds_of_mem_place ht
    rw [Nat.zero_add] at hstop
    exact decide_eq_true hstop
  have hback : ∀ t ∈ Lexer.place (0 + Text.size (ts.flatMap (·.2))) us,
      ¬ decide (t.span.stop ≤ Text.size (ts.flatMap (·.2))) = true := by
    intro t ht
    obtain ⟨hstart, hstop, -⟩ := Lexer.bounds_of_mem_place ht
    obtain ⟨front, back, rfl, -⟩ := Lexer.exists_append_of_mem_place ht
    have hne := Lexer.text_ne_nil_of_mem_lex (t := (t.kind, t.text)) (by rw [h]; simp)
    have hpos : t.text.size ≠ 0 := fun hzero => hne (Text.size_eq_zero.mp hzero)
    rw [decide_eq_true_eq]
    omega
  rw [wordsBefore, tokenize, h, Lexer.place_append_size, List.filter_append,
    List.filter_eq_self.mpr hfront, List.filter_eq_nil_iff.mpr hback, List.append_nil]
  exact map_place 0 ts

/-! ## Diagnostics of signs -/

theorem classification_of_plus {e : ParseError}
    (h : (Diagnostic.ofParseError e).category = .unexpectedPlus) :
    Classification.ofParseError e = Classification.ofParseError.plus := by
  obtain ⟨hplus, hcolon⟩ := Classification.isPlus_of_category h
  have hcategory : (Classification.ofParseError e).category = .unexpectedPlus := h
  unfold Classification.ofParseError at hcategory ⊢
  split <;> simp_all

theorem ofParseError_eq_of_plus {e e' : ParseError}
    (h : Classification.ofParseError e = Classification.ofParseError.plus)
    (h' : Classification.ofParseError e' = Classification.ofParseError.plus)
    (hrange : e.range = e'.range) : Diagnostic.ofParseError e = Diagnostic.ofParseError e' := by
  have hmessage : e.message .unexpectedPlus = e'.message .unexpectedPlus := rfl
  have hfixes : e.fixes .unexpectedPlus = e'.fixes .unexpectedPlus := by
    rw [ParseError.fixes, ParseError.fixes, ParseError.isMissing, ParseError.isMissing, hrange]
  simp only [Diagnostic.ofParseError, h, h', hrange, Classification.ofParseError.plus, hmessage,
    hfixes]

theorem classification_signError {plus number : Lexeme}
    (h : isSignedNumber plus.token number.token = true) :
    Classification.ofParseError (signError plus number) = Classification.ofParseError.plus := by
  have hplus : Classification.isPlus (signError plus number) = true := by
    obtain ⟨hkind, htext, -⟩ := isSignedNumber_eq_true.mp h
    rw [Classification.isPlus, Bool.and_eq_true]
    exact ⟨beq_iff_eq.mpr hkind, beq_iff_eq.mpr htext⟩
  rw [Classification.ofParseError, hplus]
  rfl

theorem fixes_signError {plus number : Lexeme} (h : isSignedNumber plus.token number.token = true)
    (hthere : (signError plus number).isMissing = false) :
    (Diagnostic.ofParseError (signError plus number)).fixes =
      [⟨"Remove '+'", [.delete ⟨(signError plus number).range.start,
        (signError plus number).range.start + 1⟩]⟩] := by
  have hcategory : (Classification.ofParseError (signError plus number)).category =
      .unexpectedPlus := congrArg Classification.category (classification_signError h)
  rw [Diagnostic.ofParseError, hcategory, ParseError.fixes, hthere]
  rfl

theorem exists_signedNode_of_tree {d : Draft} {n : Text} (h : Formed d)
    (htree : d.tree = .node (.node .invalidValue)
      [.leaf (.token .badCharacter) ['+'], .leaf (.token .number) n]) :
    ∃ plus number, d = signedNode plus number ∧
      isSignedNumber plus.token number.token = true ∧ number.token.text = n := by
  cases d with
  | leaf l =>
    rw [Draft.tree] at htree
    cases htree
  | node kind before first rest after =>
    obtain ⟨hlabel, hchildren⟩ := Tree.node.inj htree
    obtain ⟨hfirst, hrest⟩ := List.cons.inj hchildren
    obtain rfl := Label.node.inj hlabel
    generalize hd : node .invalidValue before first rest after = d at h
    cases h with
    | @signed plus number hsigned =>
      obtain ⟨-, rfl, rfl, rfl, rfl⟩ := Draft.node.inj hd
      -- the number comes last, behind what stands between the two
      have hlast : (leaf number).tree = .leaf (.token .number) n := by
        simpa [trees] using congrArg List.getLast? hrest
      exact ⟨plus, number, rfl, hsigned, (Tree.leaf.inj hlast).2⟩
    | tooDeep ho =>
      obtain ⟨-, -, rfl, -, -⟩ := Draft.node.inj hd
      have hkind := Label.token.inj (Tree.leaf.inj hfirst).1
      rw [Lexeme.kind, hkind] at ho
      exact absurd ho Bool.false_ne_true
    | invalid =>
      obtain ⟨-, -, -, rfl, -⟩ := Draft.node.inj hd
      exact absurd hrest (by simp [trees])
    | @closed _ c | @unclosed _ c => cases c <;> exact NodeKind.noConfusion (Draft.node.inj hd).1
    | @list _ c => cases c <;> exact NodeKind.noConfusion (Draft.node.inj hd).1
    | _ => exact NodeKind.noConfusion (Draft.node.inj hd).1

/-! ## Numbers where their signs were -/

/-- A number in the place of its sign. -/
def Lexeme.unsigned (plus number : Lexeme) : Lexeme where
  trivia := plus.trivia
  token := ⟨.number, ⟨plus.token.span.start, plus.token.span.start + number.token.text.size⟩,
    number.token.text⟩

namespace Parse

section
variable {source text : Text} {plus number : Lexeme} {place back : List Lexeme}
  {trailing : List (TokenKind × Text)}

theorem exists_lex_signed (hlexemes : lexemes source = place ++ plus :: number :: back)
    (hsigned : isSignedNumber plus.token number.token = true) :
    ∃ trailing : List (TokenKind × Text), (∀ t ∈ trailing, t.1.isTrivia = true) ∧
      Lexer.lex source = (spelled (place.map Lexeme.spelling) ++ plus.spelling.1) ++
        (.badCharacter, ['+']) :: (.number, number.token.text) ::
          (spelled (back.map Lexeme.spelling) ++ trailing) := by
  obtain ⟨trailing, hlex, htrailing⟩ := exists_lex_eq source
  have hp := placed_lexemes source
  rw [hlexemes] at hlex hp
  have hpair : [plus, number] <:+: place ++ plus :: number :: back := ⟨place, back, by simp⟩
  obtain ⟨hsign, hkind, hempty⟩ := (isSignedNumber_iff hp hpair).mp hsigned
  have hnone : number.spelling.1 = [] := by
    refine @Lexer.eq_nil_of_size_eq_zero source _ (fun t ht => ?_) hempty
    rw [hlex]
    simp [spelled, ht]
  have hnumber : number.spelling.2 = (.number, number.token.text) := Prod.ext hkind rfl
  refine ⟨trailing, htrailing, ?_⟩
  rw [hlex]
  simp [spelled, hnone, hnumber, hsign]

theorem placed_unsigned (hlexemes : lexemes source = place ++ plus :: number :: back)
    (hne : number.token.text ≠ []) : Placed 0 (place ++ [plus.unsigned number]) := by
  have hp := placed_lexemes source
  rw [hlexemes] at hp
  obtain ⟨hplace, hbehind⟩ := placed_append.mp hp
  obtain ⟨htiled, hvalid⟩ := placed_head hbehind
  obtain ⟨-, hstart⟩ := start_of_placed hbehind
  have hpos : 0 < number.token.text.size :=
    Nat.pos_of_ne_zero fun hzero => hne (Text.size_eq_zero.mp hzero)
  rw [List.flatMap_singleton, Lexeme.tokens, tiled_append] at htiled
  refine placed_append.mpr ⟨hplace, ?_, ?_⟩
  · rw [List.flatMap_singleton]
    refine tiled_append.mpr ⟨htiled.1, ?_, hpos, trivial⟩
    simp only [Lexeme.unsigned, hstart]
  · intro l hl
    obtain rfl := List.mem_singleton.mp hl
    exact ⟨(hvalid plus List.mem_cons_self).1, rfl⟩

theorem nodup_unsigned (hlexemes : lexemes source = place ++ plus :: number :: back)
    (hplus : plus.kind = .badCharacter) : (place ++ plus.unsigned number :: back).Nodup := by
  have hn := nodup_lexemes source
  have hsub : (place ++ back).Sublist (lexemes source) := by
    rw [hlexemes]
    exact (List.Sublist.refl place).append
      ((List.sublist_cons_self _ _).trans (List.sublist_cons_self _ _))
  refine List.nodup_middle.mpr (List.nodup_cons.mpr ⟨fun hmem => ?_, hn.sublist hsub⟩)
  have hsame : plus.unsigned number = plus :=
    eq_of_start_eq (hsub.subset hmem) (by rw [hlexemes]; simp) rfl
  have hkind : TokenKind.number = plus.kind := congrArg Lexeme.kind hsame
  exact absurd (hkind.trans hplus) nofun

theorem isSignedNumber_unsigned_iff (hlexemes : lexemes source = place ++ plus :: number :: back)
    (hne : number.token.text ≠ []) {l m : Lexeme}
    (hpair : [l, m] <:+: place ++ plus.unsigned number :: back) :
    isSignedNumber l.token m.token = true ↔ SpellsSigned l.spelling m.spelling := by
  have hp := placed_lexemes source
  rw [hlexemes] at hp
  obtain ⟨hplace, hbehind⟩ := placed_append.mp hp
  have hback : ∃ o, Placed o back :=
    ⟨_, (placed_cons (placed_cons hbehind).2.2.2).2.2.2⟩
  rcases pair_cases hpair with hpair | ⟨hlast, hhead⟩ | hpair
  · exact isSignedNumber_iff hplace hpair
  · obtain rfl := Option.some.inj hhead
    obtain ⟨init, rfl⟩ := List.getLast?_eq_some_iff.mp hlast
    exact isSignedNumber_iff (placed_unsigned hlexemes hne) ⟨init, [], by simp⟩
  · rcases List.infix_cons_iff.mp hpair with hfirst | hpair
    · obtain ⟨rfl, -⟩ := List.cons_prefix_cons.mp hfirst
      -- a number is no sign
      simp [isSignedNumber, SpellsSigned, Lexeme.unsigned, Lexeme.spelling, Token.word]
    · exact isSignedNumber_iff hback.choose_spec hpair

/-- A text with the tokens of another but for a sign is read as if the number stood where its sign
was. -/
theorem exists_recast_unsigned (hlexemes : lexemes source = place ++ plus :: number :: back)
    (hplus : plus.kind = .badCharacter) (hne : number.token.text ≠ [])
    (htrailing : ∀ t ∈ trailing, t.1.isTrivia = true)
    (hlex : Lexer.lex text = (spelled (place.map Lexeme.spelling) ++ plus.spelling.1) ++
      (.number, number.token.text) :: (spelled (back.map Lexeme.spelling) ++ trailing))
    (eof : Token) : ∃ m h, lexemes text = (place ++ plus.unsigned number :: back).map m ∧
      (∀ l ∈ place ++ plus.unsigned number :: back, (m l).spelling = l.spelling) ∧
      Recast (.relaid m h) .file (documentDrafts eof (place ++ plus.unsigned number :: back))
        (drafts text) := by
  have hvalid := (placed_lexemes source).2
  rw [hlexemes] at hvalid
  have hspelling : (lexemes text).map Lexeme.spelling =
      (place ++ plus.unsigned number :: back).map Lexeme.spelling := by
    refine map_spelling_lexemes (hlex.trans ?_) (fun u hu => ?_) htrailing
    · simp [spelled, Lexeme.unsigned, Lexeme.spelling, Token.word]
    · obtain ⟨l, hl, rfl⟩ := List.mem_map.mp hu
      refine isSpelling_spelling ?_
      rcases List.mem_append.mp hl with hl | hl
      · exact hvalid l (by simp [hl])
      rcases List.mem_cons.mp hl with rfl | hl
      · exact (placed_unsigned hlexemes hne).2 _ (by simp)
      · exact hvalid l (by simp [hl])
  obtain ⟨m, h, htext, hrecast⟩ := exists_recast_of_spelling eof
    (nodup_unsigned hlexemes hplus) hspelling fun _ _ => isSignedNumber_unsigned_iff hlexemes hne
  rw [htext, List.map_map] at hspelling
  exact ⟨m, h, htext, List.map_inj_left.mp hspelling, hrecast⟩

/-! ## Signs that are told of -/

theorem exists_signed {o : ValidationOptions} {n : Text} {d : Diagnostic} (hd : d ∈ check o source)
    (hs : d.IsSigned source n) : ∃ plus number place,
      Marked (.signed plus number) place (drafts source) ∧
        isSignedNumber plus.token number.token = true ∧ number.token.text = n ∧
        plus.token.span.start = d.range.start ∧ (signError plus number).isMissing = false ∧
        Diagnostic.ofParseError (signError plus number) = d := by
  obtain ⟨hcategory, s, hmem, hrange, htree⟩ := hs
  obtain ⟨e, -, rfl⟩ := exists_error_of_mem_check hd (by rw [hcategory]; rfl)
  rw [sites_parse] at hmem
  rcases List.mem_cons.mp hmem with rfl | hmem
  · exact absurd htree nofun
  obtain ⟨x, hx, rfl⟩ := List.mem_map.mp hmem
  obtain ⟨plus, number, hdraft, hsigned, hnumber⟩ :=
    exists_signedNode_of_tree (formed_of_mem_standings hx) htree
  obtain ⟨place, hmarked⟩ := exists_marked_of_mem (m := .signed plus number) ⟨rfl, hdraft⟩ 0 []
    (drafts source) hx
  have hp := isPlaced_of_mem_standings hx
  have hsite := range_siteOf hp x.before
  rw [show siteOf x.offset x.before x.draft = x.site from rfl, hrange, hdraft] at hsite
  rw [Standing.IsPlaced, hdraft] at hp
  have hbounds := bounds_of_placed hp
  have hcover : (signError plus number).range = e.range :=
    (cover_of_isSignedNumber hsigned (Nat.le_of_lt (hbounds plus (by simp [signedNode])).2.1)
      (Nat.le_of_lt (hbounds number (by simp [signedNode])).2.1)).trans hsite.symm
  refine ⟨plus, number, place, by simpa using hmarked, hsigned, hnumber,
    (congrArg Span.start hsite).symm, ?_, ?_⟩
  · rw [ParseError.isMissing, hcover]
    exact (congrArg Span.isEmpty hsite).trans (isEmpty_range hp)
  · exact ofParseError_eq_of_plus (classification_signError hsigned)
      (classification_of_plus hcategory) hcover

/-- A number that is read in the place of its sign is a value there. -/
theorem hasNumber_of_recast {m : Lexeme → Lexeme} {h : ∀ l, (m l).kind = l.kind} {ds : List Draft}
    (hlexemes : lexemes source = place ++ plus :: number :: back)
    (htext : lexemes text = (place ++ plus.unsigned number :: back).map m)
    (hspelling : ∀ l ∈ place ++ plus.unsigned number :: back, (m l).spelling = l.spelling)
    (hrecast : Recast (.relaid m h) .file ds (drafts text))
    (hvalue : ¬ EveryNode (· ≠ numberValue (plus.unsigned number)) ds) :
    (parse text).HasNumber number.token.text plus.token.span.start := by
  obtain ⟨x, hx, hdraft⟩ : ∃ x ∈ standingsRow 0 [] ds,
      x.draft = numberValue (plus.unsigned number) := by
    by_contra hnone
    exact hvalue ((everyNode_iff 0 []).mpr fun x hx heq => hnone ⟨x, hx, heq⟩)
  obtain ⟨y, hy, hrenews⟩ := exists_standing_of_recast (fun _ => rfl) hrecast hx
  have hy : y ∈ standings text := hy
  rw [hdraft] at hrenews
  obtain ⟨before, first, rest, after, hnode, hparts⟩ := hrenews.exists_node
  have hrow := eq_of_recast_leaf (fun _ => rfl) hparts
  obtain ⟨rfl, rfl⟩ := List.cons.inj hrow
  have hself := hspelling (plus.unsigned number) (by simp)
  have hword : (m (plus.unsigned number)).token.word = (.number, number.token.text) :=
    congrArg Prod.snd hself
  obtain ⟨hkind, htoken⟩ := Prod.mk.inj hword
  refine ⟨y.site, ?_, ?_, ?_⟩
  · rw [sites_parse]
    exact List.mem_cons_of_mem _ (List.mem_map_of_mem hy)
  · -- what is in front of the number is as long as it was in front of the sign
    rw [y.offset_site (isPlaced_of_mem_standings hy), hnode]
    have hold := placed_lexemes source
    have hnew := placed_lexemes text
    rw [hlexemes] at hold
    rw [htext, List.map_append, List.map_cons] at hnew
    have hplace : (place.map m).map Lexeme.spelling = place.map Lexeme.spelling := by
      rw [List.map_map]
      exact List.map_congr_left fun l hl => hspelling l (List.mem_append_left _ hl)
    rw [start_eq_size_spelled hold]
    refine (start_eq_size_spelled hnew).trans ?_
    rw [hplace, hself]
    rfl
  · rw [Standing.site, tree_siteOf, hnode]
    show Tree.node _ [.leaf (.token (m (plus.unsigned number)).token.kind)
      (m (plus.unsigned number)).token.text] = _
    rw [hkind, htoken]

theorem getLast?_of_taken (hlexemes : lexemes source = place ++ plus :: number :: back)
    (hne : number.token.text ≠ []) {l : Lexeme} (hl : l ∈ place.getLast?)
    (hsigned : isSignedNumber l.token (plus.unsigned number).token = true) :
    (spelled (place.map Lexeme.spelling) ++ plus.spelling.1).getLast? =
      some (.badCharacter, ['+']) := by
  obtain ⟨init, rfl⟩ := List.getLast?_eq_some_iff.mp hl
  obtain ⟨hsign, -, hempty⟩ :=
    (isSignedNumber_unsigned_iff hlexemes hne ⟨init, back, by simp⟩).mp hsigned
  obtain ⟨trailing, hlex, -⟩ := exists_lex_eq source
  have hnone : plus.spelling.1 = [] := by
    refine @Lexer.eq_nil_of_size_eq_zero source _ (fun t ht => ?_) hempty
    rw [hlex, hlexemes]
    simp [spelled, ht]
  simp [hnone, spelled, hsign]

/-- If all other tokens stay when a sign goes, no other mistake comes or goes. The number is a value
then, or the sign directly in front takes it. -/
theorem exists_reading_unsigned (hmarked : Marked (.signed plus number) place (drafts source))
    (hsigned : isSignedNumber plus.token number.token = true) : ∃ (i : Nat)
      (ts us : List (TokenKind × Text)),
      Lexer.lex source = ts ++ (.badCharacter, ['+']) :: (.number, number.token.text) :: us ∧
      plus.token.span.start = Text.size (ts.flatMap (·.2)) ∧
      (parse source).errors[i]? = some (signError plus number) ∧
      ∀ text, Lexer.lex text = ts ++ (.number, number.token.text) :: us →
        (parse text).expectations = (parse source).expectations.eraseIdx i ∧
          ((parse text).HasNumber number.token.text plus.token.span.start ∨
            ts.getLast? = some (.badCharacter, ['+'])) := by
  have hplus : plus.kind = .badCharacter := (isSignedNumber_eq_true.mp hsigned).1
  obtain ⟨back, hlexemes, hunsigned⟩ := exists_documentDrafts_unsigned hplus
    (show (plus.unsigned number).kind = .number from rfl) hmarked
  have hlexemes : lexemes source = place ++ plus :: number :: back := hlexemes
  obtain ⟨trailing, htrailing, hlex⟩ := exists_lex_signed hlexemes hsigned
  have hne : number.token.text ≠ [] :=
    @Lexer.text_ne_nil_of_mem_lex source (.number, number.token.text) (by rw [hlex]; simp)
  have hplaced := placed_lexemes source
  rw [hlexemes] at hplaced
  obtain ⟨front, behind, herrors, hexpected⟩ := hunsigned.errors
  have herrors : (parse source).errors = front ++ signError plus number :: behind := herrors
  refine ⟨front.length, _, _, hlex, start_eq_size_spelled hplaced, by simp [herrors],
    fun text hlexed => ?_⟩
  obtain ⟨m, h, htext, hspelling, hrecast⟩ := exists_recast_unsigned hlexemes hplus hne htrailing
    hlexed (Lexemes.ofTokens (tokenize source) source.size).eof
  constructor
  · have hsame : (parse text).expectations = _ := map_expected_of_relaid hrecast
    rw [hsame, show List.map _ _ = _ from hexpected, expectations, herrors]
    simp [List.eraseIdx_append_of_length_le]
  · rcases hunsigned.value with hvalue | ⟨l, hl, htaken⟩
    · exact .inl (hasNumber_of_recast hlexemes htext hspelling hrecast hvalue)
    · exact .inr (getLast?_of_taken hlexemes hne hl htaken)

end

end Parse

/-! ## What the fix resolves -/

namespace Lexer

section
variable {source n : Text} {ts us : List (TokenKind × Text)}
  (h : lex source = ts ++ (.badCharacter, ['+']) :: (.number, n) :: us)
include h

theorem applyEdits_unsigned :
    applyEdits source [.delete ⟨Text.size (ts.flatMap (·.2)), Text.size (ts.flatMap (·.2)) + 1⟩] =
      .ok (ts.flatMap (·.2) ++ (n ++ us.flatMap (·.2))) := by
  rw [eq_of_lex_signed h]
  exact applyEdits_replace (ts.flatMap (·.2)) ['+'] [] (n ++ us.flatMap (·.2))

theorem exists_significant_unsigned_iff {text : Text} :
    (∃ front plus back, significant source = front ++ plus :: back ∧
      plus.word = (.badCharacter, ['+']) ∧ plus.span.start = Text.size (ts.flatMap (·.2)) ∧
      (significant text).map Token.word = front.map Token.word ++ back.map Token.word) ↔
    (lex text).filter (!·.1.isTrivia) = (ts ++ (.number, n) :: us).filter (!·.1.isTrivia) := by
  obtain ⟨front, plus, back, hsplit, hword, hstart, hfront, hback⟩ := exists_significant_around h rfl
  rw [List.filter_append, ← hfront, ← hback, ← map_word_significant]
  constructor
  · rintro ⟨front', plus', back', hsplit', -, hstart', hwords⟩
    obtain rfl := eq_of_significant_eq hsplit hsplit' (hstart.trans hstart'.symm)
    rw [hsplit, List.append_cancel_left_eq] at hsplit'
    obtain ⟨-, rfl⟩ := List.cons.inj hsplit'
    exact hwords
  · exact fun hwords => ⟨front, plus, back, hsplit, hword, hstart, hwords⟩

end

end Lexer

/-- The fix that takes a plus sign away from a number resolves its mistake and touches nothing else
exactly if no token in front of the sign goes on with the number. Then the number is a value, or
belongs to another plus sign directly in front of it. -/
theorem plus_fix_resolves_iff {o : ValidationOptions} {source number : Text} {d : Diagnostic}
    (hclosed : ∀ t ∈ tokenize source, t.kind ≠ .unterminatedString)
    (hd : d ∈ check o source) (hs : d.IsSigned source number) :
    ∃ i e fix text, (parse source).errors[i]? = some e ∧ Diagnostic.ofParseError e = d ∧
      d.fixes = [fix] ∧ fix.title = "Remove '+'" ∧ fix.apply source = .ok text ∧
      (RemovesPlus source text d.range.start i ↔
        ¬ Lexer.Joins number (wordsBefore source d.range.start)) ∧
      (RemovesPlus source text d.range.start i →
        (parse text).HasNumber number d.range.start ∨
          (wordsBefore source d.range.start).getLast? = some (.badCharacter, ['+'])) := by
  obtain ⟨plus, n, place, hmarked, hsigned, rfl, hstart, hthere, rfl⟩ := Parse.exists_signed hd hs
  obtain ⟨i, ts, us, hlex, hoffset, hi, hread⟩ := Parse.exists_reading_unsigned hmarked hsigned
  let text := ts.flatMap (·.2) ++ (n.token.text ++ us.flatMap (·.2))
  rw [hoffset] at hread
  have hrange : (signError plus n).range.start = Text.size (ts.flatMap (·.2)) :=
    hstart.symm.trans hoffset
  have hwords := wordsBefore_eq hlex
  have hunsigned := Lexer.lex_unsigned_iff hlex (all_closed_lex hclosed)
  have htokens := @Lexer.exists_significant_unsigned_iff _ _ _ _ hlex text
  have hlexed (h : RemovesPlus source text (Text.size (ts.flatMap (·.2))) i) :
      Lexer.lex text = ts ++ (.number, n.token.text) :: us :=
    Lexer.lex_unsigned_of_filter hlex (htokens.mp h.tokens)
  refine ⟨i, _, _, text, hi, rfl, fixes_signError hsigned hthere, rfl, ?_, ?_⟩
  · rw [hrange]
    exact Lexer.applyEdits_unsigned hlex
  show (RemovesPlus source text (signError plus n).range.start i ↔ _) ∧ (_ → _)
  rw [show (Diagnostic.ofParseError (signError plus n)).range.start = _ from hrange, hrange, hwords]
  constructor
  · exact ⟨fun h => hunsigned.mp (hlexed h), fun h => ⟨htokens.mpr (by rw [hunsigned.mpr h]),
      (hread text (hunsigned.mpr h)).1⟩⟩
  · exact fun h => (hread text (hlexed h)).2

/-- The number of an array. -/
theorem plus_fix_resolves_iff_in_array :
    let source : Text := ['[', '+', '1', ']']
    let d := Diagnostic.ofParseError ⟨.value, .badCharacter, ['+'], ⟨1, 3⟩⟩
    (∀ t ∈ tokenize source, t.kind ≠ .unterminatedString) ∧ d ∈ check .default source ∧
      d.IsSigned source ['1'] ∧
      ∃ i e fix text, (parse source).errors[i]? = some e ∧ Diagnostic.ofParseError e = d ∧
        d.fixes = [fix] ∧ fix.title = "Remove '+'" ∧ fix.apply source = .ok text ∧
        (RemovesPlus source text d.range.start i ↔
          ¬ Lexer.Joins ['1'] (wordsBefore source d.range.start)) ∧
        (RemovesPlus source text d.range.start i →
          (parse text).HasNumber ['1'] d.range.start ∨
            (wordsBefore source d.range.start).getLast? = some (.badCharacter, ['+'])) := by
  have hclosed : ∀ t ∈ tokenize ['[', '+', '1', ']'], t.kind ≠ .unterminatedString := by
    decide +kernel
  have hd : Diagnostic.ofParseError ⟨.value, .badCharacter, ['+'], ⟨1, 3⟩⟩ ∈
      check .default ['[', '+', '1', ']'] := by decide +kernel
  have hs : (Diagnostic.ofParseError ⟨.value, .badCharacter, ['+'], ⟨1, 3⟩⟩).IsSigned
      ['[', '+', '1', ']'] ['1'] := by
    refine ⟨rfl, ⟨1, [some ['[']], .node (.node .invalidValue)
      [.leaf (.token .badCharacter) ['+'], .leaf (.token .number) ['1']]⟩, ?_, rfl, rfl⟩
    exact List.mem_of_getElem? (show _[5]? = some _ by with_unfolding_all rfl)
  exact ⟨hclosed, hd, hs, plus_fix_resolves_iff hclosed hd hs⟩

/-- Behind a minus sign a number does not stay when its plus sign goes: the text that the fix makes
has three significant tokens, where four are to be left. -/
theorem not_removesPlus_behind_minus :
    let source : Text := ['[', '-', '+', '1', ']']
    let text : Text := ['[', '-', '1', ']']
    let d := Diagnostic.ofParseError ⟨.value, .badCharacter, ['+'], ⟨2, 4⟩⟩
    (∀ t ∈ tokenize source, t.kind ≠ .unterminatedString) ∧ d ∈ check .default source ∧
      d.IsSigned source ['1'] ∧ (∀ fix ∈ d.fixes, fix.apply source = .ok text) ∧
      ∀ i, ¬ RemovesPlus source text d.range.start i := by
  refine ⟨by decide +kernel, by decide +kernel, ⟨rfl, ⟨2, [some ['-'], some ['[']],
    .node (.node .invalidValue) [.leaf (.token .badCharacter) ['+'], .leaf (.token .number) ['1']]⟩,
    List.mem_of_getElem? (show _[7]? = some _ by with_unfolding_all rfl), rfl, rfl⟩, ?_, fun i h => ?_⟩
  · intro fix hfix
    obtain rfl := List.mem_singleton.mp hfix
    rfl
  · obtain ⟨front, plus, back, hsplit, -, -, hwords⟩ := h.tokens
    have hfive : (significant ['[', '-', '+', '1', ']']).length = 5 := by decide +kernel
    have hthree : (significant ['[', '-', '1', ']']).length = 3 := by decide +kernel
    have hlength := congrArg List.length hwords
    have hsource := congrArg List.length hsplit
    simp only [List.length_map, List.length_append, List.length_cons] at hlength hsource
    omega

end Maml
