import Maml.Gap
import Maml.Proofs.Forms
import Maml.Proofs.Siblings
import Maml.Proofs.Options
import Maml.Proofs.Spots
import Maml.Proofs.Words

/-! Missing commas are gaps of spaces and tabs.

1. A comment of a text is followed by a line break, if by anything
   (`isChain_endsComment_lex`), and only whitespace is made of blanks. So the trivia in front
   of a significant token is spaces and tabs exactly if it has no line break, and the token
   itself is not (`Parse.isSpelled_of_mem_lexemes`).
2. So on the way through a list what was seen behind an element is spaces and tabs exactly if
   there was no comma, no line break and no node of another kind (`filter_gapsFrom`).
3. The missing commas of a document are the gaps of spaces and tabs in its lists
   (`missing_commas_are_inline_gaps`). -/
namespace Maml

namespace Text

@[simp] theorem isInline_nil : isInline [] = true := rfl

@[simp] theorem isInline_append (a b : Text) :
    isInline (a ++ b) = (isInline a && isInline b) :=
  List.all_append

end Text

/-! ## Tokens -/

namespace Lexer

theorem isInline_of_isBlank {text : Text} (h : ∀ c ∈ text, isBlank c = true) :
    text.isInline = !text.any isLineBreak := by
  induction text with
  | nil => rfl
  | cons c cs ih =>
    have hinline : (c == ' ' || c == '\t') = !isLineBreak c := by
      have hc : c = ' ' ∨ c = '\t' ∨ c = '\n' ∨ c = '\r' := by
        simpa only [isBlank, isLineBreak, Bool.or_eq_true, beq_iff_eq, or_assoc] using
          h c List.mem_cons_self
      rcases hc with rfl | rfl | rfl | rfl <;> rfl
    have hcs := ih fun d hd => h d (List.mem_cons_of_mem _ hd)
    rw [Text.isInline] at hcs ⊢
    rw [List.all_cons, List.any_cons, hinline, hcs, Bool.not_or]

theorem isInline_cons_of_not_isBlank {c : Char} (h : ¬ isBlank c = true) (cs : Text) :
    Text.isInline (c :: cs) = false := by
  have hc : (c == ' ' || c == '\t') = false := by
    rw [isBlank, Bool.or_eq_true, not_or] at h
    exact Bool.eq_false_iff.mpr h.1
  rw [Text.isInline, List.all_cons, hc, Bool.false_and]

/-- Only whitespace is made of blanks, and it is made of nothing else. -/
theorem isInline_of_mem_lex {text : Text} {t : TokenKind × Text} (h : t ∈ lex text) :
    t.2.isInline = (t.1 == .whitespace && !t.2.any isLineBreak) := by
  induction text using lex.induct with
  | case1 => simp [lex] at h
  | case2 c cs ih =>
    rw [lex_cons, List.mem_cons] at h
    rcases h with rfl | h
    · by_cases hblank : isBlank c = true
      · rw [scan_of_isBlank hblank]
        refine isInline_of_isBlank ?_
        intro d hd
        rcases List.mem_cons.mp hd with rfl | hd
        · exact hblank
        · exact List.all_eq_true.mp List.all_takeWhile d hd
      · rw [isInline_cons_of_not_isBlank hblank]
        have hkind : (scan c cs).1 ≠ .whitespace := by
          intro hspace
          have htrivia : (scan c cs).1.isTrivia = true := by
            rw [hspace]
            rfl
          rcases scan_of_isTrivia htrivia with ⟨hc, -⟩ | ⟨-, hcomment⟩
          · exact hblank hc
          · rw [hcomment] at hspace
            exact absurd hspace (by simp)
        simp [hkind]
    · exact ih h

/-- Whether a token is whitespace with a line break if the one in front of it is a comment. -/
def EndsComment (t u : TokenKind × Text) : Prop :=
  t.1 = .comment → u.1 = .whitespace ∧ u.2.any isLineBreak = true

/-- A comment is followed by a line break, if by anything. -/
theorem isChain_endsComment_lex (text : Text) : (lex text).IsChain EndsComment := by
  induction text using lex.induct with
  | case1 =>
    rw [lex]
    exact .nil
  | case2 c cs ih =>
    rw [lex_cons, List.isChain_cons]
    refine ⟨?_, ih⟩
    intro u hu hcomment
    have hcomment : (scan c cs).1 = .comment := hcomment
    have htrivia : (scan c cs).1.isTrivia = true := by
      rw [hcomment]
      rfl
    rcases scan_of_isTrivia htrivia with ⟨-, hscan⟩ | ⟨-, hscan⟩
    · rw [hscan] at hcomment
      exact absurd hcomment (by simp)
    · -- what is behind the comment begins with the line break
      have hdrop : cs.drop (cs.takeWhile (!isLineBreak ·)).length =
          cs.dropWhile (!isLineBreak ·) := by
        have hsplit := cs.takeWhile_append_dropWhile (p := (!isLineBreak ·))
        calc cs.drop (cs.takeWhile (!isLineBreak ·)).length
            = (cs.takeWhile (!isLineBreak ·) ++ cs.dropWhile (!isLineBreak ·)).drop
                (cs.takeWhile (!isLineBreak ·)).length := by rw [hsplit]
          _ = cs.dropWhile (!isLineBreak ·) := List.drop_left
      rw [hscan, hdrop] at hu
      cases hrest : cs.dropWhile (!isLineBreak ·) with
      | nil =>
        rw [hrest, lex] at hu
        simp at hu
      | cons d ds =>
        have hd : isLineBreak d = true := by
          have hhead := List.head?_dropWhile_not (!isLineBreak ·) cs
          rw [hrest] at hhead
          simpa using hhead
        rw [hrest, lex_cons, scan_of_isBlank (isBlank_of_isLineBreak hd)] at hu
        obtain rfl := Option.some.inj hu
        exact ⟨rfl, by rw [List.any_cons, hd]; rfl⟩

end Lexer

open Lexer

/-! ## Lexemes -/

/-- Whether the trivia in front of a significant token is spaces and tabs exactly if it has no line
break, and the token itself is not. -/
def Lexeme.IsSpelled (l : Lexeme) : Prop :=
  Text.isInline (l.trivia.flatMap Token.text) = !l.onNewLine ∧ l.token.text.isInline = false

/-- Trivia in front of a significant token has a line break unless it is spaces and tabs. -/
theorem isInline_trivia {ts : List Token} {t : Token}
    (hchain : (ts ++ [t]).IsChain fun u v => EndsComment (u.kind, u.text) (v.kind, v.text))
    (hinline : ∀ u ∈ ts, u.text.isInline = (u.kind == .whitespace && !u.text.any isLineBreak))
    (hts : ∀ u ∈ ts, u.isTrivia = true) (ht : t.isTrivia = false) :
    Text.isInline (ts.flatMap Token.text) = !Lexeme.onNewLine ⟨ts, t⟩ := by
  induction ts with
  | nil => rfl
  | cons u ts ih =>
    obtain ⟨hhead, htail⟩ := List.isChain_cons.mp hchain
    have hrest := ih htail (fun v hv => hinline v (List.mem_cons_of_mem _ hv))
      fun v hv => hts v (List.mem_cons_of_mem _ hv)
    have hline : Lexeme.onNewLine ⟨u :: ts, t⟩ =
        ((u.kind == .whitespace && u.text.any isLineBreak) || Lexeme.onNewLine ⟨ts, t⟩) := rfl
    rw [List.flatMap_cons, Text.isInline_append, hrest, hinline u List.mem_cons_self, hline,
      Bool.not_or]
    by_cases hspace : u.kind = .whitespace
    · simp [hspace]
    · -- a comment is no spaces and tabs, and a line break follows it
      have hcomment : u.kind = .comment := by
        have htrivia : u.kind.isTrivia = true := hts u List.mem_cons_self
        revert htrivia hspace
        cases u.kind <;> simp [TokenKind.isTrivia]
      have hbreak : Lexeme.onNewLine ⟨ts, t⟩ = true := by
        cases ts with
        | nil =>
          have hkind : t.kind = .whitespace := (hhead t rfl hcomment).1
          have htrivia : t.kind.isTrivia = false := ht
          rw [hkind] at htrivia
          exact absurd htrivia.symm Bool.false_ne_true
        | cons v ts =>
          obtain ⟨hkind, hany⟩ := hhead v rfl hcomment
          have hkind : v.kind = .whitespace := hkind
          have hany : v.text.any isLineBreak = true := hany
          simp [Lexeme.onNewLine, hkind, hany]
      simp [hbreak]

namespace Parse

theorem tokens_isInfix {source : Text} {l : Lexeme} (h : l ∈ lexemes source) :
    l.tokens <:+: tokenize source := by
  obtain ⟨front, back, hlexemes⟩ := List.append_of_mem h
  have htokens := @Lexemes.tokens_ofTokens (tokenize source)
    (fun _ ht => kind_ne_eof_of_mem_tokenize ht) source.size
  rw [lexemes] at hlexemes
  rw [hlexemes, List.flatMap_append, List.flatMap_cons] at htokens
  exact ⟨front.flatMap Lexeme.tokens, back.flatMap Lexeme.tokens ++ _, by
    simpa using htokens⟩

theorem isSpelled_of_mem_lexemes {source : Text} {l : Lexeme} (h : l ∈ lexemes source) :
    l.IsSpelled := by
  have hinfix := tokens_isInfix h
  have hvalid : l.Valid := (placed_tokenize source).2 l h
  have hinline : ∀ t ∈ l.tokens,
      t.text.isInline = (t.kind == .whitespace && !t.text.any isLineBreak) := by
    intro t ht
    have hmem := List.mem_map_of_mem (f := fun t : Token => (t.kind, t.text))
      (List.IsInfix.subset hinfix ht)
    rw [tokenize, map_place] at hmem
    exact isInline_of_mem_lex hmem
  have hchain : (tokenize source).IsChain fun u v =>
      EndsComment (u.kind, u.text) (v.kind, v.text) := by
    have hlex := isChain_endsComment_lex source
    rw [← map_place 0 (lex source), List.isChain_map] at hlex
    exact hlex
  have hown : l.tokens.IsChain fun u v => EndsComment (u.kind, u.text) (v.kind, v.text) :=
    List.IsChain.infix hchain hinfix
  refine ⟨isInline_trivia hown
    (fun u hu => hinline u (List.mem_append_left _ hu)) hvalid.1 hvalid.2, ?_⟩
  rw [hinline l.token (List.mem_append_right _ List.mem_cons_self)]
  have hkind : (l.token.kind == .whitespace) = false := by
    apply beq_false_of_ne
    intro hspace
    have htrivia : l.token.kind.isTrivia = false := hvalid.2
    rw [hspace] at htrivia
    exact absurd htrivia.symm Bool.false_ne_true
  rw [hkind, Bool.false_and]

end Parse

def Lexeme.text (l : Lexeme) : Text := l.tokens.flatMap Token.text

theorem Token.size_flatMap_text (ts : List Token) :
    Text.size (ts.flatMap text) = sizeList ts := by
  induction ts with
  | nil => rfl
  | cons t ts ih => rw [List.flatMap_cons, Text.size_append, ih, sizeList_cons]

theorem Lexeme.size_flatMap_text (ls : List Lexeme) :
    Text.size (ls.flatMap text) = sizeList ls := by
  rw [sizeList, ← Token.size_flatMap_text, List.flatMap_assoc]
  rfl

/-! ## Gaps in rows -/

open Draft Validation

namespace Draft

theorem gapsFrom_trivia (kind : NodeKind) (previous : Option Site) (ts : List Token)
    (sites : List Site) (o : Nat) (b : List (Option Text)) :
    Site.gapsFrom kind previous (Site.row o b (ts.map tokenLeaf) ++ sites) =
      Site.gapsFrom kind previous sites := by
  induction ts generalizing o b with
  | nil => rfl
  | cons t ts ih => exact ih _ _

/-- What was seen behind the last element of a row, which ends where the text `since` begins: that
text is spaces and tabs exactly if nothing was seen that separates it from the next one. -/
structure Seen (previous : Option Site) (first : Option Draft) (comma : Option Lexeme)
    (lineBreak : Bool) (since : Text) : Prop where
  stop_eq : ∀ d ∈ first, ∃ s ∈ previous, s.stop = d.lastToken.span.stop
  inline : ∀ s ∈ previous, since.isInline = (first.isSome && comma.isNone && !lineBreak)

section
variable {source front since back : Text} {ls : List Lexeme}

theorem isInlineIn_append (a b c : Text) :
    Span.isInlineIn ⟨a.size, a.size + b.size⟩ (a ++ b ++ c) = b.isInline := by
  rw [Span.isInlineIn, Text.slice?_size]
  rfl

theorem isInline_lexemes {d : Draft} (h : d.firstLexeme.IsSpelled) :
    Text.isInline (d.lexemes.flatMap Lexeme.text) = false := by
  obtain ⟨ls, hls⟩ := exists_lexemes_eq_cons d
  rw [hls, List.flatMap_cons, Lexeme.text, Lexeme.tokens, List.flatMap_append,
    List.flatMap_singleton]
  simp [h.2]

/-- The gap in front of an element is one of spaces and tabs exactly if a comma is missing there. -/
theorem filter_gap {o : Nat} (b : List (Option Text)) {d : Draft} {previous : Option Site}
    {first : Option Draft} {comma : Option Lexeme} {lineBreak : Bool} (hd : Placed o d.lexemes)
    (hfirst : d.firstLexeme.IsSpelled)
    (hsource : source = front ++ (since ++ d.trivia.flatMap Token.text) ++ back)
    (ho : o = Text.size (front ++ since)) (hstop : ∀ s ∈ previous, s.stop = front.size)
    (hseen : Seen previous first comma lineBreak since) :
    (previous.map fun p => (⟨p.stop, (siteOf o b d).offset⟩ : Span)).toList.filter
        (·.isInlineIn source) =
      ((if lineBreak || d.firstLexeme.onNewLine then []
        else first.toList.map fun p => (⟨p, comma, d⟩ : Siblings)).filter
          (·.comma.isNone)).map Siblings.gap := by
  cases previous with
  | none =>
    have hnone : first = none := by
      cases first with
      | none => rfl
      | some d =>
        obtain ⟨s, hs, -⟩ := hseen.stop_eq d rfl
        exact absurd hs (by simp)
    simp [hnone]
  | some s =>
    have hgap : (⟨s.stop, (siteOf o b d).offset⟩ : Span) =
        ⟨front.size, front.size + Text.size (since ++ d.trivia.flatMap Token.text)⟩ := by
      have htrivia : Text.size (d.trivia.flatMap Token.text) = Token.sizeList d.trivia :=
        Token.size_flatMap_text _
      rw [hstop s rfl, Text.size_append since, htrivia, ← Nat.add_assoc]
      rw [Text.size_append] at ho
      rw [← ho]
      rfl
    have hinline : Span.isInlineIn ⟨s.stop, (siteOf o b d).offset⟩ source =
        (first.isSome && comma.isNone && !(lineBreak || d.firstLexeme.onNewLine)) := by
      have htrivia : Text.isInline (d.trivia.flatMap Token.text) = !d.firstLexeme.onNewLine :=
        hfirst.1
      rw [hgap, hsource, isInlineIn_append, Text.isInline_append, htrivia, hseen.inline s rfl,
        Bool.not_or, Bool.and_assoc]
    have hstart := offset_siteOf_of_placed hd b
    cases first with
    | none => simp [hinline]
    | some p =>
      have hend : s.stop = p.lastToken.span.stop := by
        obtain ⟨s', hs', hstop'⟩ := hseen.stop_eq p rfl
        obtain rfl := Option.some.inj hs'
        exact hstop'
      rw [Option.map_some, Option.toList_some, hend, hstart]
      rw [hend, hstart] at hinline
      cases comma <;> cases hbroken : (lineBreak || d.firstLexeme.onNewLine) <;>
        simp [hinline, hbroken, Siblings.gap]

/-- The gaps of spaces and tabs in a row of elements, commas and other nodes are those in which a
comma is missing. -/
theorem filter_gapsFrom (kind : NodeKind) {ds : List Draft} :
    ∀ {o : Nat} (b : List (Option Text)) {front since : Text} {previous : Option Site}
      {first : Option Draft} {comma : Option Lexeme} {lineBreak : Bool},
      (∀ l, leaf l ∈ ds → l.kind = .comma) → (∀ l ∈ lexemesList ds, l.IsSpelled) →
      Placed o (lexemesList ds) →
      source = front ++ since ++ (lexemesList ds).flatMap Lexeme.text ++ back →
      o = Text.size (front ++ since) → (∀ s ∈ previous, s.stop = front.size) →
      Seen previous first comma lineBreak since →
      (Site.gapsFrom kind previous (Site.row o b (trees ds))).filter (·.isInlineIn source) =
        ((siblings kind first comma lineBreak ds).filter (·.comma.isNone)).map Siblings.gap := by
  induction ds with
  | nil => intros; rfl
  | cons d ds ih =>
    intro o b front since previous first comma lineBreak hcommas hspelled hp hsource ho hstop hseen
    rw [lexemesList_cons] at hp hspelled
    obtain ⟨hd, hds⟩ := placed_append.mp hp
    obtain ⟨ls, hls⟩ := exists_lexemes_eq_cons d
    have hfirst : d.firstLexeme.IsSpelled :=
      hspelled _ (List.mem_append_left _ (by rw [hls]; exact List.mem_cons_self))
    have hcommas' := fun l hl => hcommas l (List.mem_cons_of_mem _ hl)
    have hspelled' := fun l hl => hspelled l (List.mem_append_right _ hl)
    have hsize : o + Lexeme.sizeList d.lexemes =
        Text.size (front ++ (since ++ d.lexemes.flatMap Lexeme.text)) := by
      rw [← List.append_assoc, Text.size_append, Lexeme.size_flatMap_text, ho]
    have hsource' : source = front ++ (since ++ d.lexemes.flatMap Lexeme.text) ++
        (lexemesList ds).flatMap Lexeme.text ++ back := by
      rw [hsource, lexemesList_cons, List.flatMap_append]
      simp only [List.append_assoc]
    -- a node or a comma is more than spaces and tabs
    have hmore : (since ++ d.lexemes.flatMap Lexeme.text).isInline = false := by
      rw [Text.isInline_append, isInline_lexemes hfirst, Bool.and_false]
    rw [row_trees_cons, gapsFrom_trivia]
    cases d with
    | leaf l =>
      have hcomma : l.kind = .comma := hcommas l List.mem_cons_self
      rw [siblings, if_pos hcomma]
      refine ih _ hcommas' hspelled' hds hsource' hsize hstop ?_
      exact ⟨hseen.stop_eq, fun s hs => by simpa using hmore⟩
    | node k before parts rest after =>
      have hkind : (siteOf o b (node k before parts rest after)).tree.isNodeOf kind =
          (k == kind) := isNodeOf_node k kind before after parts rest
      rw [siblings, Site.gapsFrom, hkind]
      by_cases hk : k = kind
      · -- from here on, what is behind this element is seen
        generalize hnode : node k before parts rest after = d at *
        have hseen' : Seen (some (siteOf o b d)) (some d) none false [] :=
          ⟨by simpa using (stop_siteOf_of_placed hd b), by simp⟩
        have hrest := ih (slotsBehind b d) hcommas' hspelled' hds
          (show source = (front ++ (since ++ d.lexemes.flatMap Lexeme.text)) ++ [] ++ _ ++ back by
            simpa using hsource')
          (by simpa using hsize) (by simpa [stop_siteOf] using hsize) hseen'
        have hsource'' : source = front ++ (since ++ d.trivia.flatMap Token.text) ++
            (d.firstToken.text ++ ls.flatMap Lexeme.text ++
              ((lexemesList ds).flatMap Lexeme.text ++ back)) := by
          rw [hsource', hls]
          simp [Lexeme.text, Lexeme.tokens, trivia, firstToken]
        have hgap := filter_gap b hd hfirst hsource'' ho hstop hseen
        rw [if_pos (by simpa using hk), if_pos hk, List.filter_append, List.filter_append,
          List.map_append, hgap, hrest]
      · rw [if_neg (by simpa using hk), if_neg hk]
        refine ih _ hcommas' hspelled' hds hsource' hsize hstop ?_
        exact ⟨by simp, fun s hs => by simpa using hmore⟩

end

/-- The drafts of a list that are tokens are commas. -/
theorem kind_of_leaf_mem {e : List Container} {c : Container} {separated : Bool} {ds : List Draft}
    (h : Shaped e (.list c separated) ds) : ∀ l, leaf l ∈ ds → l.kind = .comma := by
  generalize hplace : Place.list c separated = place at h
  have hvalue {e : List Container} {d : Draft} (hd : Shaped e .value [d]) (l : Lexeme) :
      leaf l ≠ d := by
    obtain ⟨first, rfl⟩ := exists_plain_of_shaped hd
    exact fun h => by simp [plain] at h
  -- only the forms of a list are left, and only one of them begins with a token
  induction h generalizing separated <;> simp only [reduceCtorEq, Place.list.injEq] at hplace
  case nil => simp
  case comma hl hds ih =>
    intro l hmem
    rcases List.mem_cons.mp hmem with heq | hmem
    · obtain rfl := Draft.leaf.inj heq
      exact hl
    · exact ih (by rw [hplace.1]) l hmem
  case item hd hds ihd ih =>
    intro l hmem
    exact ih (by rw [hplace.1]) l ((List.mem_cons.mp hmem).resolve_left (hvalue hd l))
  case incompleteSkipped ih =>
    intro l hmem
    simp only [incomplete, plain, List.mem_cons, reduceCtorEq, false_or] at hmem
    exact ih (by rw [hplace.1]) l hmem
  all_goals
    rename_i ih
    intro l hmem
    simp only [strayComma, incomplete, junk, List.mem_cons, reduceCtorEq, false_or] at hmem
    exact ih (by rw [hplace.1]) l hmem

theorem exists_shaped_of_formed {c : Container} {before after : Option ParseError} {first : Draft}
    {rest : List Draft} (h : Formed (node c.listKind before first rest after)) :
    ∃ e, Shaped e (.list c true) (first :: rest) := by
  generalize hd : node c.listKind before first rest after = d at h
  cases h with
  | @list e c' d ds hds =>
    obtain ⟨hkind, -, rfl, rfl, -⟩ := Draft.node.inj hd
    obtain rfl : c = c' := by
      revert hkind
      cases c <;> cases c' <;> decide
    exact ⟨_, hds⟩
  | @closed e c' =>
    cases c <;> cases c' <;> simp [containerNode, Container.listKind, Container.nodeKind] at hd
  | @unclosed e c' =>
    cases c <;> cases c' <;> simp [containerNode, Container.listKind, Container.nodeKind] at hd
  | _ =>
    cases c <;>
      simp [plain, strayComma, incomplete, junk, trailingError, Container.listKind] at hd

end Draft

/-! ## Documents -/

namespace Parse

theorem flatMap_views {α : Type} (source : Text) (f : AnyView → List α) :
    (Site.root (parse source).tree).views.flatMap f =
      (Site.root (parse source).tree).anyView?.toList.flatMap f ++
        (standings source).flatMap fun x => x.site.anyView?.toList.flatMap f := by
  have hviews (ss : List Site) : (ss.filterMap (·.anyView?)).flatMap f =
      ss.flatMap fun s => s.anyView?.toList.flatMap f := by
    rw [List.filterMap_eq_flatMap_toList, List.flatMap_assoc]
  rw [Site.views, hviews, descendants_root, List.flatMap_cons, List.flatMap_map]

theorem flatMap_text_lexemes (source : Text) : ∃ trailing : Text,
    source = (lexemes source).flatMap Lexeme.text ++ trailing := by
  have htokens := @Lexemes.tokens_ofTokens (tokenize source)
    (fun _ h => kind_ne_eof_of_mem_tokenize h) source.size
  have htext := flatten_text_tokenize source
  rw [← List.flatMap_def, ← htokens, List.flatMap_append, List.flatMap_assoc] at htext
  exact ⟨_, htext.symm⟩

theorem exists_text_of_mem_standings {source : Text} {x : Standing} (h : x ∈ standings source) :
    ∃ front back, source = front ++ x.draft.lexemes.flatMap Lexeme.text ++ back ∧
      x.offset = Text.size front ∧ ∀ l ∈ x.draft.lexemes, l ∈ lexemes source := by
  obtain ⟨front, back, hlexemes, ho⟩ := among_of_mem_standingsRow 0 [] _ x h
  rw [lexemes_documentDrafts] at hlexemes
  have hlexemes : lexemes source = front ++ x.draft.lexemes ++ back := hlexemes
  obtain ⟨trailing, hsource⟩ := flatMap_text_lexemes source
  rw [hlexemes, List.flatMap_append, List.flatMap_append] at hsource
  refine ⟨front.flatMap Lexeme.text, back.flatMap Lexeme.text ++ trailing, ?_, ?_, ?_⟩
  · rw [← List.append_assoc]
    exact hsource
  · rw [ho, Lexeme.size_flatMap_text, Nat.zero_add]
  · intro l hl
    rw [hlexemes]
    exact List.mem_append_left _ (List.mem_append_right _ hl)

theorem filter_gaps_list {source : Text} {x : Standing} (h : x ∈ standings source)
    (c : Container) {before after : Option ParseError} {first : Draft} {rest : List Draft}
    (hx : x.draft = node c.listKind before first rest after) :
    ((viewOf x.offset x.before c.listKind first rest).gaps c.elementKind).filter
        (·.isInlineIn source) = commaGaps c.elementKind (first :: rest) := by
  obtain ⟨front, back, hsource, ho, hlexemes⟩ := exists_text_of_mem_standings h
  have hp : Placed x.offset x.draft.lexemes := isPlaced_of_mem_standings h
  obtain ⟨e, hds⟩ := exists_shaped_of_formed (hx ▸ formed_of_mem_standings h)
  rw [hx] at hp hsource hlexemes
  have hseen : Seen none none none false [] := ⟨by simp, by simp⟩
  have hrow := filter_gapsFrom c.elementKind x.before (kind_of_leaf_mem hds)
    (fun l hl => isSpelled_of_mem_lexemes (hlexemes l hl)) hp
    (show source = front ++ [] ++ _ ++ back by simpa using hsource) (by simpa using ho)
    (by simp) hseen
  rw [parts_viewOf x.offset x.before c.listKind, gapsFrom_trivia] at hrow
  exact hrow

end Parse

theorem Standing.anyView?_site {x : Standing} {kind : NodeKind} {before after : Option ParseError}
    {first : Draft} {rest : List Draft} (hx : x.draft = node kind before first rest after) :
    x.site.anyView? = some ⟨kind, viewOf x.offset x.before kind first rest⟩ := by
  rw [site, hx]
  rfl

theorem Standing.anyView?_leaf {x : Standing} {l : Lexeme} (hx : x.draft = leaf l) :
    x.site.anyView? = none := by
  rw [site, hx]
  rfl

theorem Standing.exists_node_of_anyView? {x : Standing} {v : AnyView}
    (hv : x.site.anyView? = some v) : ∃ kind before first rest after,
      x.draft = node kind before first rest after ∧
        v = ⟨kind, viewOf x.offset x.before kind first rest⟩ := by
  cases hx : x.draft with
  | leaf l => exact absurd ((anyView?_leaf hx).symm.trans hv) nofun
  | node kind before first rest after =>
    exact ⟨kind, before, first, rest, after, rfl, Option.some.inj (hv.symm.trans (anyView?_site hx))⟩

namespace Parse

theorem filter_gaps_standing {source : Text} {x : Standing} (h : x ∈ standings source) :
    (x.site.anyView?.toList.flatMap AnyView.gaps).filter (·.isInlineIn source) =
      x.draft.ownGaps := by
  cases hx : x.draft with
  | leaf l =>
    rw [x.anyView?_leaf hx]
    rfl
  | node kind before first rest after =>
    rw [x.anyView?_site hx, Option.toList_some, List.flatMap_singleton]
    cases kind with
    | members => exact filter_gaps_list h .object hx
    | items => exact filter_gaps_list h .array hx
    | _ => rfl

end Parse

def Diagnostic.rangeAndSeverity (d : Diagnostic) : Span × Severity := (d.range, d.severity)

namespace Validation

theorem exists_filter_atNode {x : Standing} (hp : x.IsPlaced) :
    ∃ lines, (x.site.anyView?.toList.flatMap (atNode .default)).filter
        (·.category == .expectedComma) = x.draft.ownGaps.map (commaDiagnostic lines) := by
  have hp : Placed x.offset x.draft.lexemes := hp
  cases hx : x.draft with
  | leaf l =>
    rw [x.anyView?_leaf hx]
    exact ⟨⟨"", []⟩, rfl⟩
  | node kind before first rest after =>
    rw [hx] at hp
    rw [x.anyView?_site hx, Option.toList_some, List.flatMap_singleton,
      filter_atNode_default (· == .expectedComma)]
    cases kind with
    | members =>
      refine ⟨_, Eq.trans ?_ (missingCommas_viewOf x.before .keyValue .members hp)⟩
      exact List.append_nil _
    | items => exact ⟨_, missingCommas_viewOf x.before .value .items hp⟩
    | _ => exact ⟨⟨"", []⟩, rfl⟩

theorem filter_atNode {x : Standing} (hp : x.IsPlaced) :
    ((x.site.anyView?.toList.flatMap (atNode .default)).filter
        (·.category == .expectedComma)).map Diagnostic.rangeAndSeverity =
      x.draft.ownGaps.map (·, Severity.error) := by
  obtain ⟨lines, hlines⟩ := exists_filter_atNode hp
  rw [hlines, List.map_map]
  rfl

end Validation

def Parse.gaps (source : Text) : List Span :=
  (standings source).flatMap (·.draft.ownGaps)

namespace Parse

theorem nodup_gaps (source : Text) : ((gaps source).map Span.start).Nodup := by
  have hp : Placed 0 (lexemesList (documentDrafts (Lexemes.ofTokens (tokenize source)
      source.size).eof (Lexemes.ofTokens (tokenize source) source.size).lexemes)) := by
    rw [lexemes_documentDrafts]
    exact placed_tokenize source
  have hgaps := flatMap_ownGapsList 0 [] (documentDrafts (Lexemes.ofTokens (tokenize source)
      source.size).eof (Lexemes.ofTokens (tokenize source) source.size).lexemes)
  rw [gaps, standings]
  simp only [hgaps]
  exact (startInside_gapsList 0 _ hp).1

theorem filter_expectedComma_validate (source : Text) :
    ((validate .default (.root (parse source).tree)).filter
        (·.category == .expectedComma)).map Diagnostic.rangeAndSeverity =
      (gaps source).map (·, Severity.error) := by
  have hroot : (Site.root (parse source).tree).anyView?.toList.flatMap
      (Validation.atNode .default) = [] := rfl
  rw [validate, flatMap_views, hroot, List.nil_append, List.filter_flatMap, List.map_flatMap, gaps,
    List.map_flatMap]
  refine List.flatMap_congr fun x hx => ?_
  exact Validation.filter_atNode (isPlaced_of_mem_standings hx)

end Parse

/-- The missing commas that the rules find in a document are the gaps of spaces and tabs between the
members of its objects and between the items of its arrays, if the rule about commas is switched on.
Each is told once, as an error whose range is the gap. -/
theorem missing_commas_are_inline_gaps (o : ValidationOptions) (source : Text) :
    ((validate o (.root (parse source).tree)).filter
        (·.category == .expectedComma)).map (fun d => (d.range, d.severity)) =
      (if o.missingCommas then
        ((Site.root (parse source).tree).views.flatMap AnyView.gaps).filter
          (·.isInlineIn source) else []).map (·, Severity.error) ∧
    (((Site.root (parse source).tree).views.flatMap AnyView.gaps).filter
      (·.isInlineIn source)).Nodup := by
  have hgaps : ((Site.root (parse source).tree).views.flatMap AnyView.gaps).filter
      (·.isInlineIn source) = Parse.gaps source := by
    have hroot : (Site.root (parse source).tree).anyView?.toList.flatMap AnyView.gaps = [] := rfl
    rw [Parse.flatMap_views, hroot, List.nil_append, List.filter_flatMap, Parse.gaps]
    exact List.flatMap_congr fun x hx => Parse.filter_gaps_standing hx
  have hoptions : (validate o (.root (parse source).tree)).filter
      (·.category == .expectedComma) =
        if o.missingCommas then (validate .default (.root (parse source).tree)).filter
          (·.category == .expectedComma) else [] := by
    have hreports (d : Diagnostic) : (d.category == .expectedComma && o.reports d.category) =
        (o.missingCommas && d.category == .expectedComma) := by
      by_cases hd : d.category = .expectedComma
      · rw [hd, ValidationOptions.reports, Bool.and_comm]
      · rw [beq_false_of_ne hd, Bool.false_and, Bool.and_false]
    rw [validate_eq_filter_reports, List.filter_filter]
    simp only [hreports]
    cases o.missingCommas <;> simp
  rw [hgaps, hoptions]
  refine ⟨?_, List.Pairwise.of_map Span.start (fun _ _ hne heq => hne (congrArg _ heq))
    (Parse.nodup_gaps source)⟩
  split
  · exact Parse.filter_expectedComma_validate source
  · rfl

end Maml
