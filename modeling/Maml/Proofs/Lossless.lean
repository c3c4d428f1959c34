import Mathlib.Data.List.TakeWhile
import Maml.Parse

/-! Nothing of a document is lost.

1. The leaves of a draft's tree, with the trivia in front of it, are the tokens of
   its lexemes (`leaves_trees`).
2. Every step of reading keeps the lexemes it is given: values, items, members,
   skipping, and the pairing of brackets (`lexemes_pieces`, `lexemes_documentDrafts`).
3. So the leaves of a reading are its tokens (`leaves_ofLexemes`), and the text of
   a document's tree is the document (`text_tree_parse`). -/
namespace Maml

/-! ## Leaves of trees -/

namespace Tree

theorem leavesList_append (ts us : List Tree) :
    leavesList (ts ++ us) = leavesList ts ++ leavesList us := by
  induction ts with
  | nil => rfl
  | cons t ts ih => rw [List.cons_append, leavesList, ih, leavesList, List.append_assoc]

mutual

theorem text_eq_flatMap_leaves : ∀ t : Tree, t.text = t.leaves.flatMap (·.2)
  | leaf _ _ => by simp [text, leaves]
  | node _ children => textList_eq_flatMap_leavesList children

theorem textList_eq_flatMap_leavesList : ∀ ts : List Tree,
    textList ts = (leavesList ts).flatMap (·.2)
  | [] => rfl
  | t :: ts => by
    rw [textList, leavesList, List.flatMap_append, text_eq_flatMap_leaves t,
      textList_eq_flatMap_leavesList ts]

end

end Tree

namespace Draft

def leafOf (t : Token) : Label × Text := (.token t.kind, t.text)

theorem leavesList_map_tokenLeaf (ts : List Token) :
    Tree.leavesList (ts.map tokenLeaf) = ts.map leafOf := by
  induction ts with
  | nil => rfl
  | cons t ts ih => rw [List.map_cons, Tree.leavesList, ih]; rfl

theorem lexemesList_append (ds es : List Draft) :
    lexemesList (ds ++ es) = lexemesList ds ++ lexemesList es := by
  induction ds with
  | nil => rfl
  | cons d ds ih => rw [List.cons_append, lexemesList, ih, lexemesList, List.append_assoc]

theorem trees_append (ds es : List Draft) : trees (ds ++ es) = trees ds ++ trees es := by
  induction ds with
  | nil => rfl
  | cons d ds ih => simp [trees, ih]

@[simp] theorem lexemesList_map_leaf (ls : List Lexeme) : lexemesList (ls.map leaf) = ls := by
  induction ls with
  | nil => rfl
  | cons l ls ih => rw [List.map_cons, lexemesList, ih]; rfl

mutual

theorem leaves_tree : ∀ d : Draft,
    d.trivia.map leafOf ++ d.tree.leaves = (d.lexemes.flatMap Lexeme.tokens).map leafOf
  | leaf l => by
    simp [trivia, firstLexeme, tree, tokenLeaf, Tree.leaves, lexemes, Lexeme.tokens, leafOf]
  | node kind before first rest after => by
    have h : (node kind before first rest after).trivia = first.trivia := rfl
    rw [h, tree, Tree.leaves, Tree.leavesList, ← List.append_assoc, leaves_tree first,
      leaves_trees rest, lexemes, List.flatMap_append, List.map_append]

/-- The leaves of a row of drafts are the tokens of its lexemes. -/
theorem leaves_trees : ∀ ds : List Draft,
    Tree.leavesList (trees ds) = ((lexemesList ds).flatMap Lexeme.tokens).map leafOf
  | [] => rfl
  | d :: ds => by
    rw [trees, Tree.leavesList_append, leavesList_map_tokenLeaf, Tree.leavesList,
      ← List.append_assoc, leaves_tree d, leaves_trees ds, lexemesList, List.flatMap_append,
      List.map_append]

end

/-! ## Values and items -/

@[simp] theorem lexemes_leaf (l : Lexeme) : (leaf l).lexemes = [l] := rfl

@[simp] theorem lexemes_node (kind : NodeKind) (before : Option ParseError) (first : Draft)
    (rest : List Draft) (after : Option ParseError) :
    (node kind before first rest after).lexemes = first.lexemes ++ lexemesList rest := rfl

@[simp] theorem lexemes_plain (kind : NodeKind) (first : Draft) (rest : List Draft) :
    (plain kind first rest).lexemes = first.lexemes ++ lexemesList rest := rfl

@[simp] theorem lexemesList_nil : lexemesList [] = [] := rfl

@[simp] theorem lexemesList_cons (d : Draft) (ds : List Draft) :
    lexemesList (d :: ds) = d.lexemes ++ lexemesList ds := rfl

theorem lexemesList_singleton (d : Draft) : lexemesList [d] = d.lexemes := List.append_nil _

@[simp] theorem lexemesList_wrap (kind : NodeKind) (ds : List Draft) :
    lexemesList (wrap kind ds) = lexemesList ds := by
  cases ds <;> simp [wrap]

@[simp] theorem lexemes_single (l : Lexeme) : (single l).lexemes = [l] := by
  unfold single
  split <;> simp

@[simp] theorem lexemes_asValue (d : Draft) : d.asValue.lexemes = d.lexemes := by
  cases d <;> simp [asValue]

theorem lexemes_valueAt (d : Draft) (ds : List Draft) :
    (valueAt d ds).1.lexemes ++ lexemesList (valueAt d ds).2 = d.lexemes ++ lexemesList ds := by
  cases valueRule d ds with
  | signed h => simp [valueAt_signed _ h, signed]
  | alone h => simp [valueAt_alone h]

theorem lexemesList_items (afterSeparator : Bool) (ds : List Draft) :
    lexemesList (items afterSeparator ds) = lexemesList ds := by
  induction afterSeparator, ds using items_induction with
  | nil => simp
  | stray comma ds hc ih => simp [items_stray hc, strayComma, ih]
  | comma comma ds hc ih => simp [items_comma hc, ih]
  | item b d ds hd ih =>
    rw [items_cons hd, lexemesList_cons, ih, lexemes_valueAt, lexemesList_cons]

/-! ## Members -/

theorem lexemes_skipValue (d : Draft) (ds : List Draft) :
    lexemesList (skipValue d ds).1 ++ lexemesList (skipValue d ds).2 = lexemesList ds := by
  cases skipRule d ds with
  | taken hc hv => simp [skipValue_taken _ hc hv]
  | alone h => simp [skipValue_alone h]

theorem lexemes_skip (ds : List Draft) :
    lexemesList (skip ds).1 ++ lexemesList (skip ds).2 = lexemesList ds := by
  induction ds using skip_induction with
  | nil => simp
  | resumes d ds hd => simp [skip_of_resumesMembers hd]
  | skipped d ds hd ih =>
    rw [skip_cons hd]
    simp only [lexemesList_cons, lexemesList_append, List.append_assoc, ih, lexemes_skipValue]

theorem lexemes_skipMember (d : Draft) (ds : List Draft) :
    lexemesList (skipMember d ds).1 ++ lexemesList (skipMember d ds).2 =
      d.lexemes ++ lexemesList ds := by
  simp only [skipMember, junk, lexemesList_cons, lexemesList_nil, lexemes_node,
    lexemesList_append, List.append_nil, List.append_assoc, lexemes_skip, lexemes_skipValue]

theorem lexemes_memberValue (stop : Token) (colon : Draft) (ds : List Draft) :
    lexemesList (memberValue stop colon ds).value ++
      lexemesList (memberValue stop colon ds).rest = lexemesList ds := by
  cases memberValueRule ds with
  | missing h => simp [memberValue_missing h]
  | present h => simpa [memberValue_present h] using lexemes_valueAt _ _

theorem lexemes_memberAt (stop : Token) (d : Draft) (ds : List Draft) :
    lexemesList (memberAt stop d ds).1 ++ lexemesList (memberAt stop d ds).2 =
      d.lexemes ++ lexemesList ds := by
  cases memberRule d ds with
  | keyValue hk hc => simp [memberAt_keyValue hk hc, keyValue, lexemes_memberValue]
  | literalKey hq hc => simp [memberAt_literalKey hq hc, literalKey, lexemes_memberValue]
  | incomplete hk hc => simp [memberAt_incomplete hk hc, incomplete, lexemes_skip]
  | skipped hk hq =>
    rw [memberAt_skip hk hq]
    exact lexemes_skipMember _ _

theorem lexemesList_members (stop : Token) (afterSeparator : Bool) (ds : List Draft) :
    lexemesList (members stop afterSeparator ds) = lexemesList ds := by
  induction afterSeparator, ds using @members_induction stop with
  | nil => simp
  | stray comma ds hc ih => simp [members_stray hc, strayComma, ih]
  | comma comma ds hc ih => simp [members_comma hc, ih]
  | member b d ds hd ih =>
    rw [members_cons hd, lexemesList_append, ih, lexemes_memberAt, lexemesList_cons]

/-! ## Nesting -/

theorem append_balancedRun (depth : Nat) (ls : List Lexeme) :
    (balancedRun depth ls).1 ++ (balancedRun depth ls).2 = ls := by
  induction ls generalizing depth with
  | nil => rfl
  | cons l ls ih =>
    unfold balancedRun
    split
    · rfl
    · simpa using ih _

@[simp] theorem lexemes_tooDeep (opener : Lexeme) (run : List Lexeme) :
    (tooDeep opener run).lexemes = opener :: run := by
  simp [tooDeep]

theorem lexemesList_contents (c : Container) (stop : Token) (ds : List Draft) :
    lexemesList (contents c stop ds) = lexemesList ds := by
  cases c
  · exact lexemesList_members stop true ds
  · exact lexemesList_items true ds

def containerNode (c : Container) (opener : Lexeme) (ds : List Draft) (closer : Option Lexeme)
    (after : Option ParseError) : Draft :=
  node c.nodeKind none (leaf opener) (wrap c.listKind ds ++ (closer.map leaf).toList) after

section
variable (c : Container) (opener : Lexeme) (ds : List Draft) (closer : Option Lexeme)

theorem lexemes_containerNode (after : Option ParseError) :
    (containerNode c opener ds closer after).lexemes =
      opener :: (lexemesList ds ++ closer.toList) := by
  cases closer <;> simp [containerNode, lexemesList_append]

theorem errors_containerNode (after : Option ParseError) :
    (containerNode c opener ds closer after).errors = errorsList ds ++ after.toList := by
  cases closer <;> simp [containerNode]

theorem lexemes_container (next : Token) :
    (container c opener ds closer next).lexemes = opener :: lexemesList ds ++ closer.toList := by
  cases closer <;> simp [container, lexemesList_append]

end

theorem lexemes_close (eof : Token) (c : Container) (opener : Lexeme) (ds : List Draft)
    (rest : List Lexeme) :
    (close eof c opener ds rest).1.lexemes ++ (close eof c opener ds rest).2 =
      opener :: lexemesList ds ++ rest := by
  unfold close
  split
  · split <;> simp [lexemes_container, lexemesList_contents]
  · simp [lexemes_container, lexemesList_contents]

theorem lexemes_pieceAt_pieces (eof : Token) :
    (∀ e l ls, (pieceAt eof e l ls).1.lexemes ++ (pieceAt eof e l ls).2 = l :: ls) ∧
      ∀ e ls, lexemesList (pieces eof e ls).1 ++ (pieces eof e ls).2 = ls := by
  apply pieceAt_pieces_induction eof
  case token =>
    intro e l ls ho
    simp [pieceAt_of_opens?_eq_none ho]
  case nested =>
    intro e l ls c ho he ih
    rw [pieceAt_of_opens?_eq_some ho, if_pos he, lexemes_close, List.cons_append, ih]
  case deep =>
    intro e l ls c ho he
    rw [pieceAt_of_opens?_eq_some ho, if_neg (by omega)]
    simp [append_balancedRun]
  case nil =>
    intro e
    simp
  case cons =>
    intro e l ls hpiece hmore
    rw [pieces_cons]
    split
    · rfl
    · rw [lexemesList_cons, List.append_assoc, hmore, hpiece]

theorem lexemes_pieceAt (eof : Token) (enclosing : List Container) (l : Lexeme)
    (ls : List Lexeme) :
    (pieceAt eof enclosing l ls).1.lexemes ++ (pieceAt eof enclosing l ls).2 = l :: ls :=
  (lexemes_pieceAt_pieces eof).1 enclosing l ls

theorem lexemes_pieces (eof : Token) (enclosing : List Container) (ls : List Lexeme) :
    lexemesList (pieces eof enclosing ls).1 ++ (pieces eof enclosing ls).2 = ls :=
  (lexemes_pieceAt_pieces eof).2 enclosing ls

end Draft

/-! ## Documents -/

open Draft

@[simp] theorem lexemesList_trailing (ls : List Lexeme) : lexemesList (trailing ls) = ls := by
  cases ls <;> simp [trailing, trailingError]

theorem lexemes_documentDrafts (eof : Token) (ls : List Lexeme) :
    lexemesList (documentDrafts eof ls) = ls := by
  unfold documentDrafts
  split
  · rfl
  · split
    · simpa using lexemes_pieceAt _ _ _ _
    · exact lexemesList_trailing _

theorem leaves_ofLexemes (input : Lexemes) :
    (Parse.ofLexemes input).tree.leaves =
      (input.lexemes.flatMap Lexeme.tokens ++ input.trailing).map leafOf := by
  let ds := documentDrafts input.eof input.lexemes
  calc (Parse.ofLexemes input).tree.leaves
      = Tree.leavesList (trees ds) ++ Tree.leavesList (input.trailing.map tokenLeaf) :=
        Tree.leavesList_append ..
    _ = ((lexemesList ds).flatMap Lexeme.tokens).map leafOf ++ input.trailing.map leafOf := by
        rw [leaves_trees, leavesList_map_tokenLeaf]
    _ = (input.lexemes.flatMap Lexeme.tokens ++ input.trailing).map leafOf := by
        rw [lexemes_documentDrafts, List.map_append]

/-! ## Texts -/

namespace Lexer

theorem wordKind_cases (word : Text) :
    wordKind word = .identifier ∨ (word, wordKind word) ∈ reserved := by
  unfold wordKind
  cases h : reserved.lookup word with
  | none => exact .inl rfl
  | some kind =>
    obtain ⟨front, back, hreserved, -⟩ := List.lookup_eq_some_iff.mp h
    right
    rw [hreserved]
    exact List.mem_append_right _ List.mem_cons_self

@[elab_as_elim]
theorem wordKind_rec {motive : TokenKind → Prop} (word : Text) (identifier : motive .identifier)
    (trueWord : motive .trueWord) (falseWord : motive .falseWord) (nullWord : motive .nullWord) :
    motive (wordKind word) := by
  rcases wordKind_cases word with h | h
  · rwa [h]
  · simp only [reserved, List.mem_cons, Prod.mk.injEq, List.not_mem_nil, or_false] at h
    rcases h with ⟨-, h⟩ | ⟨-, h⟩ | ⟨-, h⟩ <;> rwa [h]

@[elab_as_elim]
theorem string_rec {motive : TokenKind → Prop} (cs : Text) (multiline : motive .multilineString)
    (closed : motive .string) (unterminated : motive .unterminatedString) :
    motive (string cs).1 := by
  unfold string
  split <;> split <;> assumption

theorem kind_scan_ne_eof (c : Char) (cs : Text) : (scan c cs).1 ≠ .eof := by
  cases scanRule c with
  | mark hc hscan =>
    have hmarks : ∀ m ∈ punctuation, m.2 ≠ .eof := by decide
    rw [hscan]
    exact hmarks _ hc
  | quote _ hscan =>
    rw [hscan]
    exact string_rec cs nofun nofun nofun
  | sign _ hscan =>
    rw [hscan]
    split <;> exact nofun
  | name _ hscan =>
    rw [hscan]
    exact wordKind_rec _ nofun nofun nofun nofun
  | comment _ hscan | blank _ hscan | digit _ hscan | bad hscan =>
    rw [hscan]
    exact nofun

theorem kind_ne_eof_of_mem_lex {text : Text} {t : TokenKind × Text} (h : t ∈ lex text) :
    t.1 ≠ .eof := by
  induction text using lex.induct with
  | case1 => simp [lex] at h
  | case2 c cs ih =>
    rw [lex, List.mem_cons] at h
    rcases h with rfl | h
    · exact kind_scan_ne_eof c cs
    · exact ih h

theorem kind_ne_eof_of_mem_place {offset : Nat} {ts : List (TokenKind × Text)}
    (hts : ∀ t ∈ ts, t.1 ≠ .eof) {t : Token} (h : t ∈ place offset ts) : t.kind ≠ .eof := by
  induction ts generalizing offset with
  | nil => simp [place] at h
  | cons u us ih =>
    rw [place, List.mem_cons] at h
    rcases h with rfl | h
    · exact hts u List.mem_cons_self
    · exact ih (fun t ht => hts t (List.mem_cons_of_mem _ ht)) h

end Lexer

theorem kind_ne_eof_of_mem_tokenize {source : Text} {t : Token} (h : t ∈ tokenize source) :
    t.kind ≠ .eof :=
  Lexer.kind_ne_eof_of_mem_place (fun _ ht => Lexer.kind_ne_eof_of_mem_lex ht) h

/-- A text is taken as a whole, since none of its tokens ends the input. -/
theorem takeWhile_tokenize (source : Text) :
    (tokenize source).takeWhile (·.kind != .eof) = tokenize source :=
  List.takeWhile_eq_self_iff.mpr fun _ ht => bne_iff_ne.mpr (kind_ne_eof_of_mem_tokenize ht)

theorem Lexemes.tokens_ofTokens {tokens : List Token} (h : ∀ t ∈ tokens, t.kind ≠ .eof)
    (stop : Nat) :
    (ofTokens tokens stop).lexemes.flatMap Lexeme.tokens ++
      (ofTokens tokens stop).trailing = tokens := by
  rw [ofTokens, List.takeWhile_eq_self_iff.mpr fun t ht => bne_iff_ne.mpr (h t ht)]
  exact tokens_group tokens

theorem leaves_tree_parse (source : Text) :
    (parse source).tree.leaves = (tokenize source).map leafOf := by
  rw [parse, leaves_ofLexemes,
    Lexemes.tokens_ofTokens (fun _ h => kind_ne_eof_of_mem_tokenize h)]

/-- The text of a document's tree is the document. -/
theorem text_tree_parse (source : Text) : (parse source).tree.text = source := by
  calc (parse source).tree.text
      = (parse source).tree.leaves.flatMap (·.2) := Tree.text_eq_flatMap_leaves _
    _ = (tokenize source).flatMap (fun t => (leafOf t).2) := by rw [leaves_tree_parse, List.flatMap_map]
    _ = ((tokenize source).map Token.text).flatten := List.flatMap_def ..
    _ = source := flatten_text_tokenize source

end Maml
