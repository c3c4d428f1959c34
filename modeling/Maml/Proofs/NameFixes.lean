import Maml.Proofs.Exchange
import Maml.Proofs.Lookahead
import Maml.Proofs.QuoteFixes
import Maml.Proofs.Written

/-! Fixes that complete a name to a reserved word.

1. Letters that are written behind a name join it, and all other tokens stay
   (`Lexer.lex_completed`).
2. A name in the place of a value is a node by itself. A reserved word can be read there, and
   nothing else of the document changes but for what is shifted
   (`Parse.exists_exchanged_name`).
3. So the fix does what it says, and nothing else (`name_fix_completes`). -/
namespace Maml

open Draft

/-! ## Letters behind a name -/

namespace Lexer

theorem of_mem_reserved : ∀ word ∈ reserved, wordKind word.1 = word.2 ∧
    word.2.isKeyword = true ∧ word.2.isScalar = true ∧ word.2.isTrivia = false := by
  decide

theorem letters_of_mem_reserved : ∀ word ∈ reserved, ∀ c ∈ word.1, isNameChar c = true ∧
    (c ≠ '"' ∧ c ≠ '\\' ∧ isLineBreak c = false) ∧ c.isDigit = false ∧ c ≠ '+' ∧ c ≠ '-' := by
  have hall : (reserved.all fun word => word.1.all fun c => decide (isNameChar c = true ∧
      (c ≠ '"' ∧ c ≠ '\\' ∧ isLineBreak c = false) ∧ c.isDigit = false ∧ c ≠ '+' ∧ c ≠ '-')) =
        true := by
    decide
  exact fun word hword c hc =>
    of_decide_eq_true (List.all_eq_true.mp (List.all_eq_true.mp hall word hword) c hc)

theorem plain_of_reserved {name rest : Text} {kind : TokenKind}
    (h : (name ++ rest, kind) ∈ reserved) : Plain rest := by
  have hletters := letters_of_mem_reserved _ h
  exact ⟨fun c hc => (hletters c (List.mem_append_right _ hc)).2.1,
    fun c hc => (hletters c (List.mem_append_right _ (List.mem_of_mem_head? hc))).2.2⟩

section
variable {source name rest : Text} {ts us : List (TokenKind × Text)}

/-- Letters that make a reserved word of a name make one token with it, and leave the others. -/
theorem lex_completed {kind : TokenKind} (h : lex source = ts ++ (.identifier, name) :: us)
    (hword : (name ++ rest, kind) ∈ reserved) :
    lex (ts.flatMap (·.2) ++ (name ++ (rest ++ us.flatMap (·.2)))) =
      ts ++ (kind, name ++ rest) :: us := by
  obtain ⟨c, cs, rfl, hstart, hcs, hus⟩ := exists_name h
  have hletters := letters_of_mem_reserved _ hword
  have hrest : ∀ d ∈ cs ++ rest, isNameChar d = true := fun d hd =>
    (hletters d (List.mem_cons_of_mem _ hd)).1
  have htaken : (cs ++ rest ++ us.flatMap (·.2)).takeWhile isNameChar = cs ++ rest := by
    rw [takeWhile_append _ hus]
    exact List.takeWhile_eq_self_iff.mpr hrest
  have hscan : scan c (cs ++ rest ++ us.flatMap (·.2)) = (kind, cs ++ rest) := by
    rw [scan_of_isNameStart hstart, htaken]
    exact congrArg (·, cs ++ rest) (of_mem_reserved _ hword).1
  have hlex := lex_of_scan hscan
  rw [(@lex_cut source (ts ++ [(.identifier, c :: cs)]) us (by rw [h]; simp)).2] at hlex
  rw [lex_insert h (plain_of_reserved hword) (first_of_name h) (getLast?_of_name h),
    List.cons_append, ← List.append_assoc, hlex, List.cons_append]

end

end Lexer

namespace ParseError

theorem exists_of_mem_completions {name word : Text} (h : word ∈ completions name) :
    ∃ rest kind, word = name ++ rest ∧ (word, kind) ∈ Lexer.reserved := by
  obtain ⟨hword, hstarts⟩ := List.mem_filter.mp h
  obtain ⟨⟨word, kind⟩, hreserved, rfl⟩ := List.mem_map.mp hword
  rw [Bool.and_eq_true, Text.startsWith, List.isPrefixOf_iff_prefix] at hstarts
  obtain ⟨rest, hrest⟩ := hstarts.1
  exact ⟨rest, kind, hrest.symm, hreserved⟩

theorem eq_replaceWith_of_title {e : ParseError} {fix : Fix} {literal : String}
    (hfix : fix ∈ e.fixes .invalidIdentifierValue)
    (htitle : fix.title = s!"Replace with '{literal}'") :
    literal.toList ∈ completions e.foundText ∧ fix = replaceWith e.range literal.toList := by
  have htoString (s : String) : toString s = s := rfl
  have hchars := congrArg String.toList htitle
  rw [htoString, htoString, htoString] at hchars
  rw [fixes, List.mem_append, List.mem_map, List.mem_singleton] at hfix
  rcases hfix with ⟨word, hword, rfl⟩ | rfl
  · have hsame : word = literal.toList := by
      simpa [replaceWith, htoString] using hchars
    exact ⟨hsame ▸ hword, congrArg _ hsame⟩
  · exact absurd (congrArg List.head? hchars) (by simp)

end ParseError

/-! ## Names in the place of values -/

theorem Tree.sizeList_append (ts us : List Tree) :
    sizeList (ts ++ us) = sizeList ts + sizeList us := by
  induction ts with
  | nil => exact (Nat.zero_add _).symm
  | cons t ts ih => rw [List.cons_append, sizeList, sizeList, ih, Nat.add_assoc]

namespace Draft

def nameNode (name : Lexeme) : Draft :=
  node .invalidValue (some (quotingError .value name)) (leaf name) [] none

def Mark.name (name : Lexeme) : Mark where
  holds d _ := d = nameNode name
  isInner_of_holds h := by rw [h]; rfl

/-- Whether one token is a value in the place of an invalid one. -/
def Completed (name word : Lexeme) (v v' : Draft) : Prop :=
  v = invalid name ∧ v' = plain .value (leaf word) []

variable {k : Nat} {name word : Lexeme}

theorem Completed.replaces (hname : name.kind = .identifier) (hword : word.kind.isKeyword = true)
    {v v' : Draft} (h : Completed name word v v') : Replaces k name [word] v v' := by
  obtain ⟨rfl, rfl⟩ := h
  exact ⟨⟨rfl, rfl⟩, .inr ⟨hname, hword⟩, [], [], rfl, rfl⟩

/-- In the tree of a row one part comes in the place of another, where the name stands. -/
theorem Exchanged.exists_replaced (htrivia : word.trivia = name.trivia) {d d' : Draft}
    {ds ds' : List Draft} (h : Exchanged k (Completed name word) (d :: ds) (d' :: ds')) :
    d'.trivia = d.trivia ∧ ∃ front part part' back offset,
      d.tree :: trees ds = front ++ part :: back ∧ d'.tree :: trees ds' = front ++ part' :: back ∧
      Tree.Replaced (.node (.node .invalidValue) [tokenLeaf name.token]) (tokenLeaf word.token)
        offset part part' ∧
      ∃ before behind, lexemesList (d :: ds) = before ++ name :: behind ∧
        Token.sizeList d.trivia + (Tree.sizeList front + offset) =
          Lexeme.sizeList before + Token.sizeList name.trivia := by
  generalize hrow : d :: ds = row at h
  generalize hrow' : d' :: ds' = row' at h
  induction h generalizing d d' ds ds' with
  | here h =>
    obtain ⟨rfl, rfl⟩ := h
    obtain ⟨rfl, rfl⟩ := List.cons.inj hrow
    obtain ⟨rfl, rfl⟩ := List.cons.inj hrow'
    refine ⟨htrivia, [], _, _, trees ds, 0, rfl, by rw [trees_shiftRow]; rfl,
      @Tree.Replaced.inside _ _ _ [] _ _ [] 0 .here, [], lexemesList ds, rfl, ?_⟩
    simp [Tree.sizeList, Lexeme.sizeList]
    rfl
  | inside h ih =>
    obtain ⟨rfl, rfl⟩ := List.cons.inj hrow
    obtain ⟨rfl, rfl⟩ := List.cons.inj hrow'
    obtain ⟨hfirst, front, part, part', back, offset, hold, hnew, hreplaced, before, behind, hsplit,
      hsize⟩ := ih rfl rfl
    refine ⟨hfirst, [], _, _, trees ds, Tree.sizeList front + offset, rfl,
      by rw [trees_shiftRow]; rfl, ?_, before,
      behind ++ lexemesList ds, ?_, ?_⟩
    · rw [Draft.tree, Draft.tree, hold, hnew]
      exact .inside hreplaced
    · rw [lexemesList_cons, lexemes_node, ← lexemesList_cons, hsplit]
      simp
    · rw [Tree.sizeList, Nat.zero_add]
      exact hsize
  | behind h ih =>
    obtain ⟨rfl, rfl⟩ := List.cons.inj hrow
    obtain ⟨rfl, rfl⟩ := List.cons.inj hrow'
    obtain ⟨e, es, e', es', rfl, rfl⟩ : ∃ e es e' es', ds = e :: es ∧ ds' = e' :: es' := by
      cases h <;> exact ⟨_, _, _, _, rfl, rfl⟩
    obtain ⟨htrivia, front, part, part', back, offset, hold, hnew, hreplaced, before, behind,
      hsplit, hsize⟩ := ih rfl rfl
    refine ⟨rfl, d'.tree :: (e.trivia.map tokenLeaf ++ front), part, part', back, offset, ?_, ?_,
      hreplaced, d'.lexemes ++ before, behind, ?_, ?_⟩
    · rw [trees, hold]
      simp
    · rw [trees, hnew, htrivia]
      simp
    · rw [lexemesList_cons, hsplit, List.append_assoc]
    · have hd := size_tree d'
      rw [Tree.sizeList, Tree.sizeList_append, sizeList_map_tokenLeaf, Lexeme.sizeList_append]
      omega

end Draft

namespace Parse
variable {o : ValidationOptions} {source text : Text}

theorem exists_nameNode {e : ParseError} (he : e ∈ (parse source).errors)
    (hcategory : (Diagnostic.ofParseError e).category = .invalidIdentifierValue) :
    ∃ name place, name.kind = .identifier ∧ e = quotingError .value name ∧
      Marked (.name name) place (drafts source) := by
  obtain ⟨hexpected, hpresent, hfound⟩ := Classification.of_invalidIdentifierValue hcategory
  obtain ⟨x, hx, hnote⟩ := List.mem_flatMap.mp ((perm_errors_parse source).mem_iff.mpr he)
  obtain ⟨herror, hnode⟩ := eq_node_of_identifier (formed_of_mem_standings hx) hnote hexpected
    hpresent hfound
  rw [herror] at hfound
  have hholds : (Mark.name x.draft.firstLexeme).holds x.draft [] :=
    hnode.trans (by rw [herror]; rfl)
  obtain ⟨place, hmarked⟩ := exists_marked_of_mem hholds 0 [] (drafts source) hx
  exact ⟨_, _, hfound, herror, hmarked⟩

section
variable {k : Nat} {name word : Lexeme} {front back : List Lexeme} {place : List Lexeme}
  {ts us : List (TokenKind × Text)} {trailing : List Token}

theorem exists_exchanged_name (hname : name.kind = .identifier)
    (hmarked : Marked (.name name) place (drafts source)) (hkeyword : word.kind.isKeyword = true)
    (hscalar : word.kind.isScalar = true)
    (hstop : word.token.span.stop = name.token.span.stop + k) :
    ∃ front back, lexemes source = front ++ name :: back ∧
      Exchanged k (Completed name word) (drafts source)
        (documentDrafts ((Lexemes.ofTokens (tokenize source) source.size).eof.shift k)
          (front ++ ([word] ++ back.map (Lexeme.shift k)))) := by
  refine exists_documentDrafts_exchanged (fun _ _ => Completed.replaces hname hkeyword) ?_
    (List.cons_ne_nil _ _) ?_ hmarked
  · intro l hl
    obtain rfl := Option.some.inj hl
    exact hstop
  · rintro e behind inner place rfl -
    exact ⟨_, .scalar hscalar, rfl, rfl⟩

theorem exists_errors_completed {ds ds' : List Draft}
    (h : Exchanged k (Completed name word) ds ds') : ∃ front back,
      errorsList ds = front ++ quotingError .value name :: back ∧
        errorsList ds' = front ++ back.map (ParseError.shift k) := by
  obtain ⟨front, back, _, hold, hnew, rfl⟩ := h.errors
    (T := fun back back' => back' = back.map (ParseError.shift k))
    (by rintro es _ fs rfl; rw [List.map_append]) fun v v' hv => by
      obtain ⟨rfl, rfl⟩ := hv
      exact ⟨[], [], [], rfl, rfl, rfl⟩
  exact ⟨front, back, hold, hnew⟩

theorem replaced_completed (hdivided : Divided source front name back ts us trailing)
    (htrivia : word.trivia = name.trivia) {ds' : List Draft}
    (h : Exchanged k (Completed name word) (drafts source) ds') :
    Tree.Replaced (.node (.node .invalidValue) [tokenLeaf name.token]) (tokenLeaf word.token)
      name.token.span.start (parse source).tree
      (.node (.node .file) (trees ds' ++ (trailing.map (Token.shift k)).map tokenLeaf)) := by
  have htree : (parse source).tree =
      .node (.node .file) (trees (drafts source) ++ trailing.map tokenLeaf) := by
    rw [parse, ofLexemes, drafts, lexemes, hdivided.input]
  obtain ⟨d, ds, d', ds', hdrafts, rfl⟩ :
      ∃ d ds d' es', drafts source = d :: ds ∧ ds' = d' :: es' := by
    generalize drafts source = row at h
    cases h <;> exact ⟨_, _, _, _, rfl, rfl⟩
  rw [hdrafts] at h htree
  obtain ⟨hsame, left, part, part', right, offset, hold, hnew, hreplaced, before, behind, hsplit,
    hsize⟩ := h.exists_replaced htrivia
  -- the name stands where its lexeme does
  have hplaced := placed_lexemes source
  rw [← lexemesList_drafts, hdrafts, hsplit] at hplaced
  have hstart := (start_of_placed (placed_append.mp hplaced).2).2
  have hoffset : name.token.span.start =
      Tree.sizeList (d.trivia.map tokenLeaf ++ left) + offset := by
    rw [Tree.sizeList_append, sizeList_map_tokenLeaf]
    omega
  have hsource : trees (d :: ds) ++ trailing.map tokenLeaf =
      (d.trivia.map tokenLeaf ++ left) ++ part :: (right ++ trailing.map tokenLeaf) := by
    rw [trees, hold]
    simp
  have htext : trees (d' :: ds') ++ (trailing.map (Token.shift k)).map tokenLeaf =
      (d.trivia.map tokenLeaf ++ left) ++ part' :: (right ++ trailing.map tokenLeaf) := by
    rw [trees, hnew, hsame, List.map_map]
    rw [show trailing.map (tokenLeaf ∘ Token.shift k) = trailing.map tokenLeaf from
      List.map_congr_left fun _ _ => rfl]
    simp
  rw [htree, hoffset, hsource, htext]
  exact .inside hreplaced

end

end Parse

/-! ## What the fix does -/

namespace Divided
variable {source text rest : Text} {kind : TokenKind} {name word : Lexeme}
  {front back : List Lexeme} {ts us : List (TokenKind × Text)} {trailing : List Token}

/-- If a reserved word is written in the place of a name, and can be exchanged for it, the text is
the other one with the name completed. -/
theorem completesName (h : Divided source front name back ts us trailing)
    (hname : name.kind = .identifier) (hreserved : (name.token.text ++ rest, kind) ∈ Lexer.reserved)
    (hlex : Lexer.lex text = ts ++ ([(kind, name.token.text ++ rest)] ++ us))
    (hword : word = ⟨name.trivia, ⟨kind, ⟨name.token.span.start,
      name.token.span.start + (name.token.text ++ rest).size⟩, name.token.text ++ rest⟩⟩)
    (hexchanged : Exchanged rest.size (Completed name word) (Parse.drafts source)
      (documentDrafts (.eof (source.size + rest.size))
        (front ++ ([word] ++ back.map (Lexeme.shift rest.size))))) :
    ∃ i, (parse source).errors[i]? = some (quotingError .value name) ∧
      CompletesName source text name.token.span name.token.text (name.token.text ++ rest) kind i := by
  have hsize : Text.size ([(kind, name.token.text ++ rest)].flatMap (·.2)) =
      name.token.text.size + rest.size := by
    rw [List.flatMap_singleton, Text.size_append]
  have hnew : [word].flatMap Lexeme.tokens =
      name.trivia ++ Lexer.place name.token.span.start [(kind, name.token.text ++ rest)] := by
    rw [hword, List.flatMap_singleton]
    rfl
  have hvalid : ∀ m ∈ [word], m.Valid := by
    intro m hm
    rw [List.mem_singleton.mp hm, hword]
    exact ⟨(h.valid name (by simp)).1, (Lexer.of_mem_reserved _ hreserved).2.2.2⟩
  have hparse : parse text = .ofLexemes _ :=
    congrArg Parse.ofLexemes (h.ofTokens_written hlex hsize hnew hvalid)
  obtain ⟨before, behind, herrors, hexpected⟩ := Parse.exists_errors_completed hexchanged
  have herrors : (parse source).errors = before ++ quotingError .value name :: behind := herrors
  have htree := Parse.replaced_completed h (by rw [hword]) hexchanged
  have hleaf : tokenLeaf word.token = .leaf (.token kind) (name.token.text ++ rest) := by
    rw [hword]
    rfl
  have hgrown : (name.token.text ++ rest).size - name.token.text.size = rest.size := by
    rw [Text.size_append, Nat.add_sub_cancel_left]
  refine ⟨before.length, by simp [herrors], ⟨Lexer.place 0 ts, Lexer.place name.token.span.stop us,
    ?_, ?_⟩, ?_, ?_⟩
  · rw [h.tokenize_eq, ← hname]
    rfl
  · rw [h.tokenize_written hlex hsize, hgrown]
    rfl
  · rw [hparse, ← show name.token.kind = .identifier from hname, ← hleaf]
    exact htree
  · rw [Parse.expectations, Parse.expectations, herrors, hparse, Parse.ofLexemes, hexpected]
    simp [List.eraseIdx_append_of_length_le, ParseError.shift]

end Divided

/-- The fixes that complete a name to a reserved word resolve its diagnostic and touch nothing
else. -/
theorem name_fix_completes {o : ValidationOptions} {source : Text} {d : Diagnostic} {fix : Fix}
    {literal : String} (hd : d ∈ check o source) (hcategory : d.category = .invalidIdentifierValue)
    (hfix : fix ∈ d.fixes) (htitle : fix.title = s!"Replace with '{literal}'") :
    ∃ i e name kind text, (parse source).errors[i]? = some e ∧ Diagnostic.ofParseError e = d ∧
      (literal.toList, kind) ∈ Lexer.reserved ∧ fix.apply source = .ok text ∧
      CompletesName source text d.range name literal.toList kind i := by
  obtain ⟨e, he, rfl⟩ := exists_error_of_mem_check hd (by rw [hcategory]; rfl)
  obtain ⟨name, place, hname, rfl, hmarked⟩ := Parse.exists_nameNode he hcategory
  have hfixes : (Diagnostic.ofParseError (quotingError .value name)).fixes =
      (quotingError .value name).fixes .invalidIdentifierValue :=
    congrArg (quotingError .value name).fixes hcategory
  rw [hfixes] at hfix
  obtain ⟨hcompletion, rfl⟩ := ParseError.eq_replaceWith_of_title hfix htitle
  obtain ⟨rest, kind, hliteral, hreserved⟩ := ParseError.exists_of_mem_completions hcompletion
  have hliteral : literal.toList = name.token.text ++ rest := hliteral
  rw [hliteral] at hreserved ⊢
  obtain ⟨-, hkeyword, hscalar, -⟩ := Lexer.of_mem_reserved _ hreserved
  let word : Lexeme := ⟨name.trivia, ⟨kind, ⟨name.token.span.start,
    name.token.span.stop + rest.size⟩, name.token.text ++ rest⟩⟩
  obtain ⟨front, back, hlexemes, hexchanged⟩ := @Parse.exists_exchanged_name source rest.size name
    word place hname hmarked hkeyword hscalar rfl
  obtain ⟨ts, us, trailing, hdivided⟩ := Parse.exists_divided hlexemes
  have hword : word = ⟨name.trivia, ⟨kind, ⟨name.token.span.start,
      name.token.span.start + (name.token.text ++ rest).size⟩, name.token.text ++ rest⟩⟩ := by
    rw [Text.size_append, ← Nat.add_assoc, ← hdivided.stop_eq]
  have hlex := Lexer.lex_completed (by rw [hdivided.lex_eq, ← hname]; rfl) hreserved
  rw [← List.append_assoc name.token.text] at hlex
  rw [hdivided.input] at hexchanged
  obtain ⟨i, hi, hcompletes⟩ := hdivided.completesName hname hreserved hlex hword hexchanged
  refine ⟨i, _, name.token.text, kind, _, hi, rfl, hreserved, ?_, hcompletes⟩
  have happly := applyEdits_replace (ts.flatMap (·.2)) name.token.text literal.toList
    (us.flatMap (·.2))
  rw [← hdivided.source_eq, ← hdivided.span_eq, hliteral] at happly
  exact happly

/-- A name that is completed in an array. -/
theorem name_fix_completes_in_array :
    let source : Text := ['[', 't', 'r', 'u', ']']
    let d := Diagnostic.ofParseError ⟨.value, .identifier, ['t', 'r', 'u'], ⟨1, 4⟩⟩
    let fix : Fix := ⟨"Replace with 'true'", [⟨⟨1, 4⟩, ['t', 'r', 'u', 'e']⟩]⟩
    let literal := "true"
    (d ∈ check .default source ∧ d.category = .invalidIdentifierValue ∧ fix ∈ d.fixes ∧
      fix.title = s!"Replace with '{literal}'") ∧
      ∃ i e name kind text, (parse source).errors[i]? = some e ∧ Diagnostic.ofParseError e = d ∧
        (literal.toList, kind) ∈ Lexer.reserved ∧ fix.apply source = .ok text ∧
        CompletesName source text d.range name literal.toList kind i := by
  intro source d fix literal
  have hd : d ∈ check .default source := by decide +kernel
  have hfix : fix ∈ d.fixes := by decide +kernel
  have htitle : fix.title = s!"Replace with '{literal}'" := by decide +kernel
  exact ⟨⟨hd, rfl, hfix, htitle⟩, name_fix_completes hd rfl hfix htitle⟩

end Maml
