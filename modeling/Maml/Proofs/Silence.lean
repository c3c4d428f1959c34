import Maml.Check
import Maml.Proofs.ReadBack

/-! What the rules say of a document that is laid out.

1. Any two siblings on one line have a comma between them, so no comma is missing
   (`missingCommas_eq_nil`).
2. So the rules find nothing at the nodes of what is drawn from a document but keys
   that were used before, as long as its strings have valid escapes
   (`quiet_of_drawn`). -/
namespace Maml

open Validation

/-! ## Words of parts -/

namespace Container

def wordsOf : (c : Container) → c.Element → List Word
  | object, (key, d) => key.1 :: d.words
  | array, d => d.words

def wordsOfList : (c : Container) → List c.Element → List Word
  | object, members => Document.wordsOfMembers members
  | array, items => Document.wordsOfItems items

theorem wordsOfList_cons (c : Container) (e : c.Element) (es : List c.Element) :
    c.wordsOfList (e :: es) = c.wordsOf e ++ c.wordsOfList es := by
  cases c <;> rfl

end Container

theorem Document.words_ofElements (c : Container) (es : List c.Element) :
    (Document.ofElements c es).words = c.wordsOfList es := by
  cases c <;> rfl

namespace Part

def words : Part → List Word
  | value d => d.words
  | element c e => c.wordsOf e
  | list c es | tail c es => c.wordsOfList es

/-- Whether the quoted strings of a part have only escapes that mean something. -/
def HasValidEscapes (p : Part) : Prop :=
  ∀ w ∈ p.words, w.kind = .string → Quoted.invalidEscapes w.text = []

end Part

namespace Draft

/-! ## Commas -/

theorem exists_plain_of_drawn {p : Part} {ds : List Draft} (h : Drawn p ds) :
    match p with
    | .value _ => ∃ first rest, ds = [plain .value first rest]
    | .element c _ => ∃ first rest, ds = [plain c.elementKind first rest]
    | _ => True := by
  cases h with
  | scalar => exact ⟨_, _, rfl⟩
  | container => exact ⟨_, _, rfl⟩
  | member => exact ⟨_, _, rfl⟩
  | item h => cases h <;> exact ⟨_, _, rfl⟩
  | _ => trivial

theorem neighbours_plain (kind : NodeKind) (previous : Option Site) (comma : Option Nat)
    (lineBreak : Bool) (o : Nat) (b : List (Option Text)) (first : Draft) (rest : List Draft)
    (sites : List Site) :
    neighbours kind previous comma lineBreak (siteOf o b (plain kind first rest) :: sites) =
      (if lineBreak then [] else
        previous.toList.map (⟨·, comma, siteOf o b (plain kind first rest)⟩)) ++
      neighbours kind (some (siteOf o b (plain kind first rest))) none false sites := by
  simp only [neighbours, tree_siteOf, plain, tree, if_true]
  cases previous <;> cases lineBreak <;> rfl

theorem neighbours_comma (kind : NodeKind) (previous : Option Site) (comma : Option Nat)
    (lineBreak : Bool) (o : Nat) (b : List (Option Text)) {t : Token} (ht : t.kind = .comma)
    (sites : List Site) : ∃ stop,
      neighbours kind previous comma lineBreak (⟨o, b, tokenLeaf t⟩ :: sites) =
        neighbours kind previous (some stop) lineBreak sites :=
  ⟨(Site.mk o b (tokenLeaf t)).stop, by simp only [neighbours, tokenLeaf, ht, if_true]⟩

theorem neighbours_token (kind : NodeKind) (previous : Option Site) (comma : Option Nat)
    (lineBreak : Bool) (o : Nat) (b : List (Option Text)) {t : Token} (ht : t.kind ≠ .comma)
    (sites : List Site) :
      neighbours kind previous comma lineBreak (⟨o, b, tokenLeaf t⟩ :: sites) =
        neighbours kind previous comma
          (lineBreak || (t.kind == .whitespace && t.text.any Lexer.isLineBreak)) sites := by
  simp only [neighbours, tokenLeaf, Label.token.injEq, ht, if_false]
  by_cases hspace : t.kind = .whitespace
  · cases hbreak : t.text.any Lexer.isLineBreak <;> simp [hspace]
  · have hne : (t.kind == .whitespace) = false := beq_false_of_ne hspace
    simp [hspace, hne]

theorem neighbours_tokens (kind : NodeKind) (previous : Option Site) (ts : List Token)
    (sites : List Site) : ∀ (comma : Option Nat) (lineBreak : Bool) (o : Nat)
      (b : List (Option Text)), ∃ comma',
        neighbours kind previous comma lineBreak (Site.row o b (ts.map tokenLeaf) ++ sites) =
          neighbours kind previous comma'
            (lineBreak || ts.any fun t => t.kind == .whitespace && t.text.any Lexer.isLineBreak)
            sites ∧ (comma.isSome = true → comma'.isSome = true) := by
  induction ts with
  | nil => exact fun comma lineBreak _ _ => ⟨comma, by simp [Site.row], id⟩
  | cons t ts ih =>
    intro comma lineBreak o b
    rw [List.map_cons, Site.row, List.cons_append, List.any_cons, ← Bool.or_assoc]
    -- nothing here says that the tokens are trivia, so a comma may be among them
    by_cases ht : t.kind = .comma
    · obtain ⟨stop, hstep⟩ := neighbours_comma kind previous comma lineBreak o b ht
        (Site.row (o + (tokenLeaf t).size) ((tokenLeaf t).slotsAfter b) (ts.map tokenLeaf) ++ sites)
      obtain ⟨comma', hrest, hsome⟩ := ih (some stop) lineBreak (o + (tokenLeaf t).size)
        ((tokenLeaf t).slotsAfter b)
      have hspace : (t.kind == .whitespace) = false := by rw [ht]; rfl
      refine ⟨comma', ?_, fun _ => hsome rfl⟩
      rw [hstep, hrest, hspace, Bool.false_and, Bool.or_false]
    · obtain ⟨comma', hrest, hsome⟩ := ih comma
        (lineBreak || (t.kind == .whitespace && t.text.any Lexer.isLineBreak))
        (o + (tokenLeaf t).size) ((tokenLeaf t).slotsAfter b)
      exact ⟨comma', by rw [neighbours_token _ _ _ _ _ _ ht, hrest], hsome⟩

/-- Whether every two siblings on one line have a comma between them, if a row of drafts follows
what was seen so far. -/
def Separated (kind : NodeKind) (previous : Option Site) (comma : Option Nat) (lineBreak : Bool)
    (ds : List Draft) : Prop :=
  ∀ o b, ∀ n ∈ neighbours kind previous comma lineBreak (Site.row o b (trees ds)),
    n.comma.isSome = true

theorem separated_nil (kind : NodeKind) (previous : Option Site) (comma : Option Nat)
    (lineBreak : Bool) : Separated kind previous comma lineBreak [] := by
  intro o b n hn
  simp [trees, Site.row, neighbours] at hn

theorem separated_cons {kind : NodeKind} {previous : Option Site} {comma : Option Nat}
    {lineBreak : Bool} {first : Draft} {rest ds : List Draft}
    (hseparated : previous = none ∨ comma.isSome = true ∨ lineBreak = true ∨
      first.firstLexeme.onNewLine = true)
    (hds : ∀ site, Separated kind (some site) none false ds) :
    Separated kind previous comma lineBreak (plain kind first rest :: ds) := by
  intro o b n hn
  rw [row_trees_cons] at hn
  obtain ⟨comma', htokens, hsome⟩ := neighbours_tokens kind previous
    (plain kind first rest).trivia
    (siteOf o b (plain kind first rest) ::
      Site.row (o + Lexeme.sizeList (plain kind first rest).lexemes)
        (slotsBehind b (plain kind first rest)) (trees ds)) comma lineBreak o b
  have hline : (plain kind first rest).trivia.any
      (fun t => t.kind == .whitespace && t.text.any Lexer.isLineBreak) =
        first.firstLexeme.onNewLine := rfl
  rw [htokens, neighbours_plain, hline, List.mem_append] at hn
  rcases hn with hn | hn
  · -- a pair with the element as its second sibling
    split at hn
    · simp at hn
    · rename_i hbreak
      obtain ⟨site, hsite, rfl⟩ := List.mem_map.mp hn
      simp only [Bool.or_eq_true, not_or] at hbreak
      rcases hseparated with rfl | hcomma | hlast | hfirst
      · simp at hsite
      · exact hsome hcomma
      · exact absurd hlast hbreak.1
      · exact absurd hfirst hbreak.2
  · exact hds _ _ _ n hn

theorem separated_comma {kind : NodeKind} {previous : Option Site} {comma : Option Nat}
    {lineBreak : Bool} {l : Lexeme} {ds : List Draft} (hl : l.kind = .comma)
    (hds : ∀ stop lineBreak, Separated kind previous (some stop) lineBreak ds) :
    Separated kind previous comma lineBreak (leaf l :: ds) := by
  intro o b n hn
  rw [row_trees_cons] at hn
  obtain ⟨comma', htokens, -⟩ := neighbours_tokens kind previous (leaf l).trivia
    (siteOf o b (leaf l) :: Site.row (o + Lexeme.sizeList (leaf l).lexemes) (slotsBehind b (leaf l))
      (trees ds)) comma lineBreak o b
  obtain ⟨stop, hcomma⟩ := neighbours_comma kind previous comma'
    (lineBreak || (leaf l).trivia.any fun t => t.kind == .whitespace && t.text.any Lexer.isLineBreak)
    (siteOf o b (leaf l)).offset (siteOf o b (leaf l)).before hl
    (Site.row (o + Lexeme.sizeList (leaf l).lexemes) (slotsBehind b (leaf l)) (trees ds))
  rw [htokens] at hn
  exact hds stop _ _ _ n (hcomma ▸ hn)

theorem separated_of_drawn {p : Part} {ds : List Draft} (h : Drawn p ds) :
    match p with
    | .list c _ => ∀ previous comma lineBreak, (previous = none ∨ comma.isSome = true ∨
        lineBreak = true ∨ ∀ d ∈ ds.head?, d.firstLexeme.onNewLine = true) →
          Separated c.elementKind previous comma lineBreak ds
    | .tail c _ => ∀ site, Separated c.elementKind (some site) none false ds
    | _ => True := by
  induction h with
  | nil => exact fun _ _ _ _ => separated_nil _ _ _ _
  | @cons c e es d ds h ht ih iht =>
    intro previous comma lineBreak hseparated
    obtain ⟨first, rest, hd⟩ := exists_plain_of_drawn h
    obtain rfl := (List.cons.inj hd).1
    exact separated_cons (by simpa [plain, firstLexeme] using hseparated) iht
  | done => exact fun _ => separated_nil _ _ _ _
  | comma hl h ih => exact fun site => separated_comma hl fun _ _ => ih _ _ _ (.inr (.inl rfl))
  | line hd h ih => exact fun site => ih _ _ _ (.inr (.inr (.inr (by simpa using hd))))
  | _ => trivial

/-- No comma is missing in a list that is drawn. -/
theorem missingCommas_eq_nil {c : Container} {es : List c.Element} {d : Draft} {ds : List Draft}
    (h : Drawn (.list c es) (d :: ds)) (o : Nat) (b : List (Option Text)) :
    missingCommas c.elementKind (viewOf o b c.listKind d ds) = [] := by
  have hparts : (viewOf o b c.listKind d ds).parts = siteOf o b d ::
      Site.row (o + Lexeme.sizeList d.lexemes) (slotsBehind b d) (trees ds) := by
    have hrow := parts_viewOf o b c.listKind d ds
    rw [row_trees_cons] at hrow
    exact (List.append_cancel_left hrow).symm
  cases h with
  | cons h ht =>
    obtain ⟨first, rest, hd⟩ := exists_plain_of_drawn h
    obtain rfl := (List.cons.inj hd).1
    have hnone : (neighbours c.elementKind none none false
        (viewOf o b c.listKind (plain c.elementKind first rest) ds).parts).filter
          (·.comma.isNone) = [] := by
      rw [hparts, neighbours_plain, List.filter_eq_nil_iff]
      intro n hn
      have hsome := separated_of_drawn ht _ _ _ n hn
      simp [Option.isSome_iff_ne_none.mp hsome]
    rw [missingCommas, hnone]
    rfl

/-! ## Diagnostics -/

/-- Whether diagnostics are all warnings of keys that were used before. -/
def OnlyDuplicates (xs : List Diagnostic) : Prop :=
  ∀ x ∈ xs, x.category = .duplicateKey ∧ x.severity = .warning

theorem onlyDuplicates_nil : OnlyDuplicates [] := by
  intro x hx
  simp at hx

theorem onlyDuplicates_append {xs ys : List Diagnostic} (hxs : OnlyDuplicates xs)
    (hys : OnlyDuplicates ys) : OnlyDuplicates (xs ++ ys) :=
  fun x hx => (List.mem_append.mp hx).elim (hxs x) (hys x)

theorem onlyDuplicates_duplicatesAmong (keys : List View.Key) :
    ∀ seen, OnlyDuplicates (duplicatesAmong seen keys) := by
  induction keys with
  | nil => exact fun _ => onlyDuplicates_nil
  | cons k keys ih =>
    intro seen
    unfold duplicatesAmong
    simp only
    split
    · intro x hx
      rcases List.mem_cons.mp hx with rfl | hx
      · exact ⟨rfl, rfl⟩
      · exact ih _ x hx
    · exact ih _

theorem invalidEscapes_eq_nil {l : LeafView}
    (h : l.label = .token .string → Quoted.invalidEscapes l.text = []) :
    Validation.invalidEscapes l = [] := by
  unfold Validation.invalidEscapes
  split
  · rename_i hl
    rw [h hl]
    rfl
  · rfl

theorem eq_of_ofLeaf {l l' : LeafView} (h : View.Content.ofLeaf l = .string l') : l = l' := by
  unfold View.Content.ofLeaf at h
  split at h <;> simp at h
  exact h

theorem ofNode_ne_string (s : Site) (l : LeafView) : View.Content.ofNode s ≠ .string l := by
  unfold View.Content.ofNode
  split <;> simp

theorem onlyDuplicates_value {v : View.Value}
    (h : ∀ l, View.Value.content v = .string l → Validation.invalidEscapes l = []) :
    OnlyDuplicates (atNode .default ⟨.value, v⟩) := by
  have hchecked : ValidationOptions.default.invalidEscapes = true := rfl
  rw [atNode, if_pos hchecked]
  split
  · rename_i l hl
    rw [h l hl]
    exact onlyDuplicates_nil
  · exact onlyDuplicates_nil

/-- What the rules find at the nodes of a row. -/
def diagnosticsIn (o : Nat) (b : List (Option Text)) (ds : List Draft) : List Diagnostic :=
  ((Site.nodesOfRow o b (trees ds)).filterMap (·.anyView?)).flatMap (atNode .default)

/-- Whether the rules find nothing but keys that were used before, wherever a row stands. -/
def Quiet (ds : List Draft) : Prop := ∀ o b, OnlyDuplicates (diagnosticsIn o b ds)

theorem quiet_nil : Quiet [] := fun _ _ => onlyDuplicates_nil

theorem quiet_append {ds es : List Draft} (hds : Quiet ds) (hes : Quiet es) : Quiet (ds ++ es) := by
  intro o b
  rw [diagnosticsIn, trees_append, nodesOfRow_append, List.filterMap_append, List.flatMap_append]
  exact onlyDuplicates_append (hds _ _) (hes _ _)

theorem quiet_leaf (l : Lexeme) : Quiet [leaf l] := by
  intro o b
  rw [diagnosticsIn, nodesOfRow_trees_cons, descendants_siteOf_leaf]
  exact onlyDuplicates_nil

theorem quiet_plain {kind : NodeKind} {first : Draft} {rest : List Draft}
    (hown : ∀ o b, OnlyDuplicates (atNode .default ⟨kind, viewOf o b kind first rest⟩))
    (hparts : Quiet (first :: rest)) : Quiet [plain kind first rest] := by
  intro o b
  have hview : (siteOf o b (plain kind first rest)).anyView? =
      some ⟨kind, viewOf o b kind first rest⟩ := rfl
  have hnodes : diagnosticsIn o b [plain kind first rest] =
      atNode .default ⟨kind, viewOf o b kind first rest⟩ ++ diagnosticsIn o b (first :: rest) := by
    rw [diagnosticsIn, nodesOfRow_trees_cons, trees, Site.nodesOfRow, List.append_nil, plain,
      descendants_siteOf_node, ← plain, List.filterMap_cons, hview]
    rfl
  rw [hnodes]
  exact onlyDuplicates_append (hown o b) (hparts o b)

/-! ## Quiet drafts -/

theorem quiet_word {kind : NodeKind} {l : Lexeme} {w : Word} (hl : Spells l w)
    (hkind : kind = .value ∧ w.kind.isScalar = true ∨ kind = .key ∧ w.kind.isKeyStart = true)
    (hw : w.kind = .string → Quoted.invalidEscapes w.text = []) : Quiet [plain kind (leaf l) []] := by
  apply quiet_plain ?_ (quiet_leaf l)
  intro o b
  have hescapes (o : Nat) : Validation.invalidEscapes ⟨o, .token l.kind, l.token.text⟩ = [] :=
    invalidEscapes_eq_nil fun h => by
      rw [hl.2]
      exact hw (hl.1.symm.trans (Label.token.inj h))
  have htrivia := isTrivia_of_spells hl (hkind.imp And.right And.right)
  rcases hkind with ⟨rfl, -⟩ | ⟨rfl, -⟩
  · apply onlyDuplicates_value
    intro l' hl'
    rw [content_leaf _ _ htrivia] at hl'
    rw [← eq_of_ofLeaf hl']
    exact hescapes _
  · rw [atNode, View.Key.leaf?, significantLeaf?_viewOf _ _ _ htrivia, Option.toList_some,
      List.flatMap_singleton, hescapes]
    exact onlyDuplicates_nil

theorem quiet_container {c : Container} {es : List c.Element} {ds : List Draft}
    (h : Drawn (.list c es) ds) (hds : Quiet ds) (opener closer : Lexeme) (next : Token) :
    Quiet [container c opener ds (some closer) next] := by
  have hlist : Quiet (wrap c.listKind ds) := by
    cases ds with
    | nil => exact quiet_nil
    | cons d ds =>
      apply quiet_plain ?_ hds
      intro o b
      -- at an object the rule about names of keys is left, at an array there is no other rule
      have hcommas := missingCommas_eq_nil h o b
      cases c with
      | object =>
        rw [Container.listKind, Container.elementKind] at hcommas
        rw [Container.listKind, atNode, hcommas]
        exact onlyDuplicates_duplicatesAmong _ _
      | array =>
        rw [Container.listKind, Container.elementKind] at hcommas
        rw [Container.listKind, atNode, hcommas]
        exact onlyDuplicates_nil
  have hparts : Quiet (leaf opener :: (wrap c.listKind ds ++ [leaf closer])) :=
    quiet_append (quiet_leaf opener) (quiet_append hlist (quiet_leaf closer))
  have hnode : Quiet [plain c.nodeKind (leaf opener) (wrap c.listKind ds ++ [leaf closer])] :=
    quiet_plain (fun _ _ => by cases c <;> exact onlyDuplicates_nil) hparts
  refine quiet_plain (fun o b => onlyDuplicates_value ?_) hnode
  intro l hl
  have hcontent := content_node o b c.nodeKind (leaf opener) (wrap c.listKind ds ++ [leaf closer])
  exact absurd (hcontent.symm.trans hl) (ofNode_ne_string _ l)

/-- The rules find nothing in what is drawn from a document but keys that were used before. -/
theorem quiet_of_drawn {p : Part} {ds : List Draft} (h : Drawn p ds) (hp : p.HasValidEscapes) :
    Quiet ds := by
  induction h with
  | @scalar w l hl => exact quiet_word hl (.inl ⟨rfl, w.2⟩) (hp _ List.mem_cons_self)
  | @container c es opener ds closer h ih =>
    refine quiet_container h (ih fun w hw => hp w ?_) _ _ _
    rw [Part.words, Document.words_ofElements]
    exact hw
  | @member k d key colon v hk h ih =>
    have hkey := quiet_word hk (.inr ⟨rfl, k.2⟩) (hp _ List.mem_cons_self)
    have hvalue := ih fun w hw => hp w (List.mem_cons_of_mem _ hw)
    exact quiet_plain (fun _ _ => onlyDuplicates_nil)
      (quiet_append hkey (quiet_append (quiet_leaf colon) hvalue))
  | item h ih => exact ih hp
  | nil => exact quiet_nil
  | @cons c e es d ds h ht ih iht =>
    have hwords : (Part.list c (e :: es)).words = c.wordsOf e ++ c.wordsOfList es :=
      c.wordsOfList_cons e es
    exact quiet_append (ih fun w hw => hp w (by rw [hwords]; exact List.mem_append_left _ hw))
      (iht fun w hw => hp w (by rw [hwords]; exact List.mem_append_right _ hw))
  | done => exact quiet_nil
  | comma hl h ih => exact quiet_append (quiet_leaf _) (ih hp)
  | line hd h ih => exact ih hp

end Draft

end Maml
