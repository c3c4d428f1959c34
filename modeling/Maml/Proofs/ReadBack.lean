import Maml.Proofs.Drawing

/-! A document is read back from its drafts.

1. The views of a kind among the children of a node are those of its parts, in order
   (`all_viewOf`, `first?_viewOf`). So the elements of a container are those in its list
   (`elements_viewOf`).
2. Drafts that are drawn from a document read as that document, wherever they stand
   (`readBack_of_drawn`), and as no other (`Document.eq_of_readFrom`). -/
namespace Maml

/-! ## Reading elements -/

namespace Container

/-- Whether an element is what the view of its node reads as. -/
def ElementReadFrom : (c : Container) → c.Element → View c.elementKind → Prop
  | object, (key, d), v => View.KeyValue.keyWord? v = some (.token key.1.kind, key.1.text) ∧
      ∃ value, View.KeyValue.value? v = some value ∧ d.ReadFrom value
  | array, d, v => d.ReadFrom v

def ElementsReadFrom : (c : Container) → List c.Element → List (View c.elementKind) → Prop
  | object, members, views => Document.MembersReadFrom members views
  | array, items, views => Document.ItemsReadFrom items views

theorem elementsReadFrom_nil (c : Container) : c.ElementsReadFrom [] [] := by
  cases c <;> rfl

theorem elementsReadFrom_cons {c : Container} {e : c.Element} {es : List c.Element}
    {v : View c.elementKind} {vs : List (View c.elementKind)} (h : c.ElementReadFrom e v)
    (hs : c.ElementsReadFrom es vs) : c.ElementsReadFrom (e :: es) (v :: vs) := by
  cases c with
  | object => exact ⟨v, vs, rfl, h, hs⟩
  | array => exact ⟨v, vs, rfl, h, hs⟩

end Container

namespace Draft

/-! ## Views of drafts -/

/-- The view of a node at the front of a row. -/
def viewOf (o : Nat) (b : List (Option Text)) (kind : NodeKind) (first : Draft)
    (rest : List Draft) : View kind :=
  ⟨o + Token.sizeList first.trivia, Tree.slotsAfterRow b (first.trivia.map tokenLeaf),
    first.tree :: trees rest⟩

def viewsIn (kind : NodeKind) (o : Nat) (b : List (Option Text)) (ds : List Draft) :
    List (View kind) :=
  (Site.row o b (trees ds)).filterMap (·.view? kind)

theorem view?_leaf (kind : NodeKind) (o : Nat) (b : List (Option Text)) (l : Lexeme) :
    (siteOf o b (leaf l)).view? kind = none := rfl

theorem view?_plain (kind : NodeKind) (o : Nat) (b : List (Option Text)) (first : Draft)
    (rest : List Draft) :
    (siteOf o b (plain kind first rest)).view? kind = some (viewOf o b kind first rest) := by
  simp [Site.view?, tree, plain, siteOf, viewOf, trivia, firstLexeme]

theorem view?_plain_of_ne {kind kind' : NodeKind} (h : kind ≠ kind') (o : Nat)
    (b : List (Option Text)) (first : Draft) (rest : List Draft) :
    (siteOf o b (plain kind first rest)).view? kind' = none := by
  simp [Site.view?, tree, plain, h]

theorem filterMap_view?_tokens (kind : NodeKind) (ts : List Token) (o : Nat)
    (b : List (Option Text)) : (Site.row o b (ts.map tokenLeaf)).filterMap (·.view? kind) = [] := by
  induction ts generalizing o b with
  | nil => rfl
  | cons t ts ih => exact ih _ _

@[simp] theorem viewsIn_nil (kind : NodeKind) (o : Nat) (b : List (Option Text)) :
    viewsIn kind o b [] = [] := rfl

theorem viewsIn_cons (kind : NodeKind) (o : Nat) (b : List (Option Text)) (d : Draft)
    (ds : List Draft) :
    viewsIn kind o b (d :: ds) = ((siteOf o b d).view? kind).toList ++
      viewsIn kind (o + Lexeme.sizeList d.lexemes) (slotsBehind b d) ds := by
  rw [viewsIn, row_trees_cons, List.filterMap_append, filterMap_view?_tokens, List.nil_append,
    List.filterMap_cons]
  cases (siteOf o b d).view? kind <;> rfl

theorem parts_viewOf (o : Nat) (b : List (Option Text)) (kind : NodeKind) (first : Draft)
    (rest : List Draft) : Site.row o b (trees (first :: rest)) =
      Site.row o b (first.trivia.map tokenLeaf) ++ (viewOf o b kind first rest).parts :=
  row_trees_parts o b kind none none first rest

theorem all_viewOf (kind kind' : NodeKind) (o : Nat) (b : List (Option Text)) (first : Draft)
    (rest : List Draft) : (viewOf o b kind first rest).all kind' = viewsIn kind' o b (first :: rest) := by
  rw [viewsIn, parts_viewOf o b kind, List.filterMap_append, filterMap_view?_tokens]
  rfl

theorem first?_viewOf (kind kind' : NodeKind) (o : Nat) (b : List (Option Text)) (first : Draft)
    (rest : List Draft) :
    (viewOf o b kind first rest).first? kind' = (viewsIn kind' o b (first :: rest)).head? := by
  rw [← all_viewOf kind]
  exact List.head?_filterMap.symm

theorem elements_viewOf (c : Container) (o : Nat) (b : List (Option Text)) (opener : Lexeme)
    (ds : List Draft) (closer : Option Lexeme) :
    ((viewOf o b c.nodeKind (leaf opener) (wrap c.listKind ds ++ (closer.map leaf).toList)).first?
      c.listKind).toList.flatMap (·.all c.elementKind) =
        viewsIn c.elementKind (o + Lexeme.sizeList [opener]) (slotsBehind b (leaf opener)) ds := by
  have hcloser (o' : Nat) (b' : List (Option Text)) :
      viewsIn c.listKind o' b' (closer.map leaf).toList = [] := by
    cases closer with
    | none => rfl
    | some l => rw [Option.map_some, Option.toList_some, viewsIn_cons, view?_leaf]; rfl
  rw [first?_viewOf, viewsIn_cons, view?_leaf, Option.toList_none, List.nil_append]
  cases ds with
  | nil =>
    -- an empty container has no node for its list
    rw [wrap, List.nil_append, hcloser]
    rfl
  | cons d ds =>
    rw [wrap, List.singleton_append, viewsIn_cons, view?_plain, Option.toList_some,
      List.singleton_append, List.head?_cons, Option.toList_some, List.flatMap_singleton, all_viewOf]
    rfl

/-! ## Contents of values -/

theorem significantLeaf?_viewOf (kind : NodeKind) (o : Nat) (b : List (Option Text)) {l : Lexeme}
    (hl : l.kind.isTrivia = false) : (viewOf o b kind (leaf l) []).significantLeaf? =
      some ⟨o + Token.sizeList l.trivia, .token l.kind, l.token.text⟩ := by
  have hleaves : (viewOf o b kind (leaf l) []).leaves =
      [⟨o + Token.sizeList l.trivia, .token l.kind, l.token.text⟩] := rfl
  rw [View.significantLeaf?, hleaves, List.find?_cons]
  simp [Label.isTrivia, hl]

theorem content_leaf (o : Nat) (b : List (Option Text)) {l : Lexeme}
    (hl : l.kind.isTrivia = false) : View.Value.content (viewOf o b .value (leaf l) []) =
      .ofLeaf ⟨o + Token.sizeList l.trivia, .token l.kind, l.token.text⟩ := by
  have hnone : (viewOf o b .value (leaf l) []).parts.find? (·.tree.isNode) = none := rfl
  rw [View.Value.content, hnone, significantLeaf?_viewOf _ _ _ hl]

theorem content_node (o : Nat) (b : List (Option Text)) (kind : NodeKind) (first : Draft)
    (rest : List Draft) : View.Value.content (viewOf o b .value (plain kind first rest) []) =
      .ofNode (siteOf o b (plain kind first rest)) := by
  have hsome : (viewOf o b .value (plain kind first rest) []).parts.find? (·.tree.isNode) =
      some (siteOf o b (plain kind first rest)) := rfl
  rw [View.Value.content, hsome]

theorem word?_ofLeaf {w : Word} (hw : w.kind.isScalar = true) (o : Nat) :
    (View.Content.ofLeaf ⟨o, .token w.kind, w.text⟩).word? = some (w.kind, w.text) := by
  have hreserved := w.mem_reserved
  obtain ⟨kind, text, _⟩ := w
  simp only [Lexer.reserved, List.mem_cons, Prod.mk.injEq, List.not_mem_nil, or_false]
    at hreserved hw ⊢
  cases kind <;> simp_all [TokenKind.isScalar, TokenKind.isKeyword, View.Content.ofLeaf,
    View.Content.word?]

/-! ## Reading back -/

/-- What the drafts of a part of a document read as. -/
def ReadBack : Part → List Draft → Prop
  | .value d, ds => ∀ v, ds = [v] → ∀ o b, ∃ view,
      (siteOf o b v).view? .value = some view ∧ d.ReadFrom view
  | .element c e, ds => ∀ d, ds = [d] → ∀ o b, ∃ view,
      (siteOf o b d).view? c.elementKind = some view ∧ c.ElementReadFrom e view
  | .list c es, ds | .tail c es, ds => ∀ o b, c.ElementsReadFrom es (viewsIn c.elementKind o b ds)

theorem isTrivia_of_spells {l : Lexeme} {w : Word} (h : Spells l w)
    (hw : w.kind.isScalar = true ∨ w.kind.isKeyStart = true) : l.kind.isTrivia = false := by
  rw [h.1]
  revert hw
  cases w.kind <;> decide

theorem readFrom_container {c : Container} {es : List c.Element} {ds : List Draft}
    (h : ∀ o b, c.ElementsReadFrom es (viewsIn c.elementKind o b ds)) (opener closer : Lexeme)
    (o : Nat) (b : List (Option Text)) : (Document.ofElements c es).ReadFrom (viewOf o b .value
      (plain c.nodeKind (leaf opener) (wrap c.listKind ds ++ [leaf closer])) []) := by
  have hread := h (o + Lexeme.sizeList [opener]) (slotsBehind b (leaf opener))
  rw [← elements_viewOf c o b opener ds (some closer)] at hread
  cases c with
  | object =>
    refine ⟨viewOf o b .object (leaf opener) (wrap .members ds ++ [leaf closer]), ?_, hread⟩
    rw [content_node, View.Content.ofNode]
    simp only [Container.nodeKind, view?_plain]
    rfl
  | array =>
    refine ⟨viewOf o b .array (leaf opener) (wrap .items ds ++ [leaf closer]), ?_, hread⟩
    rw [content_node, View.Content.ofNode]
    simp only [Container.nodeKind, view?_plain]
    rfl

/-- What is drawn from a document reads as that document. -/
theorem readBack_of_drawn {p : Part} {ds : List Draft} (h : Drawn p ds) : ReadBack p ds := by
  induction h with
  | @scalar w l hl =>
    intro v hv o b
    obtain rfl := (List.cons.inj hv).1
    refine ⟨_, view?_plain _ _ _ _ _, ?_⟩
    rw [Document.ReadFrom, content_leaf _ _ (isTrivia_of_spells hl (.inl w.2)), hl.1, hl.2]
    exact word?_ofLeaf w.2 _
  | @container c es opener ds closer h ih =>
    intro v hv o b
    obtain rfl := (List.cons.inj hv).1
    exact ⟨_, view?_plain _ _ _ _ _, readFrom_container ih opener closer o b⟩
  | @member k d key colon v hk h ih =>
    intro m hm o b
    obtain rfl := (List.cons.inj hm).1
    refine ⟨_, view?_plain .keyValue o b _ _, ?_, ?_⟩
    · -- the key is the first part
      have hkey : View.KeyValue.key? (viewOf o b .keyValue (plain .key (leaf key) []) [leaf colon, v])
          = some (viewOf o b .key (leaf key) []) := by
        rw [View.KeyValue.key?, first?_viewOf, viewsIn_cons, view?_plain]
        rfl
      rw [View.KeyValue.keyWord?, hkey, Option.bind_some, View.Key.leaf?,
        significantLeaf?_viewOf _ _ _ (isTrivia_of_spells hk (.inr k.2)), Option.map_some, hk.1, hk.2]
    · -- the value is behind the key and the colon
      obtain ⟨view, hview, hread⟩ := ih v rfl
        (o + Lexeme.sizeList (plain .key (leaf key) []).lexemes + Lexeme.sizeList (leaf colon).lexemes)
        (slotsBehind (slotsBehind b (plain .key (leaf key) [])) (leaf colon))
      refine ⟨view, ?_, hread⟩
      rw [View.KeyValue.value?, first?_viewOf, viewsIn_cons, view?_plain_of_ne (by decide),
        viewsIn_cons, view?_leaf, viewsIn_cons, hview]
      rfl
  | item h ih => exact ih
  | nil => exact fun _ _ => Container.elementsReadFrom_nil _
  | @cons c e es d ds h ht ih iht =>
    intro o b
    obtain ⟨view, hview, hread⟩ := ih d rfl o b
    rw [viewsIn_cons, hview]
    exact Container.elementsReadFrom_cons hread (iht _ _)
  | done => exact fun _ _ => Container.elementsReadFrom_nil _
  | comma hl h ih =>
    intro o b
    rw [viewsIn_cons, view?_leaf]
    exact ih _ _
  | line hd h ih => exact ih

end Draft

/-! ## Only one document is read -/

namespace Document

theorem keyWord_inj {k k' : KeyWord} {key : Option (Label × Text)}
    (h : key = some (.token k.1.kind, k.1.text)) (h' : key = some (.token k'.1.kind, k'.1.text)) :
    k = k' := by
  obtain ⟨⟨_, _, _⟩, _⟩ := k
  obtain ⟨⟨_, _, _⟩, _⟩ := k'
  simp_all

mutual

/-- A value reads as one document at most. -/
theorem eq_of_readFrom : ∀ (d d' : Document) {v : View.Value}, d.ReadFrom v → d'.ReadFrom v → d = d'
  | scalar w, scalar x, v, h, h' => by
    rw [ReadFrom] at h h'
    obtain ⟨hk, ht⟩ := Prod.mk.inj (Option.some.inj (h.symm.trans h'))
    exact scalar_inj hk ht
  | scalar _, object _, v, h, ⟨o, ho, _⟩ => by simp [ReadFrom, ho, View.Content.word?] at h
  | scalar _, array _, v, h, ⟨a, ha, _⟩ => by simp [ReadFrom, ha, View.Content.word?] at h
  | object _, scalar _, v, ⟨o, ho, _⟩, h' => by simp [ReadFrom, ho, View.Content.word?] at h'
  | object members, object members', v, ⟨o, ho, h⟩, ⟨o', ho', h'⟩ => by
    obtain rfl : o = o' := by simpa [ho] using ho'
    rw [eq_of_membersReadFrom members members' h h']
  | object _, array _, v, ⟨o, ho, _⟩, ⟨a, ha, _⟩ => by simp [ho] at ha
  | array _, scalar _, v, ⟨a, ha, _⟩, h' => by simp [ReadFrom, ha, View.Content.word?] at h'
  | array _, object _, v, ⟨a, ha, _⟩, ⟨o, ho, _⟩ => by simp [ha] at ho
  | array items, array items', v, ⟨a, ha, h⟩, ⟨a', ha', h'⟩ => by
    obtain rfl : a = a' := by simpa [ha] using ha'
    rw [eq_of_itemsReadFrom items items' h h']

theorem eq_of_membersReadFrom : ∀ (members members' : List (KeyWord × Document))
    {views : List View.KeyValue}, MembersReadFrom members views → MembersReadFrom members' views →
      members = members'
  | [], [], _, _, _ => rfl
  | [], _ :: _, _, h, ⟨_, _, h', _⟩ => by simp [MembersReadFrom, h'] at h
  | _ :: _, [], _, ⟨_, _, h, _⟩, h' => by simp [MembersReadFrom, h] at h'
  | (k, d) :: members, (k', d') :: members', _, ⟨v, rest, hv, ⟨hk, w, hw, hd⟩, h⟩,
      ⟨v', rest', hv', ⟨hk', w', hw', hd'⟩, h'⟩ => by
    obtain ⟨rfl, rfl⟩ := List.cons.inj (hv.symm.trans hv')
    obtain rfl : w = w' := by simpa [hw] using hw'
    rw [keyWord_inj hk hk', eq_of_readFrom d d' hd hd', eq_of_membersReadFrom members members' h h']

theorem eq_of_itemsReadFrom : ∀ (items items' : List Document) {views : List View.Value},
    ItemsReadFrom items views → ItemsReadFrom items' views → items = items'
  | [], [], _, _, _ => rfl
  | [], _ :: _, _, h, ⟨_, _, h', _⟩ => by simp [ItemsReadFrom, h'] at h
  | _ :: _, [], _, ⟨_, _, h, _⟩, h' => by simp [ItemsReadFrom, h] at h'
  | d :: items, d' :: items', _, ⟨v, rest, hv, hd, h⟩, ⟨v', rest', hv', hd', h'⟩ => by
    obtain ⟨rfl, rfl⟩ := List.cons.inj (hv.symm.trans hv')
    rw [eq_of_readFrom d d' hd hd', eq_of_itemsReadFrom items items' h h']

end

end Document

end Maml
