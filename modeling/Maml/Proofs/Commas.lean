import Maml.Comma
import Maml.Proofs.Forms
import Maml.Proofs.Notes
import Maml.Proofs.Parts

/-! Which commas of a list are reported.

1. What is in front of a comma in its list decides what becomes of it: it is stray at the
   start of the list and behind a comma that is an element, and is an element itself
   otherwise (`commasSorted_of_shaped`).
2. Every comma on the level of a list has an `Origin` among the drafts of its container
   (`nonempty_origin`). What is in front of it there is what is in front of it in the
   document (`separated_iff`), and only the note of a stray comma covers it
   (`perm_errors`).
3. So it is with every comma in a list of a document (`comma_reported_or_kept`). The rule
   that also a comma behind a stray one is stray fails (`not_obeysRule`). -/
namespace Maml

namespace Draft

/-! ## Commas in a list -/

/-- Whether a bracket or a comma is directly in front of what comes behind some drafts of a list;
`separated` says so of the first of them. -/
def separatedAfter (separated : Bool) (front : List Draft) : Bool :=
  (front.getLast?.map (·.isToken .comma)).getD separated

@[simp] theorem separatedAfter_nil (b : Bool) : separatedAfter b [] = b := rfl

theorem separatedAfter_cons (b : Bool) (d : Draft) (ds : List Draft) :
    separatedAfter b (d :: ds) = separatedAfter (d.isToken .comma) ds := by
  cases ds with
  | nil => rfl
  | cons d' ds => rfl

/-- Whether a draft is a token or a node of skipped tokens that holds it. -/
def Holds (d : Draft) (l : Lexeme) : Prop :=
  d = leaf l ∨ ∃ before first rest after,
    d = node .error before first rest after ∧ leaf l ∈ first :: rest

theorem ne_comma_of_mem_skipped {e : List Container} {ds : List Draft} {l : Lexeme}
    (h : Shaped e .skipped ds) (hl : leaf l ∈ ds) : l.kind ≠ .comma := by
  generalize hplace : Place.skipped = place at h
  induction h with
  | skippedNil => simp at hl
  | skippedToken hr ho hds ih =>
    rcases List.mem_cons.mp hl with heq | hl
    · obtain rfl := Draft.leaf.inj heq
      intro hc
      simp [resumesMembers, hc] at hr
    · exact ih hl hplace
  | skippedValue hd hds ihd ih =>
    obtain ⟨first, rfl⟩ := exists_plain_of_shaped hd
    rcases List.mem_cons.mp hl with heq | hl
    · simp [plain] at heq
    · exact ih hl hplace
  | _ => simp at hplace

theorem ne_comma_of_mem_literalKey {e : List Container} {key colon l : Lexeme}
    {note : Option ParseError} {value : List Draft} (hk : isQuotable key.kind = true)
    (hc : colon.kind = .colon) (hv : Shaped e (.behindColon colon note) value)
    (hl : leaf l ∈ leaf key :: leaf colon :: value) : l.kind ≠ .comma := by
  have hvalue : leaf l ∉ value := by
    rcases shaped_behindColon hv with ⟨next, rfl, -⟩ | ⟨d, rfl, -, hd⟩
    · simp
    · obtain ⟨first, rfl⟩ := exists_plain_of_shaped hd
      simp [plain]
  rcases List.mem_cons.mp hl with heq | hl
  · obtain rfl := Draft.leaf.inj heq
    rintro hkey
    rw [hkey] at hk
    exact absurd hk (by decide)
  rcases List.mem_cons.mp hl with heq | hl
  · obtain rfl := Draft.leaf.inj heq
    simp [hc]
  · exact absurd hl hvalue

theorem not_holds_error {before after : Option ParseError} {first : Draft} {rest : List Draft}
    (h : ∀ l, leaf l ∈ first :: rest → l.kind ≠ .comma) {l : Lexeme} (hl : l.kind = .comma) :
    ¬ Holds (node .error before first rest after) l := by
  rintro (heq | ⟨before', first', rest', after', heq, hmem⟩)
  · simp at heq
  · simp only [node.injEq, true_and] at heq
    obtain ⟨-, rfl, rfl, -⟩ := heq
    exact h l hmem hl

theorem not_holds_of_kind {kind : NodeKind} (hk : kind ≠ .error) {before after : Option ParseError}
    {first : Draft} {rest : List Draft} {l : Lexeme} :
    ¬ Holds (node kind before first rest after) l := by
  rintro (h | ⟨before', first', rest', after', h, -⟩)
  · simp at h
  · exact hk (node.inj h).1

/-- Whether a draft of a list is a comma, or made for one that is stray; it is stray if a bracket or
a comma that is an element is directly in front of it. -/
def Sorted (c : Container) (separated : Bool) (d : Draft) (l : Lexeme) : Prop :=
  (d = leaf l ∧ separated = false) ∨
    (d = strayComma c.expectedElement (leaf l) ∧ separated = true)

/-- Whether this is so of every draft of a list that holds a comma. -/
def CommasSorted (c : Container) (b : Bool) (ds : List Draft) : Prop :=
  ∀ front d back l, ds = front ++ d :: back → Holds d l → l.kind = .comma →
    Sorted c (separatedAfter b front) d l

theorem commasSorted_cons {c : Container} {b : Bool} {d : Draft} {ds : List Draft}
    (hd : ∀ l, Holds d l → l.kind = .comma → Sorted c b d l)
    (hds : CommasSorted c (d.isToken .comma) ds) : CommasSorted c b (d :: ds) := by
  intro front d' back l hrow hholds hl
  rcases List.append_eq_cons_iff.mp hrow.symm with ⟨rfl, hhead⟩ | ⟨front, rfl, htail⟩
  · obtain ⟨rfl, -⟩ := List.cons.inj hhead
    exact hd l hholds hl
  · rw [separatedAfter_cons]
    exact hds front d' back l htail hholds hl

theorem commasSorted_element {c : Container} {b : Bool} {d : Draft} {ds : List Draft}
    (hd : ∀ l, l.kind = .comma → ¬ Holds d l) (hds : CommasSorted c false ds) :
    CommasSorted c b (d :: ds) := by
  have htoken : d.isToken .comma = false := by
    cases d with
    | leaf l => exact beq_false_of_ne fun hl => hd l hl (.inl rfl)
    | node => rfl
  refine commasSorted_cons (fun l hel hl => absurd hel (hd l hl)) ?_
  rw [htoken]
  exact hds

theorem commasSorted_of_shaped {e : List Container} {c : Container} {b : Bool} {ds : List Draft}
    (h : Shaped e (.list c b) ds) : CommasSorted c b ds := by
  generalize hplace : Place.list c b = place at h
  induction h generalizing b with
  | nil =>
    intro front d back l hrow
    simp at hrow
  | @comma e c' l' ds hkind hds ih =>
    obtain ⟨rfl, rfl⟩ : c = c' ∧ b = false := by simpa using hplace
    have htoken : (leaf l').isToken .comma = true := beq_iff_eq.mpr hkind
    refine commasSorted_cons ?_ (htoken ▸ ih rfl)
    rintro l (heq | ⟨before, first, rest, after, heq, -⟩) _
    · exact .inl ⟨heq, rfl⟩
    · simp at heq
  | @stray e c' l' ds hkind hds ih =>
    obtain ⟨rfl, rfl⟩ : c = c' ∧ b = true := by simpa using hplace
    refine commasSorted_cons ?_ (ih rfl)
    rintro l (heq | ⟨before, first, rest, after, heq, hmem⟩) _
    · simp [strayComma] at heq
    · simp only [strayComma, node.injEq, true_and] at heq
      obtain ⟨-, rfl, rfl, -⟩ := heq
      obtain rfl : l = l' := by simpa using hmem
      exact .inr ⟨rfl, rfl⟩
  | item hd hds ihd ih =>
    obtain ⟨rfl, rfl⟩ : c = .array ∧ _ := by simpa using hplace
    obtain ⟨first, rfl⟩ := exists_plain_of_shaped hd
    exact commasSorted_element (fun l _ => not_holds_of_kind (by simp)) (ih rfl)
  | keyValue hk hc hv hds ihv ih =>
    obtain ⟨rfl, rfl⟩ : c = .object ∧ _ := by simpa using hplace
    exact commasSorted_element (fun l _ => not_holds_of_kind (by simp)) (ih rfl)
  | incomplete hk hne hds ih =>
    obtain ⟨rfl, rfl⟩ : c = .object ∧ _ := by simpa using hplace
    exact commasSorted_element (fun l _ => not_holds_of_kind (by simp)) (ih rfl)
  | incompleteSkipped hk hs hds ihs ih =>
    obtain ⟨rfl, rfl⟩ : c = .object ∧ _ := by simpa using hplace
    exact commasSorted_element (fun l _ => not_holds_of_kind (by simp))
      (commasSorted_element (fun l hl => not_holds_error (fun l => ne_comma_of_mem_skipped hs) hl)
        (ih rfl))
  | literalKey hk hc hv hds ihv ih =>
    obtain ⟨rfl, rfl⟩ : c = .object ∧ _ := by simpa using hplace
    exact commasSorted_element
      (fun l hl => not_holds_error (fun l => ne_comma_of_mem_literalKey hk hc hv) hl) (ih rfl)
  | junk hs hq hds ihs ih =>
    obtain ⟨rfl, rfl⟩ : c = .object ∧ _ := by simpa using hplace
    exact commasSorted_element
      (fun l hl => not_holds_error (fun l => ne_comma_of_mem_skipped hs) hl) (ih rfl)
  | _ => simp at hplace

end Draft

/-! ## Commas among drafts -/

open Draft

theorem isTrivia_of_isTokenOf_comma {t : Tree} (h : t.isTokenOf .comma = true) :
    t.isTrivia = false := by
  obtain ⟨text, rfl⟩ := exists_eq_leaf_of_isTokenOf h
  rfl

namespace Comma

/-- Where a comma in the list of a container comes from: a draft in the row between the brackets. -/
structure Origin (m : Comma) (c : Container) (source : Text) where
  /-- The container. -/
  standing : Standing
  opener : Lexeme
  front : List Draft
  /-- The draft that is the comma or holds it. -/
  draft : Draft
  comma : Lexeme
  back : List Draft
  closer : Option Lexeme
  after : Option ParseError
  mem_standings : standing ∈ Parse.standings source
  draft_eq : standing.draft = containerNode c opener (front ++ draft :: back) closer after
  missing_after : ∀ err ∈ after.toList, err.isMissing = true
  formed : EveryNode Formed (front ++ draft :: back)
  kind_opener : opener.kind = c.opener
  kind_comma : comma.kind = .comma
  sorted : Sorted c (separatedAfter true front) draft comma
  container_eq : m.container = standing.site
  /-- Where what is between the brackets begins. -/
  offset : Nat
  before : List (Option Text)
  offset_eq : offset = standing.offset + Lexeme.sizeList [opener]
  mem_list : ∀ s : Site, s.tree.isTrivia = false →
    (s ∈ m.list.parts ↔ s ∈ sitesOf offset before (front ++ draft :: back))
  element_eq : m.element = siteOf (offset + Lexeme.sizeList (lexemesList front))
    (front.foldl slotsBehind before) draft
  site_eq : m.site = siteOf (offset + Lexeme.sizeList (lexemesList front))
    (front.foldl slotsBehind before) (leaf comma)

/-- A comma that is the tree of a draft, or a part of it, stands where the draft does. -/
theorem exists_site_eq {m : Comma} {c : Container} {separated : Bool} {o : Nat}
    {b : List (Option Text)} {d : Draft} (hp : Placed o d.lexemes)
    (hsorted : ∀ l, Holds d l → l.kind = .comma → Sorted c separated d l)
    (helement : m.element = siteOf o b d)
    (hsite : m.site = m.element ∨
      (m.element.tree.isNodeOf .error = true ∧ m.site ∈ m.element.parts))
    (hcomma : m.site.tree.isTokenOf .comma = true) :
    ∃ l, l.kind = .comma ∧ Sorted c separated d l ∧ m.site = siteOf o b (leaf l) := by
  rcases hsite with hsame | ⟨herror, hpart⟩
  · rw [hsame, helement] at hcomma
    cases d with
    | leaf l =>
      have hl : l.kind = .comma := by simpa using hcomma
      exact ⟨l, hl, hsorted l (.inl rfl) hl, hsame.trans helement⟩
    | node => exact absurd hcomma Bool.false_ne_true
  · rw [helement] at herror hpart
    cases d with
    | leaf l => exact absurd herror Bool.false_ne_true
    | node kind before first rest after =>
      obtain rfl : kind = .error := by simpa [isNodeOf_node] using herror
      rw [mem_parts hp (isTrivia_of_isTokenOf_comma hcomma)] at hpart
      obtain ⟨front, d, back, hrow, hsite⟩ := exists_of_mem_sitesOf hpart
      rw [hsite] at hcomma
      cases d with
      | node => exact absurd hcomma Bool.false_ne_true
      | leaf l =>
        have hl : l.kind = .comma := by simpa using hcomma
        have hmem : leaf l ∈ first :: rest := by
          rw [hrow]
          simp
        rcases hsorted l (.inr ⟨_, _, _, _, rfl, hmem⟩) hl with ⟨hleaf, -⟩ | ⟨hstray, hsep⟩
        · simp at hleaf
        refine ⟨l, hl, .inr ⟨hstray, hsep⟩, ?_⟩
        -- nothing is in front of the comma in its node
        simp only [strayComma, node.injEq, true_and] at hstray
        obtain ⟨-, rfl, rfl, -⟩ := hstray
        obtain rfl : front = [] := by
          rcases List.singleton_eq_append_iff.mp hrow with ⟨hfront, -⟩ | ⟨-, hback⟩
          · exact hfront
          · simp at hback
        exact hsite

/-- Every comma on the level of a list comes from a draft. -/
theorem nonempty_origin {m : Comma} {c : Container} {source : Text} (h : m.IsIn c (parse source)) :
    Nonempty (m.Origin c source) := by
  obtain ⟨x, hx, hcontainer⟩ := exists_standing_of_isNodeOf h.container h.isContainer
  have hp := Parse.isPlaced_of_mem_standings hx
  have hkind := h.isContainer
  rw [hcontainer] at hkind
  obtain ⟨e, opener, ds, closer, after, hdraft, hopener, -, hshaped, hafter⟩ :=
    exists_containerNode (Parse.formed_of_mem_standings hx) hkind
  have hmissing : ∀ err ∈ after.toList, err.isMissing = true := by
    split at hafter
    · simp [hafter]
    · obtain ⟨next, rfl⟩ := hafter
      exact isMissing_of_mem_missing
  have hlist := h.list
  rw [Standing.IsPlaced, hdraft] at hp
  rw [hcontainer, Standing.site, hdraft] at hlist
  obtain ⟨d, ds', rfl, hlisteq⟩ := exists_list_of_mem_parts hp hlist h.isList
  rw [lexemes_containerNode] at hp
  have hrow : Placed (x.offset + Lexeme.sizeList [opener]) (lexemesList (d :: ds')) :=
    (placed_append.mp (placed_cons hp).2.2.2).1
  have hparts (s : Site) (hs : s.tree.isTrivia = false) : s ∈ m.list.parts ↔
      s ∈ sitesOf (x.offset + Lexeme.sizeList [opener]) (slotsBehind x.before (leaf opener))
        (d :: ds') := by
    rw [hlisteq, plain, mem_parts hrow hs]
  have hsignificant : m.element.tree.isTrivia = false := by
    rcases h.site with hsame | ⟨herror, -⟩
    · exact isTrivia_of_isTokenOf_comma (hsame ▸ h.isComma)
    · exact isTrivia_of_isNodeOf herror
  obtain ⟨front, el, back, hds, helement⟩ :=
    exists_of_mem_sitesOf ((hparts _ hsignificant).mp h.element)
  rw [hds] at hshaped hdraft hrow hparts
  rw [lexemesList_append, lexemesList_cons] at hrow
  obtain ⟨l, hl, hsorted, hsite⟩ := exists_site_eq
    (placed_append.mp (placed_append.mp hrow).2).1
    (fun l => commasSorted_of_shaped hshaped front el back l rfl) helement h.site h.isComma
  exact ⟨⟨x, opener, front, el, l, back, closer, after, hx, hdraft, hmissing,
    everyNode_of_shaped hshaped, hopener, hl, hsorted, hcontainer, _, _, rfl, hparts, helement,
    hsite⟩⟩

/-! ## In front of a comma -/

namespace Origin

variable {m : Comma} {c : Container} {source : Text} (g : m.Origin c source)

/-- The lexeme in front of the comma. -/
def previous : Lexeme := (lexemesList g.front).getLast?.getD g.opener

theorem lexemes_draft : g.draft.lexemes = [g.comma] := by
  rcases g.sorted with ⟨h, -⟩ | ⟨h, -⟩ <;> rw [h] <;> rfl

theorem lexemes_standing : g.standing.draft.lexemes = g.opener ::
    (lexemesList g.front ++ g.comma :: (lexemesList g.back ++ g.closer.toList)) := by
  rw [g.draft_eq, lexemes_containerNode, lexemesList_append, lexemesList_cons, g.lexemes_draft,
    List.append_assoc]
  rfl

theorem placed : Placed g.standing.offset (g.opener ::
    (lexemesList g.front ++ g.comma :: (lexemesList g.back ++ g.closer.toList))) := by
  rw [← g.lexemes_standing]
  exact Parse.isPlaced_of_mem_standings g.mem_standings

theorem placed_inside : Placed g.offset (lexemesList g.front) ∧
    Placed (g.offset + Lexeme.sizeList (lexemesList g.front))
      (g.comma :: (lexemesList g.back ++ g.closer.toList)) := by
  rw [g.offset_eq]
  exact placed_append.mp (placed_cons g.placed).2.2.2

theorem placed_front : Placed g.offset (lexemesList g.front) := g.placed_inside.1

theorem placed_behind : Placed (g.offset + Lexeme.sizeList (lexemesList g.front))
    (g.comma :: (lexemesList g.back ++ g.closer.toList)) := g.placed_inside.2

theorem placed_comma : Placed (g.offset + Lexeme.sizeList (lexemesList g.front)) [g.comma] :=
  placed_head g.placed_behind

theorem leaf?_site : m.site.leaf? = some g.comma.view := by
  rw [g.site_eq]
  exact leaf?_siteOf g.placed_comma _

theorem range_site : m.site.range = g.comma.token.span := by
  rw [g.site_eq]
  exact range_siteOf (d := leaf g.comma) g.placed_comma _

theorem begin?_container : m.container.begin? = some g.opener.view := by
  rw [g.container_eq, Standing.site, g.draft_eq]
  exact leaf?_siteOf (placed_head g.placed) _

theorem leafBefore?_site : (parse source).leafBefore? m.site.offset = some g.previous.view := by
  obtain ⟨front, back, hlexemes, -⟩ := among_of_mem_standingsRow 0 [] _ _ g.mem_standings
  rw [lexemes_documentDrafts, g.lexemes_standing] at hlexemes
  have hcomma : Parse.lexemes source = (front ++ g.opener :: lexemesList g.front) ++
      g.comma :: (lexemesList g.back ++ g.closer.toList ++ back) := by
    rw [Parse.lexemes, hlexemes]
    simp
  have hoffset : m.site.offset = g.comma.token.span.start := congrArg Span.start g.range_site
  rw [hoffset, Parse.leafBefore?_parse hcomma, List.getLast?_append, List.getLast?_cons]
  rfl

/-- It is the opener, or in the draft in front of the comma. -/
theorem previous_cases : (g.front = [] ∧ g.previous = g.opener) ∨
    ∃ front d, g.front = front ++ [d] ∧ g.previous ∈ d.lexemes ∧
      ∀ l, d = leaf l → g.previous = l := by
  rcases List.eq_nil_or_concat' g.front with h | ⟨front, d, h⟩
  · exact .inl ⟨h, by rw [previous, h]; rfl⟩
  refine .inr ⟨front, d, h, ?_⟩
  obtain ⟨ls, hls⟩ := exists_lexemes_eq_cons d
  have hprevious : d.lexemes.getLast? = some g.previous := calc
    d.lexemes.getLast? = (lexemesList g.front).getLast? := by
      rw [h, lexemesList_append, lexemesList_singleton]
      exact (List.getLast?_append_of_ne_nil _ (by simp [hls])).symm
    _ = some ((lexemesList g.front).getLast?.getD g.opener) := by
      rw [h, lexemesList_append, lexemesList_singleton, hls, List.getLast?_append,
        List.getLast?_cons]
      rfl
    _ = some g.previous := rfl
  refine ⟨List.mem_of_getLast? hprevious, ?_⟩
  rintro l rfl
  exact (Option.some.inj hprevious).symm

theorem previous_mem {front : List Draft} {d : Draft} (h : g.front = front ++ [d])
    (hmem : g.previous ∈ d.lexemes) : g.previous ∈ lexemesList g.front := by
  rw [h, lexemesList_append, lexemesList_singleton]
  exact List.mem_append_right _ hmem

theorem start_previous : g.previous.token.span.start <
    g.offset + Lexeme.sizeList (lexemesList g.front) := by
  rcases g.previous_cases with ⟨-, hprevious⟩ | ⟨front, d, h, hmem, -⟩
  · obtain ⟨-, hlt, hstop, -⟩ := placed_cons g.placed
    rw [hprevious, g.offset_eq]
    omega
  · have hbounds := bounds_of_placed g.placed_front _ (g.previous_mem h hmem)
    omega

theorem followsOpener_iff : m.FollowsOpener (parse source) ↔ g.front = [] := by
  rw [FollowsOpener, g.leafBefore?_site, g.begin?_container]
  constructor
  · rintro ⟨l, hprevious, hopener⟩
    have hsame : g.previous.token.span.start = g.opener.token.span.start :=
      congrArg LeafView.offset ((Option.some.inj hprevious).trans (Option.some.inj hopener).symm)
    rcases g.previous_cases with ⟨h, -⟩ | ⟨front, d, h, hmem, -⟩
    · exact h
    · -- what is in front of it is behind the opener
      have hbounds := bounds_of_placed g.placed_front _ (g.previous_mem h hmem)
      obtain ⟨-, hlt, hstop, -⟩ := placed_cons g.placed
      rw [g.offset_eq] at hbounds
      omega
  · intro h
    rcases g.previous_cases with ⟨-, hprevious⟩ | ⟨front, d, hconcat, -⟩
    · exact ⟨_, rfl, by rw [hprevious]⟩
    · simp [h] at hconcat

/-- A part of the list that begins where the lexeme in front of the comma does is in front of the
comma. -/
theorem mem_sitesOf_front {s : Site} (hs : s ∈ m.list.parts) (htrivia : s.tree.isTrivia = false)
    (hoffset : s.offset = g.previous.token.span.start) :
    s ∈ sitesOf g.offset g.before g.front := by
  rw [g.mem_list s htrivia, sitesOf_append] at hs
  refine (List.mem_append.mp hs).resolve_right fun hbehind => ?_
  have hplaced : Placed (g.offset + Lexeme.sizeList (lexemesList g.front))
      (lexemesList (g.draft :: g.back)) := by
    have h := g.placed_behind
    rw [← List.cons_append] at h
    rw [lexemesList_cons, g.lexemes_draft]
    exact (placed_append.mp h).1
  have hbounds := bounds_of_mem_sitesOf hplaced hbehind
  have hstart := g.start_previous
  omega

/-- The comma follows a separator if the draft in front of it is a comma. -/
theorem followsSeparator_iff : m.FollowsSeparator (parse source) ↔
    ∃ front l, g.front = front ++ [leaf l] ∧ l.kind = .comma := by
  rw [FollowsSeparator, g.leafBefore?_site]
  constructor
  · rintro ⟨l, hl, s, hs, hcomma, hleaf⟩
    have hoffset : s.offset = g.previous.token.span.start := by
      rw [(Site.leaf?_eq_some hleaf).1, ← Option.some.inj hl, offset_view]
    have hfront := g.mem_sitesOf_front hs (isTrivia_of_isTokenOf_comma hcomma) hoffset
    rcases g.previous_cases with ⟨h, -⟩ | ⟨front, d, h, hmem, -⟩
    · simp [h, sitesOf] at hfront
    rw [h, sitesOf_append] at hfront
    have hplaced := g.placed_front
    rw [h, lexemesList_append, lexemesList_singleton] at hplaced
    obtain ⟨hfirst, hd⟩ := placed_append.mp hplaced
    rcases List.mem_append.mp hfront with hfront | hlast
    · -- the lexeme is in the last draft, so it is not in front of that
      have hbounds := bounds_of_mem_sitesOf hfirst hfront
      have hprevious := bounds_of_placed hd _ hmem
      omega
    · obtain rfl := List.mem_singleton.mp hlast
      cases d with
      | leaf l => exact ⟨front, l, h, by simpa using hcomma⟩
      | node => exact absurd hcomma Bool.false_ne_true
  · rintro ⟨front, l, h, hl⟩
    have hplaced := g.placed_front
    rw [h, lexemesList_append, lexemesList_singleton] at hplaced
    have hleaf := leaf?_siteOf (placed_append.mp hplaced).2 (front.foldl slotsBehind g.before)
    have hprevious : g.previous = l := by
      rcases g.previous_cases with ⟨hnil, -⟩ | ⟨front', d, hconcat, -, hlast⟩
      · simp [h] at hnil
      · rw [h] at hconcat
        obtain ⟨-, hd⟩ := List.append_singleton_inj.mp hconcat
        exact hlast l hd.symm
    have hcomma : (leaf l).tree.isTokenOf .comma = true := by simp [hl]
    refine ⟨_, rfl, siteOf (g.offset + Lexeme.sizeList (lexemesList front))
      (front.foldl slotsBehind g.before) (leaf l), ?_, hcomma, by rw [hprevious, hleaf]⟩
    rw [g.mem_list _ (isTrivia_of_isTokenOf_comma hcomma), h, List.append_assoc, sitesOf_append]
    exact List.mem_append_right _ List.mem_cons_self

/-- So what is in front of the comma in its list is what is in front of it in the document. -/
theorem separated_iff : separatedAfter true g.front = true ↔
    m.FollowsOpener (parse source) ∨ m.FollowsSeparator (parse source) := by
  rw [g.followsOpener_iff, g.followsSeparator_iff]
  rcases List.eq_nil_or_concat' g.front with h | ⟨front, d, h⟩
  · simp [h]
  · rw [h]
    cases d with
    | leaf l => simp [separatedAfter, isToken, List.append_singleton_inj]
    | node => simp [separatedAfter, isToken, List.append_singleton_inj]

/-! ## Errors at a comma -/

theorem formed_rows : (∀ x ∈ standingsRow g.offset g.before g.front, Formed x.draft) ∧
    ∃ b, ∀ x ∈ standingsRow (g.offset + Lexeme.sizeList (lexemesList g.front) +
      Lexeme.sizeList [g.comma]) b g.back, Formed x.draft := by
  have hrow := g.formed g.offset g.before
  rw [standingsRow_append, standingsRow, g.lexemes_draft] at hrow
  obtain ⟨hfront, hbehind⟩ := List.forall_mem_append.mp hrow
  exact ⟨hfront, _, (List.forall_mem_append.mp hbehind).2⟩

theorem within_standing : g.standing.site.offset < g.comma.token.span.start ∧
    g.comma.token.span.start < g.standing.site.stop := by
  obtain ⟨hcomma, -, -, -⟩ := placed_cons g.placed_behind
  obtain ⟨-, hopener, hstop, -⟩ := placed_cons g.placed
  have hoffset : g.standing.site.offset = g.opener.token.span.start := by
    rw [Standing.offset_site (Parse.isPlaced_of_mem_standings g.mem_standings), g.draft_eq]
    rfl
  have hwithin := bounds_of_placed g.placed g.comma (by simp)
  rw [hoffset, Standing.stop_site_eq, g.lexemes_standing]
  rw [g.offset_eq] at hcomma
  omega

/-- Only what is noted at the draft of a comma covers the comma. -/
theorem perm_errors : (g.draft.errors.filter (·.range == g.comma.token.span)).Perm
    (m.errors (parse source)) := by
  obtain ⟨hcomma, hlt, hstop, hback⟩ := placed_cons g.placed_behind
  obtain ⟨hfronts, b, hbacks⟩ := g.formed_rows
  obtain ⟨hstart, hend⟩ := g.within_standing
  have hne : g.comma.token.span.isEmpty = false := beq_false_of_ne (Nat.ne_of_lt hlt)
  have hfront := filter_errorsList_eq_nil hfronts g.placed_front hne (.inr hcomma)
  have hbehind := filter_errorsList_eq_nil hbacks (placed_append.mp hback).1 hne
    (.inl (by omega))
  have hafter : g.after.toList.filter (·.range == g.comma.token.span) = [] := by
    rw [List.filter_eq_nil_iff]
    intro err herr hrange
    have hmissing := g.missing_after err herr
    rw [ParseError.isMissing, beq_iff_eq.mp hrange, hne] at hmissing
    exact absurd hmissing Bool.false_ne_true
  have herrors := Parse.filter_errors_parse g.mem_standings hne hstart hend
  rw [g.draft_eq, errors_containerNode, errorsList_append, errorsList_cons, List.filter_append,
    List.filter_append, List.filter_append, hfront, hbehind, hafter, List.nil_append,
    List.append_nil, List.append_nil] at herrors
  rw [errors, g.range_site]
  exact herrors

theorem isKept (h : g.draft = leaf g.comma) : m.IsKept (parse source) := by
  have herrors := g.perm_errors
  rw [h] at herrors
  exact ⟨by rw [g.site_eq, g.element_eq, h], herrors.symm.eq_nil⟩

theorem isReported (h : g.draft = strayComma c.expectedElement (leaf g.comma)) :
    m.IsReported c (parse source) := by
  have herrors := g.perm_errors
  have hdraft : (strayComma c.expectedElement (leaf g.comma)).errors =
      [.ofToken c.expectedElement g.comma.token g.comma.token.span] := rfl
  rw [h, hdraft, List.filter_cons_of_pos (by exact beq_self_eq_true _), List.filter_nil] at herrors
  have hsite : m.errors (parse source) =
      [.ofToken c.expectedElement g.comma.token g.comma.token.span] :=
    List.perm_singleton.mp herrors.symm
  refine ⟨?_, ?_, g.comma.view, g.leaf?_site, ?_⟩
  · rw [g.element_eq, h]
    rfl
  · rw [g.element_eq, g.site_eq, h]
    rfl
  · have hkind : g.comma.token.kind = .comma := g.kind_comma
    rw [hsite, g.range_site, ParseError.ofToken, hkind]
    rfl

/-- A comma behind the opener is not behind another comma. -/
theorem not_followsComma (g : m.Origin c source) (h : m.FollowsOpener (parse source)) :
    ¬ m.FollowsComma (parse source) := by
  rintro ⟨l, hl, hlabel⟩
  obtain ⟨l', hl', hopener⟩ := h
  rw [hl] at hl'
  rw [← hl', g.begin?_container] at hopener
  obtain rfl := Option.some.inj hopener
  have hkind : g.opener.kind = .comma := Label.token.inj hlabel
  rw [g.kind_opener] at hkind
  revert hkind
  cases c <;> decide

end Origin

theorem FollowsSeparator.followsComma {m : Comma} {p : Parse} (h : m.FollowsSeparator p) :
    m.FollowsComma p := by
  obtain ⟨l, hl, s, -, hcomma, hleaf⟩ := h
  rw [(Site.leaf?_eq_some hleaf).2] at hcomma
  exact ⟨l, hl, beq_iff_eq.mp hcomma⟩

theorem IsReported.not_isKept {m : Comma} {c : Container} {p : Parse} (h : m.IsReported c p)
    (hcomma : m.site.tree.isTokenOf .comma = true) : ¬ m.IsKept p := by
  rintro ⟨hsame, -⟩
  have herror := h.1
  obtain ⟨text, htree⟩ := exists_eq_leaf_of_isTokenOf hcomma
  rw [← hsame, htree] at herror
  exact absurd herror Bool.false_ne_true

end Comma

/-- A comma on the level of a list is reported, alone in a node, if the opener or a comma that is a
child of the list is directly in front of it; otherwise it is a child of the list itself, and
nothing reports it. So the rule that commas right after a comma are the ones reported holds of a
comma unless a stray one is in front of it. -/
theorem comma_reported_or_kept {source : Text} {c : Container} {m : Comma}
    (h : m.IsIn c (parse source)) :
    (m.FollowsOpener (parse source) ∨ m.FollowsSeparator (parse source) →
      m.IsReported c (parse source)) ∧
    (¬ (m.FollowsOpener (parse source) ∨ m.FollowsSeparator (parse source)) →
      m.IsKept (parse source)) ∧
    (m.ObeysRule c (parse source) ↔
      (m.FollowsComma (parse source) → m.FollowsSeparator (parse source))) := by
  obtain ⟨g⟩ := Comma.nonempty_origin h
  rcases g.sorted with ⟨hdraft, hseparated⟩ | ⟨hdraft, hseparated⟩
  · -- the comma is an element of the list
    have hkept := g.isKept hdraft
    have hnot : ¬ (m.FollowsOpener (parse source) ∨ m.FollowsSeparator (parse source)) := by
      rw [← g.separated_iff, hseparated]
      exact Bool.false_ne_true
    refine ⟨fun hfollows => absurd hfollows hnot, fun _ => hkept, ?_⟩
    constructor
    · intro hrule hcomma
      exact absurd hkept ((hrule.1 (.inr hcomma)).not_isKept h.isComma)
    · intro hcomma
      refine ⟨fun hfollows => absurd (hfollows.imp_right hcomma) hnot, fun _ => hkept⟩
  · -- the comma is alone in its node
    have hreported := g.isReported hdraft
    have hfollows := g.separated_iff.mp hseparated
    refine ⟨fun _ => hreported, fun hnot => absurd hfollows hnot, ?_⟩
    constructor
    · intro _ hcomma
      exact hfollows.resolve_left fun hopener => g.not_followsComma hopener hcomma
    · intro _
      exact ⟨fun _ => hreported, fun hnot =>
        absurd (hfollows.imp_right Comma.FollowsSeparator.followsComma) hnot⟩

/-- In `[1,,]` the second comma is on the level of the list, behind a separator, and reported. -/
theorem second_comma_reported : ∃ m : Comma, m.IsIn .array (parse ['[', '1', ',', ',', ']']) ∧
    m.FollowsSeparator (parse ['[', '1', ',', ',', ']']) ∧
    m.IsReported .array (parse ['[', '1', ',', ',', ']']) := by
  let p := parse ['[', '1', ',', ',', ']']
  let container := p.sites.get ⟨2, by decide +kernel⟩
  let list := container.parts.get ⟨1, by decide +kernel⟩
  let element := list.parts.get ⟨2, by decide +kernel⟩
  let m : Comma := ⟨container, list, element, element.parts.get ⟨0, by decide +kernel⟩⟩
  have hin : m.IsIn .array p :=
    ⟨List.get_mem .., by decide +kernel, List.get_mem .., by decide +kernel, List.get_mem ..,
      .inr ⟨by decide +kernel, List.get_mem ..⟩, by decide +kernel⟩
  have hfollows : m.FollowsSeparator p :=
    ⟨⟨2, .token .comma, [',']⟩, by decide +kernel, list.parts.get ⟨1, by decide +kernel⟩,
      List.get_mem .., by decide +kernel, by decide +kernel⟩
  exact ⟨m, hin, hfollows, (comma_reported_or_kept hin).1 (.inr hfollows)⟩

/-- In `[,,]` the second comma is right after another one, and not reported. -/
theorem not_obeysRule : ¬ ∀ (m : Comma) (c : Container), m.IsIn c (parse ['[', ',', ',', ']']) →
    m.ObeysRule c (parse ['[', ',', ',', ']']) := by
  intro h
  let p := parse ['[', ',', ',', ']']
  let container := p.sites.get ⟨2, by decide +kernel⟩
  let list := container.parts.get ⟨1, by decide +kernel⟩
  let comma := list.parts.get ⟨1, by decide +kernel⟩
  have hin : Comma.IsIn ⟨container, list, comma, comma⟩ .array p :=
    ⟨List.get_mem .., by decide +kernel, List.get_mem .., by decide +kernel, List.get_mem ..,
      .inl rfl, by decide +kernel⟩
  have hfollows : Comma.FollowsComma ⟨container, list, comma, comma⟩ p :=
    ⟨⟨1, .token .comma, [',']⟩, by decide +kernel, rfl⟩
  have herror := ((h _ .array hin).1 (.inr hfollows)).1
  exact absurd herror (by decide +kernel)

end Maml
