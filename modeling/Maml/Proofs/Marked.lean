import Maml.Proofs.Changes

/-! Places inside a row.

A `Mark` says at which nodes of values something is to be changed, and where in them. `Marked`
says that a row has such a place, and which of its lexemes are in front of it.

1. A marked place in a row is in its first draft or behind that (`marked_cons`), and in a member
   or a container it is in the value or the list there (`marked_member`, `marked_containerNode`). So
   it is found along the rules of reading.
2. If a node of a row is marked, so is the row (`exists_marked_of_mem`).
3. What the rules see of a draft in a row is its `face`. Rows with the same faces go on with the
   same tokens, and whatever is read in front of one can be read in front of the other
   (`Read.of_nextOf`, `Read.of_head?`). -/
namespace Maml.Draft

/-! ## Marks -/

def isInner : Draft → Bool
  | leaf _ => false
  | node kind .. => kind == .object || kind == .array || kind == .invalidValue

/-- Where in the nodes of values something is to be changed. -/
structure Mark where
  /-- Whether a place in a node is meant, behind some of its lexemes. -/
  holds : Draft → List Lexeme → Prop
  isInner_of_holds {d : Draft} {place : List Lexeme} (h : holds d place) : d.isInner = true

/-- Whether a row has a marked place behind given lexemes. -/
inductive Marked (m : Mark) : List Lexeme → List Draft → Prop where
  | here {d ds place} (h : m.holds d place) : Marked m place (d :: ds)
  | inside {kind before first rest after ds place} (h : Marked m place (first :: rest)) :
      Marked m place (node kind before first rest after :: ds)
  | behind {d ds place} (h : Marked m place ds) : Marked m (d.lexemes ++ place) (d :: ds)

section
variable {m : Mark} {place : List Lexeme} {d : Draft} {ds es : List Draft}

theorem not_marked_nil : ¬ Marked m place [] := nofun

theorem Marked.mono {m' : Mark} (h : Marked m place ds)
    (hm : ∀ d place, m.holds d place → m'.holds d place) : Marked m' place ds := by
  induction h with
  | here h => exact .here (hm _ _ h)
  | inside _ ih => exact .inside ih
  | behind _ ih => exact .behind ih

theorem not_marked_leaf (l : Lexeme) : ¬ Marked m place [leaf l] := by
  intro h
  cases h with
  | here h => exact absurd (m.isInner_of_holds h) Bool.false_ne_true
  | behind h => exact not_marked_nil h

/-- A marked place of a row is in its first draft, or behind that. -/
theorem marked_cons : Marked m place (d :: ds) ↔
    Marked m place [d] ∨ ∃ more, place = d.lexemes ++ more ∧ Marked m more ds := by
  constructor
  · intro h
    cases h with
    | here h => exact .inl (.here h)
    | inside h => exact .inl (.inside h)
    | behind h => exact .inr ⟨_, rfl, h⟩
  · rintro (h | ⟨more, rfl, h⟩)
    · cases h with
      | here h => exact .here h
      | inside h => exact .inside h
      | behind h => exact absurd h not_marked_nil
    · exact .behind h

theorem marked_append : Marked m place (ds ++ es) ↔
    Marked m place ds ∨ ∃ more, place = lexemesList ds ++ more ∧ Marked m more es := by
  induction ds generalizing place with
  | nil => simp [not_marked_nil]
  | cons d ds ih =>
    rw [List.cons_append, marked_cons, @marked_cons m place d ds, or_assoc]
    refine or_congr_right ⟨?_, ?_⟩
    · rintro ⟨more, rfl, h⟩
      rcases ih.mp h with hds | ⟨more, rfl, hes⟩
      · exact .inl ⟨_, rfl, hds⟩
      · exact .inr ⟨more, by rw [lexemesList_cons, List.append_assoc], hes⟩
    · rintro (⟨more, rfl, h⟩ | ⟨more, rfl, h⟩)
      · exact ⟨more, rfl, ih.mpr (.inl h)⟩
      · exact ⟨lexemesList ds ++ more, by rw [lexemesList_cons, List.append_assoc],
          ih.mpr (.inr ⟨more, rfl, h⟩)⟩

theorem not_marked_map_leaf (ls : List Lexeme) : ¬ Marked m place (ls.map leaf) := by
  induction ls generalizing place with
  | nil => exact not_marked_nil
  | cons l ls ih =>
    rw [List.map_cons, marked_cons]
    rintro (h | ⟨more, -, h⟩)
    · exact not_marked_leaf l h
    · exact ih h

/-- At a node that is no container and no invalid value nothing is marked, only in its parts. -/
theorem marked_node {kind : NodeKind} {before after : Option ParseError} {first : Draft}
    {rest : List Draft} (hk : (node kind before first rest after).isInner = false) :
    Marked m place [node kind before first rest after] ↔ Marked m place (first :: rest) := by
  refine ⟨fun h => ?_, .inside⟩
  cases h with
  | here h => rw [m.isInner_of_holds h] at hk; exact absurd hk Bool.false_ne_true.symm
  | inside h => exact h
  | behind h => exact absurd h not_marked_nil

theorem holds_of_marked_value {first : Draft} {rest : List Draft} {before after : Option ParseError}
    (h : Marked m place [plain .value (node .invalidValue before first rest after) []])
    (hparts : ¬ Marked m place (first :: rest)) :
    m.holds (node .invalidValue before first rest after) place := by
  have h := (marked_node rfl).mp h
  cases h with
  | here h => exact h
  | inside h => exact absurd h hparts
  | behind h => exact absurd h not_marked_nil

theorem marked_wrap (c : Container) :
    Marked m place (wrap c.listKind ds) ↔ Marked m place ds := by
  cases ds with
  | nil => rfl
  | cons d ds => exact marked_node (by cases c <;> rfl)

theorem Marked.in_parts {more : List Lexeme} (h : Marked m more ds) (c : Container)
    (opener : Lexeme) (closer : Option Lexeme) : Marked m (opener :: more)
      (leaf opener :: (wrap c.listKind ds ++ (closer.map leaf).toList)) :=
  @Marked.behind m (leaf opener) _ _ (marked_append.mpr (.inl ((marked_wrap c).mpr h)))

/-- A marked place of a container is one of its node, or one in its list. -/
theorem marked_containerNode {c : Container} {opener : Lexeme} {closer : Option Lexeme}
    {after : Option ParseError} :
    Marked m place [plain .value (containerNode c opener ds closer after) []] ↔
      m.holds (containerNode c opener ds closer after) place ∨
        ∃ more, place = opener :: more ∧ Marked m more ds := by
  have hcloser (more : List Lexeme) : ¬ Marked m more (closer.map leaf).toList := by
    cases closer with
    | none => exact not_marked_nil
    | some l => exact not_marked_leaf l
  rw [plain, marked_node rfl]
  constructor
  · intro h
    cases h with
    | here h => exact .inl h
    | inside h =>
      rcases marked_cons.mp h with hopener | ⟨more, rfl, hparts⟩
      · exact absurd hopener (not_marked_leaf opener)
      · refine .inr ⟨more, rfl, ?_⟩
        rcases marked_append.mp hparts with hlist | ⟨more, -, hlast⟩
        · exact (marked_wrap c).mp hlist
        · exact absurd hlast (hcloser more)
    | behind h => exact absurd h not_marked_nil
  · rintro (h | ⟨more, rfl, h⟩)
    · exact .here h
    · exact .inside (h.in_parts c opener closer)

theorem container_closed (c : Container) (opener : Lexeme) (ds : List Draft) (closer : Lexeme)
    (next : Token) : container c opener ds (some closer) next =
      plain .value (containerNode c opener ds (some closer) none) [] := rfl

theorem container_unclosed (c : Container) (opener : Lexeme) (ds : List Draft) (next : Token) :
    container c opener ds none next = plain .value (containerNode c opener ds none
      (missing c.expectedCloser (lastTokenFrom opener.token (wrap c.listKind ds)) next)) [] := by
  simp [container, containerNode]

/-- A marked place of a member is in its value. -/
theorem marked_member {key colon : Lexeme} {value : List Draft} {note : Option ParseError} :
    Marked m place [member key colon value note] ↔
      ∃ more, place = key :: colon :: more ∧ Marked m more value := by
  have hparts {first : Draft} (hfirst : ¬ Marked m place [first]) (hlexemes : first.lexemes = [key]) :
      Marked m place (first :: leaf colon :: value) ↔
        ∃ more, place = key :: colon :: more ∧ Marked m more value := by
    rw [marked_cons, hlexemes]
    constructor
    · rintro (h | ⟨more, rfl, h⟩)
      · exact absurd h hfirst
      · rcases marked_cons.mp h with hcolon | ⟨more, rfl, hvalue⟩
        · exact absurd hcolon (not_marked_leaf colon)
        · exact ⟨more, rfl, hvalue⟩
    · rintro ⟨more, rfl, h⟩
      exact .inr ⟨colon :: more, rfl, @Marked.behind m (leaf colon) _ _ h⟩
  unfold member
  split
  · rw [keyValue, marked_node rfl]
    exact hparts (fun h => not_marked_leaf key ((marked_node rfl).mp h)) rfl
  · rw [literalKey, marked_node rfl]
    exact hparts (not_marked_leaf key) rfl

mutual

theorem exists_marked_of_mem_standings {x : Standing} (hx : m.holds x.draft place) (o : Nat)
    (b : List (Option Text)) : ∀ d : Draft, x ∈ standings o b d →
      ∃ front, Marked m (front ++ place) [d]
  | leaf l => by simp [standings]
  | node kind before first rest after => by
    intro hmem
    rcases List.mem_cons.mp hmem with rfl | hmem
    · exact ⟨[], .here hx⟩
    rcases List.mem_append.mp hmem with hmem | hmem
    · obtain ⟨front, h⟩ := exists_marked_of_mem_standings hx o b first hmem
      exact ⟨front, .inside (marked_cons.mpr (.inl h))⟩
    · obtain ⟨front, h⟩ := exists_marked_of_mem hx _ _ rest hmem
      refine ⟨first.lexemes ++ front, .inside ?_⟩
      rw [List.append_assoc]
      exact .behind h

/-- If a node of a row is marked, so is the row. -/
theorem exists_marked_of_mem {x : Standing} (hx : m.holds x.draft place) (o : Nat)
    (b : List (Option Text)) : ∀ ds : List Draft, x ∈ standingsRow o b ds →
      ∃ front, Marked m (front ++ place) ds
  | [] => by simp [standingsRow]
  | d :: ds => by
    intro hmem
    rcases mem_standingsRow_cons.mp hmem with hmem | hmem
    · obtain ⟨front, h⟩ := exists_marked_of_mem_standings hx o b d hmem
      exact ⟨front, marked_cons.mpr (.inl h)⟩
    · obtain ⟨front, h⟩ := exists_marked_of_mem hx _ _ ds hmem
      refine ⟨d.lexemes ++ front, ?_⟩
      rw [List.append_assoc]
      exact .behind h

end

end

/-! ## What the rules see -/

/-- What the rules see of a draft: its kind, if it is a node, and its first lexeme. -/
def face : Draft → Option NodeKind × Lexeme
  | leaf l => (none, l)
  | node kind _ first _ _ => (some kind, first.firstLexeme)

theorem firstLexeme_eq_of_face {d d' : Draft} (h : d'.face = d.face) :
    d'.firstLexeme = d.firstLexeme := by
  cases d <;> cases d' <;> exact congrArg Prod.snd h

theorem isQuotableToken_eq_of_face {d d' : Draft} (h : d'.face = d.face) :
    d'.isQuotableToken = d.isQuotableToken := by
  cases d <;> cases d' <;> simp_all [face, isQuotableToken]

theorem head?_map_face {ds ds' : List Draft} (h : ds'.map face = ds.map face) :
    ds'.head?.map face = ds.head?.map face := by
  rw [← List.head?_map, ← List.head?_map, h]

theorem startsWithColon_eq_of_face {ds ds' : List Draft}
    (h : ds'.head?.map face = ds.head?.map face) : startsWithColon ds' = startsWithColon ds := by
  cases ds with
  | nil => rw [List.head?_eq_none_iff.mp (Option.map_eq_none_iff.mp h)]
  | cons d ds =>
    obtain ⟨d', hd', hface⟩ := Option.map_eq_some_iff.mp h
    obtain ⟨ds', rfl⟩ := List.head?_eq_some_iff.mp hd'
    cases d <;> cases d' <;> simp_all [face, startsWithColon, isToken]

theorem beginsMember_eq_of_face {ds ds' : List Draft}
    (h : ds'.head?.map face = ds.head?.map face) : beginsMember ds' = beginsMember ds := by
  cases ds with
  | nil => rw [List.head?_eq_none_iff.mp (Option.map_eq_none_iff.mp h)]
  | cons d ds =>
    obtain ⟨d', hd', hface⟩ := Option.map_eq_some_iff.mp h
    obtain ⟨ds', rfl⟩ := List.head?_eq_some_iff.mp hd'
    cases d <;> cases d' <;> simp_all [face, beginsMember]

/-! ## Other lexemes behind -/

section
variable {eof : Token} {e : List Container} {slot : Slot} {behind behind' : List Lexeme}
  {ds : List Draft}

theorem head?_append_eq {α : Type} {as bs : List α} (h : bs.head? = as.head?) (front : List α) :
    (front ++ bs).head? = (front ++ as).head? := by
  cases front with
  | nil => exact h
  | cons => rfl

theorem nextOf_eq_of_head? (h : behind'.head? = behind.head?) :
    nextOf eof behind' = nextOf eof behind := by
  rw [nextOf, nextOf, h]

theorem balancedRun_of_head? {depth : Nat} {run : List Lexeme}
    (h : balancedRun depth (run ++ behind) = (run, behind))
    (hbehind : behind = [] → behind' = []) :
    balancedRun depth (run ++ behind') = (run, behind') := by
  have hrun := @balancedRun_map (.relaid id fun _ => rfl) behind behind' depth run h
    (fun _ _ => rfl) hbehind
  have hsame : run.map (Recasting.relaid id fun _ => rfl).map = run := List.map_id run
  rwa [hsame] at hrun

/-- The rules look at no more than the first lexeme behind a row, or at the end of the input if there
is none. -/
theorem Read.of_nextOf {eof' : Token} (h : Read eof e slot behind ds)
    (hhead : behind'.head? = behind.head?) (heof : behind = [] → eof' = eof) :
    Read eof' e slot behind' ds := by
  have hmore {behind behind' : List Lexeme} (hhead : behind'.head? = behind.head?)
      (ds : List Draft) : (lexemesList ds ++ behind').head? = (lexemesList ds ++ behind).head? :=
    head?_append_eq hhead _
  have hend {behind : List Lexeme} (heof : behind = [] → eof' = eof) (ds : List Draft) :
      lexemesList ds ++ behind = [] → eof' = eof := fun h => heof (List.append_eq_nil_iff.mp h).2
  have hnextOf {behind behind' : List Lexeme} (hhead : behind'.head? = behind.head?)
      (heof : behind = [] → eof' = eof) : nextOf eof' behind' = nextOf eof behind := by
    rw [nextOf_eq_of_head? hhead]
    cases behind with
    | nil => rw [heof rfl]
    | cons => rfl
  induction h generalizing behind' with
  | scalar hl => exact .scalar hl
  | invalid hl hc hnext => exact .invalid hl hc (by rwa [hhead])
  | signed h => exact .signed h
  | tooDeep ho he hrun =>
    refine .tooDeep ho he (balancedRun_of_head? hrun ?_)
    rintro rfl
    exact List.head?_eq_none_iff.mp hhead
  | closed ho hc he hds ih =>
    exact .closed ho hc he (ih rfl fun h => absurd h (List.cons_ne_nil _ _))
  | unclosed ho he hends hds ih =>
    rw [← hnextOf hhead heof]
    exact .unclosed ho he (by rwa [hhead]) (ih hhead heof)
  | nil hends => exact .nil (by rwa [hhead])
  | comma hl _ ih => exact .comma hl (ih hhead heof)
  | stray hl _ ih => exact .stray hl (ih hhead heof)
  | item hfirst _ _ ihd ih =>
    exact .item hfirst (ihd (hmore hhead _) (hend heof _)) (ih hhead heof)
  | member hk hc hfirst hnext _ _ ihv ih =>
    exact .member hk hc hfirst (by rwa [hmore hhead]) (ihv (hmore hhead _) (hend heof _))
      (ih hhead heof)
  | memberAlone hk hc hnext _ ih =>
    rw [← hnextOf (hmore hhead _) (hend heof _)]
    exact .memberAlone hk hc hnext (ih hhead heof)
  | incomplete hk hnext _ ih =>
    rw [← hnextOf (hmore hhead _) (hend heof _)]
    exact .incomplete hk (by rwa [hmore hhead]) (ih hhead heof)
  | incompleteSkipped hk hcolon _ hnext _ ihs ih =>
    exact .incompleteSkipped hk hcolon (ihs (hmore hhead _) (hend heof _)) (by rwa [hmore hhead])
      (ih hhead heof)
  | junk _ hq hnext _ ihs ih =>
    exact .junk (ihs (hmore hhead _) (hend heof _)) hq (by rwa [hmore hhead]) (ih hhead heof)
  | skippedNil => exact .skippedNil
  | skippedToken hl ho hc hnext _ ih =>
    exact .skippedToken hl ho hc (by rwa [hmore hhead]) (ih hhead heof)
  | skippedScalar hc hl _ ih => exact .skippedScalar hc hl (ih hhead heof)
  | skippedValue ho _ _ ihd ih =>
    exact .skippedValue ho (ihd (hmore hhead _) (hend heof _)) (ih hhead heof)

theorem Read.exists_single (h : Read eof e .value behind ds) : ∃ d, ds = [d] := by
  cases h <;> exact ⟨_, rfl⟩

/-- A value that is the node of a container is read as one, with its closer or without it. -/
theorem Read.container_cases {c : Container} {inner : Draft}
    (h : Read eof e .value behind [plain .value inner []]) (hk : inner.face.1 = some c.nodeKind) :
    (∃ opener closer ds, inner = containerNode c opener ds (some closer) none ∧
      opener.kind = c.opener ∧ closer.kind = c.closer ∧ e.length < Container.maxDepth ∧
      Read eof (c :: e) (.list c true) (closer :: behind) ds) ∨
    ∃ opener ds, inner = containerNode c opener ds none
        (missing c.expectedCloser (lastTokenFrom opener.token (wrap c.listKind ds))
          (nextOf eof behind)) ∧
      opener.kind = c.opener ∧ e.length < Container.maxDepth ∧
      (∀ h ∈ behind.head?, closesAny e h.kind = true ∧ h.kind ≠ c.closer) ∧
      Read eof (c :: e) (.list c true) behind ds := by
  have hsame {c' : Container} (h : some c'.nodeKind = some c.nodeKind) : c' = c := by
    revert h
    cases c <;> cases c' <;> decide
  have hother : some NodeKind.invalidValue ≠ some c.nodeKind := by cases c <;> decide
  generalize hrow : [plain .value inner []] = row at h
  cases h with
  | scalar =>
    obtain rfl := (Draft.node.inj (List.cons.inj hrow).1).2.2.1
    exact absurd hk nofun
  | invalid | signed | tooDeep =>
    obtain rfl := (Draft.node.inj (List.cons.inj hrow).1).2.2.1
    exact absurd hk hother
  | @closed _ _ c' opener closer ds ho hc he hds =>
    obtain rfl := (Draft.node.inj (List.cons.inj hrow).1).2.2.1
    obtain rfl := hsame hk
    exact .inl ⟨opener, closer, ds, rfl, ho, hc, he, hds⟩
  | @unclosed _ _ c' opener ds ho he hends hds =>
    rw [container_unclosed] at hrow
    obtain rfl := (Draft.node.inj (List.cons.inj hrow).1).2.2.1
    obtain rfl := hsame hk
    exact .inr ⟨opener, ds, rfl, ho, he, hends, hds⟩

/-- What is read in front of a row is read in front of one that begins with the same lexeme. -/
theorem Read.of_head? (h : Read eof e slot behind ds) (hhead : behind'.head? = behind.head?) :
    Read eof e slot behind' ds :=
  h.of_nextOf hhead fun _ => rfl

theorem Read.of_cons {eof' : Token} {l : Lexeme} {ls ls' : List Lexeme}
    (h : Read eof e slot (l :: ls) ds) : Read eof' e slot (l :: ls') ds :=
  h.of_nextOf rfl fun h => absurd h (List.cons_ne_nil _ _)

end

end Maml.Draft
