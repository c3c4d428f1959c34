import Maml.Proofs.Changes
import Maml.Proofs.Forms
import Maml.Proofs.Spots
import Maml.Proofs.Usable

/-! Strings without a closing quote are reported.

1. An error is about such a string if one was found where a key was expected, or in the place of a
   value (`Classification.unterminatedString_iff`).
2. Every rule of reading keeps a row `Reported`: no such string is a part of the row itself, each
   is the only part of the node it is in, and the errors about them are one for each, in order
   (`reported_of_read`).
3. The parts of a tree that are such strings and were looked into are those of its drafts, in order
   (`map_range_spotsOfRow`). So each is reported once (`unterminated_strings_reported`). -/
namespace Maml

/-! ## Errors about strings -/

theorem Classification.unterminatedString_iff {e : ParseError} :
    (ofParseError e).category = .unterminatedString ↔ e.foundKind = .unterminatedString ∧
      (e.expected = .key ∨ e.expected = .value ∧ e.isMissing = false) := by
  have hplus (h : e.foundKind = .unterminatedString) : isPlus e = false := by simp [isPlus, h]
  constructor
  · intro h
    obtain ⟨expected, foundKind, foundText, range⟩ := e
    cases expected <;> simp only [ofParseError, reduceCtorEq] at h
    case key =>
      split at h
      · exact absurd h (by simp [ofParseError.plus])
      · split at h
        · rename_i hfound
          exact ⟨beq_iff_eq.mp hfound, .inl rfl⟩
        · exact absurd h (by simp)
    case value =>
      split at h
      · exact absurd h (by simp [ofParseError.plus])
      · unfold ofValueError at h
        split at h
        · exact absurd h (by simp)
        · rename_i hpresent
          split at h
          · split at h <;> exact absurd h (by simp)
          · exact ⟨by assumption, .inr ⟨rfl, Bool.eq_false_iff.mpr hpresent⟩⟩
          all_goals exact absurd h (by simp [unexpected])
    case eof =>
      split at h <;> exact absurd h (by simp [ofParseError.plus, unexpected])
  · rintro ⟨hfound, hexpected | ⟨hexpected, hpresent⟩⟩
    · simp [ofParseError, hexpected, hplus hfound, hfound]
    · simp [ofParseError, ofValueError, hexpected, hplus hfound, hfound, hpresent]

namespace ParseError

def isOpenString (e : ParseError) : Bool :=
  (Classification.ofParseError e).category == .unterminatedString

theorem isOpenString_iff {e : ParseError} : e.isOpenString = true ↔
    e.foundKind = .unterminatedString ∧
      (e.expected = .key ∨ e.expected = .value ∧ e.isMissing = false) := by
  rw [isOpenString, beq_iff_eq, Classification.unterminatedString_iff]

theorem isOpenString_of_ne {expected : Expected} {t : Token} {range : Span}
    (h : t.kind ≠ .unterminatedString) : (ofToken expected t range).isOpenString = false :=
  Bool.eq_false_iff.mpr fun htrue => h (isOpenString_iff.mp htrue).1

theorem isOpenString_of_expected {expected : Expected} {t : Token} {range : Span}
    (hkey : expected ≠ .key) (hvalue : expected ≠ .value) :
    (ofToken expected t range).isOpenString = false := by
  refine Bool.eq_false_iff.mpr fun htrue => ?_
  rcases (isOpenString_iff.mp htrue).2 with h | ⟨h, -⟩
  · exact hkey h
  · exact hvalue h

theorem isOpenString_of_missing {t : Token} (offset : Nat) :
    (ofToken .value t (.empty offset)).isOpenString = false := by
  refine Bool.eq_false_iff.mpr fun htrue => ?_
  rcases (isOpenString_iff.mp htrue).2 with h | ⟨-, h⟩
  · exact absurd h (by simp [ofToken])
  · simp [ofToken, isMissing, Span.isEmpty, Span.empty] at h

end ParseError

namespace Draft

/-! ## Strings in drafts -/

mutual

/-- The strings without a closing quote in a draft, but for those in a container nested too deep. -/
def openStrings : Draft → List Lexeme
  | leaf l => if l.kind == .unterminatedString then [l] else []
  | node kind _ first rest _ =>
    if kind == .invalidValue && first.firstLexeme.kind.isOpener then []
    else openStrings first ++ openStringsList rest

def openStringsList : List Draft → List Lexeme
  | [] => []
  | d :: ds => openStrings d ++ openStringsList ds

end

@[simp] theorem openStringsList_nil : openStringsList [] = [] := rfl

@[simp] theorem openStringsList_cons (d : Draft) (ds : List Draft) :
    openStringsList (d :: ds) = openStrings d ++ openStringsList ds := rfl

theorem openStringsList_append (ds es : List Draft) :
    openStringsList (ds ++ es) = openStringsList ds ++ openStringsList es := by
  induction ds with
  | nil => rfl
  | cons d ds ih => simp [ih]

theorem openStrings_node {kind : NodeKind} {first : Draft}
    (hread : (kind == .invalidValue && first.firstLexeme.kind.isOpener) = false)
    (before after : Option ParseError) (rest : List Draft) :
    (node kind before first rest after).openStrings = openStringsList (first :: rest) := by
  rw [openStrings, if_neg (by simp [hread])]
  rfl

mutual

theorem sublist_openStrings : ∀ d : Draft, d.openStrings.Sublist d.lexemes
  | leaf l => by
    rw [openStrings]
    split
    · exact List.Sublist.refl _
    · exact List.nil_sublist _
  | node kind before first rest after => by
    rw [openStrings, lexemes_node]
    split
    · exact List.nil_sublist _
    · exact (sublist_openStrings first).append (sublist_openStringsList rest)

theorem sublist_openStringsList : ∀ ds : List Draft,
    (openStringsList ds).Sublist (lexemesList ds)
  | [] => List.Sublist.refl _
  | d :: ds => (sublist_openStrings d).append (sublist_openStringsList ds)

end

def openStringRanges (ds : List Draft) : List Span :=
  ((errorsList ds).filter (·.isOpenString)).map (·.range)

theorem openStringRanges_append (ds es : List Draft) :
    openStringRanges (ds ++ es) = openStringRanges ds ++ openStringRanges es := by
  simp [openStringRanges]

/-- Whether a string without a closing quote among the parts of a node is its only part, and the node
is a key or an invalid value. -/
def KeepsStrings : Draft → Prop
  | leaf _ => True
  | node kind _ first rest _ =>
    ((kind = .key ∨ kind = .invalidValue) ∧ rest = []) ∨
      (kind = .invalidValue ∧ first.firstLexeme.kind.isOpener = true) ∨
      ∀ d ∈ first :: rest, d.isToken .unterminatedString = false

/-- What holds of the strings without a closing quote in a row. -/
structure Reported (ds : List Draft) : Prop where
  /-- None is a part of the row. -/
  parts : ∀ d ∈ ds, d.isToken .unterminatedString = false
  nodes : EveryNode KeepsStrings ds
  /-- If no token is empty, there is one error for each. -/
  errors : (∀ l ∈ lexemesList ds, l.token.span.isEmpty = false) →
    openStringRanges ds = (openStringsList ds).map (·.token.span)

namespace Reported

theorem nil : Reported [] := ⟨by simp, everyNode_nil, fun _ => rfl⟩

theorem append {ds es : List Draft} (hds : Reported ds) (hes : Reported es) :
    Reported (ds ++ es) := by
  refine ⟨List.forall_mem_append.mpr ⟨hds.parts, hes.parts⟩,
    everyNode_append_iff.mpr ⟨hds.nodes, hes.nodes⟩, fun hne => ?_⟩
  rw [lexemesList_append, List.forall_mem_append] at hne
  rw [openStringRanges_append, openStringsList_append, List.map_append, hds.errors hne.1,
    hes.errors hne.2]

theorem cons {d : Draft} {ds : List Draft} (hd : Reported [d]) (hds : Reported ds) :
    Reported (d :: ds) := append hd hds

theorem leaf {l : Lexeme} (h : l.kind ≠ .unterminatedString) : Reported [leaf l] := by
  refine ⟨by simp [isToken, h], everyNode_leaf l, fun _ => ?_⟩
  simp [openStringRanges, openStrings, h]

theorem node {kind : NodeKind} {before after : Option ParseError} {first : Draft}
    {rest : List Draft}
    (hread : (kind == .invalidValue && first.firstLexeme.kind.isOpener) = false)
    (hparts : Reported (first :: rest))
    (hbefore : ∀ err ∈ before.toList, err.isOpenString = false)
    (hafter : ∀ err ∈ after.toList, err.isOpenString = false) :
    Reported [node kind before first rest after] := by
  refine ⟨by simp [isToken], everyNode_node (.inr (.inr hparts.parts)) hparts.nodes, fun hne => ?_⟩
  have hnone {note : Option ParseError} (h : ∀ err ∈ note.toList, err.isOpenString = false) :
      note.toList.filter (·.isOpenString) = [] :=
    List.filter_eq_nil_iff.mpr fun err herr => by simp [h err herr]
  have herrors : openStringRanges [.node kind before first rest after] =
      openStringRanges (first :: rest) := by
    simp [openStringRanges, hnone hbefore, hnone hafter]
  have hstrings : openStringsList [.node kind before first rest after] =
      openStringsList (first :: rest) := by
    rw [openStringsList_cons, openStrings_node hread, openStringsList_nil, List.append_nil]
  rw [herrors, hstrings]
  exact hparts.errors (by simpa using hne)

theorem plain {kind : NodeKind} {first : Draft} {rest : List Draft} (hk : kind ≠ .invalidValue)
    (hparts : Reported (first :: rest)) : Reported [plain kind first rest] :=
  node (by simp [hk]) hparts (by simp) (by simp)

theorem wrap {kind : NodeKind} {ds : List Draft} (hk : kind ≠ .invalidValue) (h : Reported ds) :
    Reported (wrap kind ds) := by
  cases ds with
  | nil => exact h
  | cons d ds => exact plain hk h

theorem keyed {kind : NodeKind} {key : Lexeme} {rest : List Draft} {after : Option ParseError}
    (hk : kind ≠ .invalidValue) (hrest : Reported rest)
    (hafter : ∀ err ∈ after.toList, err.isOpenString = false) :
    Reported [.node kind (keyNote key) (.plain .key (.leaf key) []) rest after] := by
  have hkey : EveryNode KeepsStrings [.plain .key (.leaf key) []] :=
    everyNode_node (.inl ⟨.inl rfl, rfl⟩) (everyNode_leaf key)
  have hparts : ∀ d ∈ .plain .key (.leaf key) [] :: rest, d.isToken .unterminatedString = false :=
    List.forall_mem_cons.mpr ⟨rfl, hrest.parts⟩
  refine ⟨by simp [isToken], everyNode_node (.inr (.inr hparts)) (everyNode_cons hkey hrest.nodes),
    fun hne => ?_⟩
  have hafter : after.toList.filter (·.isOpenString) = [] :=
    List.filter_eq_nil_iff.mpr fun err herr => by simp [hafter err herr]
  -- the key is noted in front of the node, if it is a string without its closing quote
  have hbefore : ((keyNote key).toList.filter (·.isOpenString)).map (·.range) =
      (Draft.leaf key).openStrings.map (·.token.span) := by
    unfold keyNote
    rw [openStrings]
    split
    · rename_i hkind
      have hopen : (ParseError.ofToken .key key.token key.token.span).isOpenString = true :=
        ParseError.isOpenString_iff.mpr ⟨beq_iff_eq.mp hkind, .inl rfl⟩
      rw [unexpected, Option.toList_some, List.filter_cons_of_pos hopen]
      rfl
    · rfl
  have herrors : openStringRanges [.node kind (keyNote key) (.plain .key (.leaf key) []) rest after] =
      (Draft.leaf key).openStrings.map (·.token.span) ++ openStringRanges rest := by
    rw [← hbefore]
    simp [openStringRanges, hafter]
  have hstrings : openStringsList [.node kind (keyNote key) (.plain .key (.leaf key) []) rest after] =
      (Draft.leaf key).openStrings ++ openStringsList rest := by
    have hname : (Draft.plain .key (.leaf key) []).openStrings = (Draft.leaf key).openStrings :=
      List.append_nil _
    rw [openStringsList_cons, openStrings_node (by simp [hk]), openStringsList_cons, hname, openStringsList_nil,
      List.append_nil]
  rw [herrors, hstrings, List.map_append]
  refine congrArg _ (hrest.errors fun l hl => hne l ?_)
  simp [hl]

theorem invalid {l : Lexeme} (hl : l.kind.isOpener = false) : Reported [Draft.invalid l] := by
  have hnodes : EveryNode KeepsStrings [Draft.invalid l] := by
    refine everyNode_node (.inr (.inr (by simp [isToken]))) (everyNode_node ?_ (everyNode_leaf l))
    exact .inl ⟨.inr rfl, rfl⟩
  refine ⟨by simp [Draft.invalid, Draft.plain, isToken], hnodes, fun hne => ?_⟩
  have hempty : l.token.span.isEmpty = false := hne l (by simp [Draft.invalid])
  have hstrings : openStringsList [Draft.invalid l] = (Draft.leaf l).openStrings := by
    simp [Draft.invalid, Draft.plain, openStrings, firstLexeme, hl]
  have herrors : errorsList [Draft.invalid l] = [.ofToken .value l.token l.token.span] := rfl
  rw [openStringRanges, herrors, hstrings, openStrings]
  by_cases hkind : l.kind = .unterminatedString
  · have hopen : (ParseError.ofToken .value l.token l.token.span).isOpenString = true :=
      ParseError.isOpenString_iff.mpr ⟨hkind, .inr ⟨rfl, hempty⟩⟩
    rw [List.filter_cons_of_pos hopen, if_pos (beq_iff_eq.mpr hkind)]
    rfl
  · have hother : (ParseError.ofToken .value l.token l.token.span).isOpenString = false :=
      ParseError.isOpenString_of_ne hkind
    rw [List.filter_cons_of_neg (by simp [hother]), if_neg (by simp [hkind])]
    rfl

theorem single (expected : Expected) {l : Lexeme} {kind : NodeKind}
    (hread : (kind == .invalidValue && l.kind.isOpener) = false) (range : Span)
    {rest : List Draft} (hl : l.kind ≠ .unterminatedString) (hrest : Reported rest) :
    Reported [.node kind (unexpected expected l.token range) (.leaf l) rest none] := by
  refine node hread (cons (leaf hl) hrest) (fun err herr => ?_) (by simp)
  obtain rfl : err = .ofToken expected l.token range := by simpa [unexpected] using herr
  exact ParseError.isOpenString_of_ne hl

theorem tooDeep {opener : Lexeme} {run : List Lexeme} (ho : opener.kind.isOpener = true) :
    Reported [Draft.tooDeep opener run] := by
  have hnodes : EveryNode KeepsStrings [Draft.tooDeep opener run] := by
    refine everyNode_node (.inr (.inr (by simp [isToken]))) (everyNode_node ?_ ?_)
    · exact .inr (.inl ⟨rfl, ho⟩)
    · exact everyNode_map_leaf (opener :: run)
  refine ⟨by simp [Draft.tooDeep, Draft.plain, isToken], hnodes, fun _ => ?_⟩
  have hstrings : openStringsList [Draft.tooDeep opener run] = [] := by
    simp [Draft.tooDeep, Draft.plain, openStrings, firstLexeme, ho]
  have herrors : ∀ err ∈ errorsList [Draft.tooDeep opener run], ¬ err.isOpenString = true := by
    intro err herr
    obtain rfl : err = .ofToken .nestingLimit opener.token _ := by
      simpa [Draft.tooDeep, unexpected] using herr
    rw [ParseError.isOpenString_of_expected (by simp) (by simp)]
    exact Bool.false_ne_true
  rw [hstrings, openStringRanges, List.filter_eq_nil_iff.mpr herrors]
  rfl

theorem container {c : Container} {opener : Lexeme} {ds : List Draft} {closer : Option Lexeme}
    (next : Token) (ho : opener.kind = c.opener) (hc : ∀ l ∈ closer, l.kind = c.closer)
    (hds : Reported ds) : Reported [container c opener ds closer next] := by
  have hopener : opener.kind ≠ .unterminatedString := by
    rw [ho]
    cases c <;> simp [Container.opener]
  have hcloser : Reported (closer.map Draft.leaf).toList := by
    cases closer with
    | none => exact nil
    | some l =>
      refine leaf ?_
      rw [hc l rfl]
      cases c <;> simp [Container.closer]
  have hlist : Reported (Draft.wrap c.listKind ds) := wrap (by cases c <;> decide) hds
  refine plain (by simp) (node (by cases c <;> rfl) (cons (leaf hopener) (append hlist hcloser))
    (by simp) fun err herr => ?_)
  cases closer with
  | some l => simp at herr
  | none =>
    obtain rfl : err = .ofToken c.expectedCloser next _ := by simpa [missing] using herr
    cases c <;> exact ParseError.isOpenString_of_expected (by simp [Container.expectedCloser])
      (by simp [Container.expectedCloser])

/-- A member is reported at its key, whatever its colon is followed by. -/
theorem member {key colon : Lexeme} {value : List Draft} {note : Option ParseError}
    (hc : colon.kind = .colon) (hvalue : Reported value)
    (hnote : ∀ err ∈ note.toList, err.isOpenString = false) :
    Reported [member key colon value note] := by
  have hrest : Reported (.leaf colon :: value) := cons (leaf (by simp [hc])) hvalue
  unfold Draft.member
  split
  · exact keyed (by simp) hrest hnote
  · rename_i hkey
    have hstring : key.kind ≠ .unterminatedString := by
      rintro hkind
      simp [isKey, hkind] at hkey
    refine node rfl (cons (leaf hstring) hrest) (fun err herr => ?_) hnote
    obtain rfl : err = .ofToken .key key.token key.token.span := by simpa [unexpected] using herr
    exact ParseError.isOpenString_of_ne hstring

theorem incomplete (key : Lexeme) (next : Token) : Reported [incomplete key next] := by
  refine keyed (by simp) nil fun err herr => ?_
  unfold colonNote at herr
  split at herr
  · simp at herr
  · obtain rfl : err = .ofToken .colon next key.token.span := by simpa [unexpected] using herr
    exact ParseError.isOpenString_of_expected (by simp) (by simp)

end Reported

theorem Read.firstToken_skipped {eof : Token} {e : List Container} {behind : List Lexeme}
    {d : Draft} {ds : List Draft} (h : Read eof e .skipped behind (d :: ds)) :
    d.firstToken.kind ≠ .unterminatedString := by
  cases h with
  | @skippedToken e behind l ds hl =>
    intro hkind
    have hkind : l.kind = .unterminatedString := hkind
    simp [resumesMembers, isKey, hkind] at hl
  | skippedScalar hc hl hds =>
    intro hkind
    exact absurd (hc.symm.trans hkind) (by simp)
  | skippedValue ho hd hds =>
    intro hkind
    have hkind : d.firstLexeme.kind = .unterminatedString := hkind
    rw [hkind] at ho
    exact absurd ho Bool.false_ne_true

/-- Reading reports every string without a closing quote. -/
theorem reported_of_read {eof : Token} {e : List Container} {slot : Slot} {behind : List Lexeme}
    {ds : List Draft} (h : Read eof e slot behind ds) : Reported ds := by
  have hscalar {l : Lexeme} (hl : l.kind.isScalar = true) : Reported [plain .value (leaf l) []] :=
    .plain (by simp) (.leaf fun hkind => by simp [hkind, TokenKind.isScalar] at hl)
  have hnone : ∀ err ∈ (none : Option ParseError).toList, err.isOpenString = false := by simp
  induction h with
  | scalar hl => exact hscalar hl
  | invalid hl hc hnext => exact .invalid (Bool.or_eq_false_iff.mp hl).1
  | @signed e behind plus number h =>
    obtain ⟨hplus, -, hnumber, -⟩ := isSignedNumber_eq_true.mp h
    exact .plain (by simp) (.single _ (by rw [Lexeme.kind, hplus]; rfl) _
      (by simp [Lexeme.kind, hplus]) (.leaf (by simp [Lexeme.kind, hnumber])))
  | tooDeep ho he hrun => exact .tooDeep ho
  | closed ho hc he hds ih => exact .container _ ho (by simpa using hc) ih
  | unclosed ho he hends hds ih => exact .container _ ho (by simp) ih
  | nil hends => exact .nil
  | comma hl hds ih => exact .cons (.leaf (by simp [hl])) ih
  | @stray e c behind l ds hl hds ih =>
    have hcomma : l.kind ≠ .unterminatedString := by simp [hl]
    exact .cons (.single _ rfl _ hcomma .nil) ih
  | item hfirst hd hds ihd ih => exact .cons ihd ih
  | member hk hc hfirst hnext hv hds ihv ih => exact .cons (.member hc ihv hnone) ih
  | @memberAlone e b behind key colon ds hk hc hnext hds ih =>
    refine .cons (.member hc .nil fun err herr => ?_) ih
    obtain rfl : err = .ofToken .value _ (.empty colon.token.span.stop) := by
      simpa [missing] using herr
    exact ParseError.isOpenString_of_missing _
  | incomplete hk hnext hds ih => exact .cons (.incomplete _ _) ih
  | incompleteSkipped hk hcolon hs hnext hds ihs ih =>
    exact .cons (.incomplete _ _) (.cons (.plain (by simp) ihs) ih)
  | @junk e b behind first rest ds hs hq hnext hds ihs ih =>
    refine .cons (.node rfl ihs (fun err herr => ?_) hnone) ih
    obtain rfl : err = .ofToken .key first.firstToken first.firstToken.span := by
      simpa [unexpected] using herr
    exact ParseError.isOpenString_of_ne hs.firstToken_skipped
  | skippedNil => exact .nil
  | @skippedToken e behind l ds hl ho hc hnext hds ih =>
    refine .cons (.leaf fun hkind => ?_) ih
    simp [resumesMembers, isKey, hkind] at hl
  | skippedScalar hc hl hds ih => exact .cons (.leaf (by simp [hc])) (.cons (hscalar hl) ih)
  | skippedValue ho hd hds ihd ih => exact .cons ihd ih

end Draft

/-! ## Strings in trees -/

mutual

theorem suffix_around_of_mem_spotsOf {x : Spot} (around : List Site) (o : Nat)
    (b : List (Option Text)) : ∀ t, x ∈ Site.spotsOf around o b t → around <:+ x.around
  | .leaf label text, hx => by
    obtain rfl := List.mem_singleton.mp hx
    exact List.suffix_refl _
  | .node label children, hx => by
    rcases List.mem_cons.mp hx with rfl | hx
    · exact List.suffix_refl _
    · exact (List.suffix_cons _ _).trans (suffix_around_of_mem_spotsOfRow _ o b children hx)

theorem suffix_around_of_mem_spotsOfRow {x : Spot} (around : List Site) (o : Nat)
    (b : List (Option Text)) : ∀ ts, x ∈ Site.spotsOfRow around o b ts → around <:+ x.around
  | [], hx => by simp [Site.spotsOfRow] at hx
  | t :: ts, hx => by
    rcases List.mem_append.mp hx with hx | hx
    · exact suffix_around_of_mem_spotsOf around o b t hx
    · exact suffix_around_of_mem_spotsOfRow around _ _ ts hx

end

def Spot.isOpenString (x : Spot) : Bool :=
  x.site.tree.isTokenOf .unterminatedString && !x.around.any (·.tree.isTooDeep)

namespace Draft

theorem isTrivia_of_isTokenOf {t : Token}
    (h : (tokenLeaf t).isTokenOf .unterminatedString = true) : t.isTrivia = false := by
  have hkind : t.kind = .unterminatedString := by simpa [tokenLeaf, Tree.isTokenOf] using h
  rw [Token.isTrivia, hkind]
  rfl

theorem filter_spotsOfRow_tokens {ts : List Token} (h : ∀ t ∈ ts, t.isTrivia = true)
    (around : List Site) (o : Nat) (b : List (Option Text)) :
    (Site.spotsOfRow around o b (ts.map tokenLeaf)).filter (·.isOpenString) = [] := by
  rw [List.filter_eq_nil_iff]
  intro x hx hopen
  obtain ⟨-, t, ht, htree⟩ := mem_spotsOfRow_tokens hx
  have htoken := (Bool.and_eq_true_iff.mp hopen).1
  rw [htree] at htoken
  have htrivia := h t ht
  rw [isTrivia_of_isTokenOf htoken] at htrivia
  exact absurd htrivia Bool.false_ne_true

theorem isTrivia_trivia {o : Nat} {d : Draft} {ds : List Draft}
    (hp : Placed o (lexemesList (d :: ds))) : ∀ t ∈ d.trivia, t.isTrivia = true := by
  obtain ⟨ls, hls⟩ := exists_lexemes_eq_cons d
  have hfirst : d.firstLexeme ∈ lexemesList (d :: ds) := by
    rw [lexemesList_cons, hls]
    exact List.mem_cons_self
  exact (hp.2 _ hfirst).1

theorem filter_spotsOfRow_cons {o : Nat} {d : Draft} {ds : List Draft}
    (hp : Placed o (lexemesList (d :: ds))) (around : List Site) (b : List (Option Text)) :
    (Site.spotsOfRow around o b (trees (d :: ds))).filter (·.isOpenString) =
      (spots around o b d).filter (·.isOpenString) ++
        (Site.spotsOfRow around (o + Lexeme.sizeList d.lexemes) (slotsBehind b d)
          (trees ds)).filter (·.isOpenString) := by
  rw [trees, spotsOfRow_append, List.filter_append, filter_spotsOfRow_tokens (isTrivia_trivia hp),
    List.nil_append, sizeList_map_tokenLeaf, Site.spotsOfRow, List.filter_append, Nat.add_assoc,
    size_tree]
  rfl

theorem isTooDeep_tree (kind : NodeKind) (before after : Option ParseError) (first : Draft)
    (rest : List Draft) : (node kind before first rest after).tree.isTooDeep =
      (kind == .invalidValue && first.firstLexeme.kind.isOpener) := by
  rw [Tree.isTooDeep, isNodeOf_node, beginsWith_tree]
  rfl

theorem filter_spots_node {o : Nat} {kind : NodeKind} {before after : Option ParseError}
    {first : Draft} {rest : List Draft} (hp : Placed o (lexemesList (first :: rest)))
    (around : List Site) (b : List (Option Text)) :
    (spots around o b (node kind before first rest after)).filter (·.isOpenString) =
      (Site.spotsOfRow (siteOf o b (node kind before first rest after) :: around) o b
        (trees (first :: rest))).filter (·.isOpenString) := by
  rw [trees, spotsOfRow_append, List.filter_append, filter_spotsOfRow_tokens (isTrivia_trivia hp),
    List.nil_append, sizeList_map_tokenLeaf]
  rfl

mutual

theorem map_range_spots {around : List Site} (ha : around.any (·.tree.isTooDeep) = false) :
    ∀ (d : Draft) (o : Nat) (b : List (Option Text)), Placed o d.lexemes →
      ((spots around o b d).filter (·.isOpenString)).map (·.site.range) =
        d.openStrings.map (·.token.span)
  | leaf l, o, b, hp => by
    have hopen : Spot.isOpenString ⟨around, siteOf o b (leaf l)⟩ = (l.kind == .unterminatedString) := by
      rw [Spot.isOpenString, ha, tree_siteOf, isTokenOf_leaf, Bool.not_false, Bool.and_true]
    have hrange : (siteOf o b (leaf l)).range = l.token.span := range_siteOf hp b
    have hspots : spots around o b (leaf l) = [⟨around, siteOf o b (leaf l)⟩] := rfl
    rw [hspots, List.filter_cons, hopen, openStrings]
    split
    · rw [List.filter_nil, List.map_singleton, List.map_singleton, hrange]
    · rfl
  | node kind before first rest after, o, b, hp => by
    have hdeep := isTooDeep_tree kind before after first rest
    rw [filter_spots_node hp, openStrings, ← hdeep]
    split
    · -- nothing in a container nested too deep counts
      rename_i htrue
      have hnone : ∀ x ∈ Site.spotsOfRow (siteOf o b (node kind before first rest after) :: around)
          o b (trees (first :: rest)), ¬ x.isOpenString = true := by
        intro x hx hopen
        obtain ⟨inner, hinner⟩ := suffix_around_of_mem_spotsOfRow _ _ _ _ hx
        have hnot := (Bool.and_eq_true_iff.mp hopen).2
        rw [← hinner] at hnot
        simp [htrue] at hnot
      rw [List.filter_eq_nil_iff.mpr hnone]
      rfl
    · rename_i hfalse
      have ha' : (siteOf o b (node kind before first rest after) :: around).any
          (·.tree.isTooDeep) = false := by
        rw [List.any_cons, ha, Bool.or_false, tree_siteOf]
        exact Bool.eq_false_iff.mpr hfalse
      have hplaced := placed_append.mp hp
      have hrow : Placed o (lexemesList (first :: rest)) := hp
      rw [filter_spotsOfRow_cons hrow, List.map_append, map_range_spots ha' first o b hplaced.1,
        map_range_spotsOfRow ha' rest _ _ hplaced.2, List.map_append]

/-- The parts of a row that are strings without a closing quote are those of its drafts. -/
theorem map_range_spotsOfRow {around : List Site} (ha : around.any (·.tree.isTooDeep) = false) :
    ∀ (ds : List Draft) (o : Nat) (b : List (Option Text)), Placed o (lexemesList ds) →
      ((Site.spotsOfRow around o b (trees ds)).filter (·.isOpenString)).map (·.site.range) =
        (openStringsList ds).map (·.token.span)
  | [], o, b, hp => rfl
  | d :: ds, o, b, hp => by
    have hplaced := placed_append.mp hp
    rw [filter_spotsOfRow_cons hp, List.map_append, map_range_spots ha d o b hplaced.1,
      map_range_spotsOfRow ha ds _ _ hplaced.2, openStringsList_cons, List.map_append]

end

/-- A string without a closing quote that is a part of a node is the only one, unless the node is a
container nested too deep. -/
theorem children_of_keepsStrings {o : Nat} {b : List (Option Text)} {d : Draft} {s : Site}
    (hkeeps : KeepsStrings d) (hp : Placed o d.lexemes) (hs : s ∈ (siteOf o b d).parts)
    (hopen : s.tree.isTokenOf .unterminatedString = true) (hread : d.tree.isTooDeep = false) :
    (d.tree.isNodeOf .key = true ∨ d.tree.isNodeOf .invalidValue = true) ∧
      d.tree.children = [s.tree] := by
  cases d with
  | leaf l => simp [siteOf, tree, tokenLeaf, Site.parts, Tree.children, Site.row] at hs
  | node kind before first rest after =>
    have htree : s.tree ∈ trees (first :: rest) := by
      rw [trees]
      exact List.mem_append_right _ (Site.tree_mem_of_mem_row hs)
    rcases hkeeps with ⟨hkind, rfl⟩ | ⟨hkind, ho⟩ | hnone
    · have hchildren : (node kind before first [] after).tree.children = [first.tree] := rfl
      have hpart : s.tree = first.tree := by
        have hmem := Site.tree_mem_of_mem_row hs
        rw [tree_siteOf, hchildren] at hmem
        exact List.mem_singleton.mp hmem
      rw [hchildren, hpart, isNodeOf_node, isNodeOf_node]
      refine ⟨?_, rfl⟩
      rcases hkind with rfl | rfl
      · exact .inl rfl
      · exact .inr rfl
    · rw [isTooDeep_tree, hkind, ho] at hread
      exact absurd hread Bool.false_ne_true.symm
    · -- the part is no trivia, so it is the tree of a draft
      have hpart : s.tree ∈ (first :: rest).map tree := by
        rw [← filter_trees hp]
        refine List.mem_filter.mpr ⟨htree, ?_⟩
        obtain ⟨text, heq⟩ := exists_eq_leaf_of_isTokenOf hopen
        rw [heq]
        rfl
      obtain ⟨p, hmem, heq⟩ := List.mem_map.mp hpart
      rw [← heq, isTokenOf_tree, hnone p hmem] at hopen
      exact absurd hopen Bool.false_ne_true

end Draft

/-! ## Documents -/

open Draft

namespace Parse

/-- Behind the document's value nothing was looked into. -/
theorem isUnread_of_trailing {rest : List Lexeme} {o : Nat} {root : Site}
    {b : List (Option Text)} (hp : Placed o rest) {x : Spot}
    (hx : x ∈ Site.spotsOfRow [root] o b (trees (trailing rest)))
    (hopen : x.site.tree.isTokenOf .unterminatedString = true) : x.isUnread = true := by
  cases rest with
  | nil => simp [trailing, trees, Site.spotsOfRow] at hx
  | cons l rest =>
    have hrow : Placed o (lexemesList [trailingError l rest]) := by simpa [trailingError] using hp
    rcases mem_spotsOfRow_cons hx with ⟨-, t, ht, htree⟩ | hx | hx
    · rw [htree] at hopen
      have htrivia := isTrivia_trivia hrow t ht
      rw [isTrivia_of_isTokenOf hopen] at htrivia
      exact absurd htrivia Bool.false_ne_true
    · rcases mem_spots_node hx with rfl | hx
      · exact absurd hopen Bool.false_ne_true
      · rw [← List.map_cons] at hx
        obtain ⟨haround, -⟩ := mem_spotsOfRow_leaves hx
        rw [Spot.isUnread, haround]
        exact Bool.or_true _
    · simp [trees, Site.spotsOfRow] at hx

/-- A string without a closing quote that was looked into is in the document's value. -/
theorem mem_value_of_read {source : Text} {x : Spot} (hx : x ∈ (parse source).spots)
    (hopen : x.site.tree.isTokenOf .unterminatedString = true) (hread : x.isUnread = false) :
    ∃ eof d ls, drafts source = d :: trailing ls ∧ Read eof [] .value ls [d] ∧
      x ∈ Draft.spots [Site.root (parse source).tree] 0 [] d := by
  have hunread {P : Prop} (h : x.isUnread = true) : P := by
    rw [hread] at h
    exact absurd h Bool.false_ne_true
  have htoken {ts : List Token} (ht : ∀ t ∈ ts, t.isTrivia = true) {P : Prop}
      (h : ∃ t ∈ ts, x.site.tree = tokenLeaf t) : P := by
    obtain ⟨t, hmem, htree⟩ := h
    rw [htree] at hopen
    have htrivia := ht t hmem
    rw [isTrivia_of_isTokenOf hopen] at htrivia
    exact absurd htrivia Bool.false_ne_true
  have hp := placed_lexemes source
  rcases List.mem_cons.mp hx with rfl | hx
  · exact absurd hopen Bool.false_ne_true
  change x ∈ Site.spotsOfRow [Site.root (parse source).tree] 0 [] (trees (drafts source) ++
    (Lexemes.ofTokens (tokenize source) source.size).trailing.map tokenLeaf) at hx
  rw [spotsOfRow_append] at hx
  rcases List.mem_append.mp hx with hx | hx
  · have hdocument : ReadDocument _ (drafts source) :=
      readDocument_documentDrafts (Lexemes.ofTokens (tokenize source) source.size).eof (lexemes source)
    rw [← lexemesList_drafts] at hp
    generalize drafts source = ds at hx hp hdocument
    cases hdocument with
    | @value d ls hbegins hd =>
      have hplaced := placed_append.mp hp
      rcases mem_spotsOfRow_cons hx with hx | hx | hx
      · exact htoken (isTrivia_trivia hp) hx.2
      · exact ⟨_, d, ls, rfl, hd, hx⟩
      · rw [lexemesList_trailing] at hplaced
        exact hunread (isUnread_of_trailing hplaced.2 hx hopen)
    | @nothing ls hbegins =>
      rw [lexemesList_trailing] at hp
      exact hunread (isUnread_of_trailing hp hx hopen)
  · -- trivia at the end
    exact htoken (isTrivia_of_mem_trailing _) (mem_spotsOfRow_tokens hx).2

section
variable {source : Text} {eof : Token} {d : Draft} {ls : List Lexeme}

theorem placed_value (hdrafts : drafts source = d :: trailing ls) : Placed 0 d.lexemes := by
  have hp := placed_lexemes source
  rw [← lexemesList_drafts, hdrafts] at hp
  exact (placed_append.mp hp).1

theorem exists_parent_of_openString (hdrafts : drafts source = d :: trailing ls)
    (hd : Read eof [] .value ls [d]) {around : List Site} {x : Spot}
    (hx : x ∈ Draft.spots around 0 [] d)
    (hopen : x.site.tree.isTokenOf .unterminatedString = true)
    (hdeep : x.around.any (·.tree.isTooDeep) = false) : ∃ s ∈ x.around.head?,
      (s.tree.isNodeOf .key = true ∨ s.tree.isNodeOf .invalidValue = true) ∧
        s.tree.children = [x.site.tree] := by
  have hreported := reported_of_read hd
  rcases parent_of_mem_spotsOf _ _ _ _ hx with ⟨-, hsite⟩ | ⟨s, outer, haround, hs, hpart⟩
  · -- the value itself is a node
    have hnone := hreported.parts d List.mem_cons_self
    rw [hsite, isTokenOf_tree, hnone] at hopen
    exact absurd hopen Bool.false_ne_true
  · have hs : s ∈ (siteOf 0 [] d).descendants := hs
    rw [← map_site_standings] at hs
    obtain ⟨y, hy, rfl⟩ := List.mem_map.mp hs
    have hrow : y ∈ standingsRow 0 [] [d] := by rwa [standingsRow_singleton]
    have hplaced : y.IsPlaced :=
      isPlaced_of_mem_standingsRow (by simpa using placed_value hdrafts) hrow
    rw [haround, List.any_cons, Bool.or_eq_false_iff] at hdeep
    rw [haround]
    exact ⟨y.site, rfl, children_of_keepsStrings (hreported.nodes 0 [] y hrow) hplaced hpart hopen
      hdeep.1⟩

/-- The errors about strings are those in the document's value. -/
theorem openStringRanges_drafts (hdrafts : drafts source = d :: trailing ls)
    (hd : Read eof [] .value ls [d]) :
    openStringRanges (drafts source) = d.openStrings.map (·.token.span) := by
  have hne : ∀ l ∈ lexemesList [d], l.token.span.isEmpty = false := by
    have hp := placed_value hdrafts
    intro l hl
    obtain ⟨front, back, hsplit⟩ := List.append_of_mem (show l ∈ d.lexemes by simpa using hl)
    rw [hsplit, placed_append] at hp
    have hcons : l :: back = [l] ++ back := rfl
    rw [hcons, placed_append] at hp
    exact isEmpty_span_firstToken (d := leaf l) hp.2.1
  have htrailing : openStringRanges (trailing ls) = [] := by
    cases ls with
    | nil => rfl
    | cons l ls =>
      have herrors : ∀ err ∈ errorsList (trailing (l :: ls)), ¬ err.isOpenString = true := by
        intro err herr
        obtain rfl : err = .ofToken .eof l.token _ := by
          simpa [trailing, trailingError, unexpected] using herr
        rw [ParseError.isOpenString_of_expected (by simp) (by simp)]
        exact Bool.false_ne_true
      rw [openStringRanges, List.filter_eq_nil_iff.mpr herrors]
      rfl
  have hsplit : drafts source = [d] ++ trailing ls := hdrafts
  rw [hsplit, openStringRanges_append, htrailing, List.append_nil, (reported_of_read hd).errors hne]
  simp

theorem nodup_openStrings (hdrafts : drafts source = d :: trailing ls) :
    (d.openStrings.map (·.token.span)).Nodup := by
  have hsub : (d.openStrings).Sublist (lexemes source) := by
    rw [← lexemesList_drafts, hdrafts]
    exact (sublist_openStrings d).trans (List.sublist_append_left _ _)
  have hstarts : ((d.openStrings.map (·.token.span)).map Span.start).Nodup := by
    rw [List.map_map]
    exact (nodup_start_lexemes source).sublist (hsub.map _)
  exact hstarts.of_map _

theorem count_openStringRanges (hdrafts : drafts source = d :: trailing ls)
    (hd : Read eof [] .value ls [d]) {around : List Site}
    (haround : around.any (·.tree.isTooDeep) = false) {x : Spot}
    (hx : x ∈ Draft.spots around 0 [] d) (hopen : x.isOpenString = true) :
    (openStringRanges (drafts source)).count x.site.range = 1 := by
  rw [openStringRanges_drafts hdrafts hd]
  refine List.count_eq_one_of_mem (nodup_openStrings hdrafts) ?_
  rw [← map_range_spots haround d 0 [] (placed_value hdrafts)]
  exact List.mem_map.mpr ⟨x, List.mem_filter.mpr ⟨hx, hopen⟩, rfl⟩

end

theorem length_filter_diagnostics (source : Text) (range : Span) :
    ((parse source).diagnostics.filter fun d =>
      d.category == .unterminatedString && d.range == range).length =
      (openStringRanges (drafts source)).count range := by
  rw [diagnostics, List.filter_map, List.length_map, openStringRanges, List.count_eq_countP,
    List.countP_map, List.countP_filter, List.countP_eq_length_filter]
  refine congrArg List.length (List.filter_congr fun err _ => ?_)
  exact Bool.and_comm _ _

end Parse

/-- A string without a closing quote is reported: unless it was skipped without being looked into, it
is the only token of a key or of an invalid value, and one diagnostic of its category has its
range. -/
theorem unterminated_strings_reported (source : Text) :
    ∀ x ∈ (parse source).spots, x.site.tree.isTokenOf .unterminatedString = true →
      x.isUnread = false →
      (∃ s ∈ x.around.head?,
        (s.tree.isNodeOf .key = true ∨ s.tree.isNodeOf .invalidValue = true) ∧
          s.tree.children = [x.site.tree]) ∧
      ∃ d, (parse source).diagnostics.filter (fun d =>
        d.category == .unterminatedString && d.range == x.site.range) = [d] := by
  intro x hx hopen hread
  obtain ⟨eof, d, ls, hdrafts, hd, hmem⟩ := Parse.mem_value_of_read hx hopen hread
  have hdeep : x.around.any (·.tree.isTooDeep) = false := (Bool.or_eq_false_iff.mp hread).1
  have hstring : x.isOpenString = true := by
    rw [Spot.isOpenString, hopen, hdeep]
    rfl
  refine ⟨Parse.exists_parent_of_openString hdrafts hd hmem hopen hdeep, ?_⟩
  rw [← List.length_eq_one_iff, Parse.length_filter_diagnostics]
  exact Parse.count_openStringRanges hdrafts hd rfl hmem hstring

/-- In `{"k`, a line break and `}` the key has no closing quote and no colon; it is reported once. -/
theorem unterminated_strings_reported_key :
    ∃ x ∈ (parse ['{', '"', 'k', '\n', '}']).spots,
      x.site.tree.isTokenOf .unterminatedString = true ∧ x.isUnread = false ∧
      (∃ s ∈ x.around.head?,
        (s.tree.isNodeOf .key = true ∨ s.tree.isNodeOf .invalidValue = true) ∧
          s.tree.children = [x.site.tree]) ∧
      ∃ d, (parse ['{', '"', 'k', '\n', '}']).diagnostics.filter (fun d =>
        d.category == .unterminatedString && d.range == x.site.range) = [d] := by
  refine ⟨(parse ['{', '"', 'k', '\n', '}']).spots.get ⟨7, by decide +kernel⟩, List.get_mem ..,
    by decide +kernel, by decide +kernel, ?_⟩
  exact unterminated_strings_reported _ _ (List.get_mem ..) (by decide +kernel) (by decide +kernel)

end Maml
