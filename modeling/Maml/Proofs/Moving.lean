import Maml.Proofs.Cuts
import Maml.Proofs.Shape

/-! Reading does not depend on where tokens stand.

1. A lexeme or a draft that is `moved` by a number of bytes has its significant tokens further
   back; the places of its trivia and its notes are left out. Moved tokens make moved lexemes
   (`Lexemes.group_map_shift`), and a moved draft has the same tree (`tree_moved`).
2. Values, items and members of moved pieces are those of the pieces, moved, whatever comes
   behind them (`moved_contents`). -/
namespace Maml

def Token.placeless (t : Token) : Token := { t with span := .empty 0 }

/-- A lexeme that is moved by a number of bytes; the trivia in front of it has no place. -/
def Lexeme.moved (k : Nat) (l : Lexeme) : Lexeme := ⟨l.trivia.map Token.placeless, l.token.shift k⟩

@[simp] theorem Token.shift_zero (t : Token) : t.shift 0 = t := rfl

@[simp] theorem Lexeme.kind_moved (k : Nat) (l : Lexeme) : (l.moved k).kind = l.kind := rfl

@[simp] theorem Lexeme.token_moved (k : Nat) (l : Lexeme) : (l.moved k).token = l.token.shift k :=
  rfl

@[simp] theorem Lexeme.moved_moved (k : Nat) (l : Lexeme) : (l.moved k).moved 0 = l.moved k := by
  simp only [Lexeme.moved, List.map_map, Token.shift_zero]
  rfl

namespace Lexemes

theorem group_map_shift (k : Nat) (ts : List Token) :
    (group (ts.map (Token.shift k))).1.map (Lexeme.moved 0) = (group ts).1.map (Lexeme.moved k) ∧
      (group (ts.map (Token.shift k))).2 = (group ts).2.map (Token.shift k) := by
  rw [group_map fun t => (rfl : (t.shift k).isTrivia = t.isTrivia)]
  refine ⟨?_, rfl⟩
  simp only [List.map_map]
  exact List.map_congr_left fun l _ => congrArg (Lexeme.mk · _) (List.map_map ..)

end Lexemes

namespace Draft

/-! ## Moved drafts -/

mutual

/-- A draft that is moved by a number of bytes, without its notes. -/
def moved (k : Nat) : Draft → Draft
  | leaf l => leaf (l.moved k)
  | node kind _ first rest _ => plain kind (first.moved k) (movedRow k rest)

def movedRow (k : Nat) : List Draft → List Draft
  | [] => []
  | d :: ds => d.moved k :: movedRow k ds

end

@[simp] theorem moved_leaf (k : Nat) (l : Lexeme) : (leaf l).moved k = leaf (l.moved k) := rfl

@[simp] theorem moved_node (k : Nat) (kind : NodeKind) (before after : Option ParseError)
    (first : Draft) (rest : List Draft) : (node kind before first rest after).moved k =
      plain kind (first.moved k) (movedRow k rest) := rfl

@[simp] theorem moved_plain (k : Nat) (kind : NodeKind) (first : Draft) (rest : List Draft) :
    (plain kind first rest).moved k = plain kind (first.moved k) (movedRow k rest) := rfl

@[simp] theorem movedRow_nil (k : Nat) : movedRow k [] = [] := rfl

@[simp] theorem movedRow_cons (k : Nat) (d : Draft) (ds : List Draft) :
    movedRow k (d :: ds) = d.moved k :: movedRow k ds := rfl

@[simp] theorem movedRow_append (k : Nat) (ds es : List Draft) :
    movedRow k (ds ++ es) = movedRow k ds ++ movedRow k es := by
  induction ds with
  | nil => rfl
  | cons d ds ih => rw [List.cons_append, movedRow_cons, ih, movedRow_cons, List.cons_append]

@[simp] theorem movedRow_wrap (k : Nat) (kind : NodeKind) (ds : List Draft) :
    movedRow k (wrap kind ds) = wrap kind (movedRow k ds) := by
  cases ds <;> rfl

mutual

@[simp] theorem moved_moved (k : Nat) : ∀ d : Draft, (d.moved k).moved 0 = d.moved k
  | leaf l => congrArg leaf (l.moved_moved k)
  | node kind before first rest after => by
    rw [moved_node, moved_plain, moved_moved k first, movedRow_movedRow k rest]

@[simp] theorem movedRow_movedRow (k : Nat) : ∀ ds : List Draft,
    movedRow 0 (movedRow k ds) = movedRow k ds
  | [] => rfl
  | d :: ds => by
    rw [movedRow_cons, movedRow_cons, moved_moved k d, movedRow_movedRow k ds]

end

theorem tokenLeaf_shift (k : Nat) (t : Token) : tokenLeaf (t.shift k) = tokenLeaf t := rfl

theorem map_tokenLeaf_trivia_moved (k : Nat) (d : Draft) :
    (d.moved k).trivia.map tokenLeaf = d.trivia.map tokenLeaf := by
  induction d using firstLexeme.induct with
  | case1 l =>
    rw [trivia, moved_leaf, firstLexeme, Lexeme.moved, List.map_map]
    rfl
  | case2 kind before first rest after ih => exact ih

mutual

theorem tree_moved (k : Nat) : ∀ d : Draft, (d.moved k).tree = d.tree
  | leaf l => rfl
  | node kind before first rest after => by
    rw [moved_node, plain, tree, tree, tree_moved k first, trees_movedRow k rest]

theorem trees_movedRow (k : Nat) : ∀ ds : List Draft, trees (movedRow k ds) = trees ds
  | [] => rfl
  | d :: ds => by
    rw [movedRow_cons, trees, trees, map_tokenLeaf_trivia_moved, tree_moved k d,
      trees_movedRow k ds]

end

/-! ## Tests -/

section
variable (k : Nat)

@[simp] theorem isToken_moved (kind : TokenKind) (d : Draft) :
    (d.moved k).isToken kind = d.isToken kind := by
  cases d <;> rfl

@[simp] theorem startsValue_moved (d : Draft) : (d.moved k).startsValue = d.startsValue := by
  cases d <;> rfl

@[simp] theorem resumesMembers_moved (d : Draft) :
    (d.moved k).resumesMembers = d.resumesMembers := by
  cases d <;> rfl

@[simp] theorem isKeyToken_moved (d : Draft) : (d.moved k).isKeyToken = d.isKeyToken := by
  cases d <;> rfl

@[simp] theorem isQuotableToken_moved (d : Draft) :
    (d.moved k).isQuotableToken = d.isQuotableToken := by
  cases d <;> rfl

@[simp] theorem startsWithColon_movedRow (ds : List Draft) :
    startsWithColon (movedRow k ds) = startsWithColon ds := by
  cases ds with
  | nil => rfl
  | cons d ds => exact isToken_moved k .colon d

@[simp] theorem valueMissing_movedRow (ds : List Draft) :
    valueMissing (movedRow k ds) = valueMissing ds := by
  cases ds with
  | nil => rfl
  | cons d ds =>
    cases d with
    | leaf l => simp [valueMissing]
    | node => rfl

@[simp] theorem isSignedNumber_shift (plus number : Token) :
    isSignedNumber (plus.shift k) (number.shift k) = isSignedNumber plus number := by
  have hadjacent : ((number.shift k).span.start == (plus.shift k).span.stop) =
      (number.span.start == plus.span.stop) := by
    rw [Bool.eq_iff_iff, beq_iff_eq, beq_iff_eq]
    exact Nat.add_right_cancel_iff
  rw [isSignedNumber, isSignedNumber, hadjacent]
  rfl

/-! ## Values and items -/

theorem moved_single (l : Lexeme) : (single (l.moved k)).moved 0 = (single l).moved k := by
  unfold single
  rw [Lexeme.kind_moved]
  split <;> simp

theorem moved_asValue (d : Draft) : (d.moved k).asValue.moved 0 = d.asValue.moved k := by
  cases d with
  | leaf l => exact moved_single k l
  | node => exact moved_moved k _

theorem moved_valueAt (d : Draft) (ds : List Draft) :
    (valueAt (d.moved k) (movedRow k ds)).1.moved 0 = (valueAt d ds).1.moved k ∧
      (valueAt (d.moved k) (movedRow k ds)).2 = movedRow k (valueAt d ds).2 := by
  have hvalue : (d.moved k).asValue.moved 0 = d.asValue.moved k ∧
    movedRow k ds = movedRow k ds := ⟨moved_asValue k d, rfl⟩
  -- only a plus sign and a number are taken together
  cases d with
  | node => exact hvalue
  | leaf plus =>
    cases ds with
    | nil => exact hvalue
    | cons d ds =>
      cases d with
      | node => exact hvalue
      | leaf number =>
        simp only [moved_leaf, movedRow_cons, valueAt, Lexeme.token_moved, isSignedNumber_shift]
        split
        · simp [signed]
        · exact hvalue

theorem moved_items (b : Bool) (ds : List Draft) :
    movedRow 0 (items b (movedRow k ds)) = movedRow k (items b ds) := by
  induction b, ds using items_induction with
  | nil => simp
  | stray comma ds hc ih =>
    have hc' : (comma.moved k).kind = .comma := hc
    rw [movedRow_cons, moved_leaf, items_stray hc', items_stray hc, movedRow_cons, ih,
      movedRow_cons]
    simp [strayComma]
  | comma comma ds hc ih =>
    have hc' : (comma.moved k).kind = .comma := hc
    rw [movedRow_cons, moved_leaf, items_comma hc', items_comma hc, movedRow_cons, ih,
      movedRow_cons, ← moved_leaf, moved_moved]
  | item b d ds hc ih =>
    obtain ⟨hvalue, hrest⟩ := moved_valueAt k d ds
    rw [movedRow_cons, items_cons (by rwa [isToken_moved]), hrest, items_cons hc, movedRow_cons,
      hvalue, ih, movedRow_cons]

/-! ## Members -/

theorem moved_skipValue (d : Draft) (ds : List Draft) :
    movedRow 0 (skipValue (d.moved k) (movedRow k ds)).1 = movedRow k (skipValue d ds).1 ∧
      (skipValue (d.moved k) (movedRow k ds)).2 = movedRow k (skipValue d ds).2 := by
  cases ds with
  | nil => exact ⟨rfl, rfl⟩
  | cons v rest =>
    simp only [movedRow_cons, skipValue, isToken_moved, startsValue_moved]
    split
    · simp [moved_asValue]
    · simp

theorem moved_skip (ds : List Draft) :
    movedRow 0 (skip (movedRow k ds)).1 = movedRow k (skip ds).1 ∧
      (skip (movedRow k ds)).2 = movedRow k (skip ds).2 := by
  induction ds using skip_induction with
  | nil => simp
  | resumes d ds hr => simp [skip_of_resumesMembers, hr]
  | skipped d ds hr ih =>
    obtain ⟨hvalue, hrest⟩ := moved_skipValue k d ds
    rw [movedRow_cons, skip_cons (by rwa [resumesMembers_moved]), hrest, skip_cons hr]
    refine ⟨?_, ih.2⟩
    simp only [movedRow_cons, movedRow_append, moved_moved, hvalue, ih.1]

theorem moved_skipMember (d : Draft) (ds : List Draft) :
    movedRow 0 (skipMember (d.moved k) (movedRow k ds)).1 = movedRow k (skipMember d ds).1 ∧
      (skipMember (d.moved k) (movedRow k ds)).2 = movedRow k (skipMember d ds).2 := by
  obtain ⟨hvalue, hrest⟩ := moved_skipValue k d ds
  obtain ⟨hskip, hbehind⟩ := moved_skip k (skipValue d ds).2
  rw [skipMember, hrest]
  refine ⟨?_, hbehind⟩
  simp only [skipMember, junk, movedRow_cons, movedRow_nil, moved_node, moved_moved,
    movedRow_append, hvalue, hskip]

theorem moved_memberValue (stop stop' : Token) (colon colon' : Draft) (ds : List Draft) :
    movedRow 0 (memberValue stop' colon' (movedRow k ds)).value =
        movedRow k (memberValue stop colon ds).value ∧
      (memberValue stop' colon' (movedRow k ds)).rest =
        movedRow k (memberValue stop colon ds).rest := by
  have hmoved := valueMissing_movedRow k ds
  cases memberValueRule ds with
  | missing h =>
    rw [memberValue_missing h, memberValue_missing (hmoved.trans h)]
    exact ⟨rfl, rfl⟩
  | @present d ds h =>
    obtain ⟨hvalue, hrest⟩ := moved_valueAt k d ds
    rw [h, movedRow_cons] at hmoved
    rw [movedRow_cons, memberValue_present h, memberValue_present hmoved]
    simp [hvalue, hrest]

/-- What a member is depends on the kinds of its first piece and of the one behind it. -/
theorem moved_memberAt (stop stop' : Token) (d : Draft) (ds : List Draft) :
    movedRow 0 (memberAt stop' (d.moved k) (movedRow k ds)).1 =
        movedRow k (memberAt stop d ds).1 ∧
      (memberAt stop' (d.moved k) (movedRow k ds)).2 = movedRow k (memberAt stop d ds).2 := by
  cases memberRule d ds with
  | @keyValue key colon ds hk hc =>
    obtain ⟨hvalue, hrest⟩ := moved_memberValue k stop stop' (leaf colon) (leaf (colon.moved k)) ds
    have hkeyValue := @memberAt_keyValue (key.moved k) (colon.moved k) hk hc stop' (movedRow k ds)
    rw [memberAt_keyValue hk hc, moved_leaf, movedRow_cons, moved_leaf, hkeyValue]
    exact ⟨by simp [keyValue, hvalue], hrest⟩
  | @literalKey key colon ds hq hc =>
    obtain ⟨hvalue, hrest⟩ := moved_memberValue k stop stop' (leaf colon) (leaf (colon.moved k)) ds
    have hliteral := @memberAt_literalKey (key.moved k) (colon.moved k) hq hc stop' (movedRow k ds)
    rw [memberAt_literalKey hq hc, moved_leaf, movedRow_cons, moved_leaf, hliteral]
    exact ⟨by simp [literalKey, hvalue], hrest⟩
  | @incomplete key ds hk hc =>
    obtain ⟨hskip, hrest⟩ := moved_skip k ds
    rw [memberAt_incomplete hk hc, moved_leaf,
      @memberAt_incomplete stop' (key.moved k) _ hk (by rwa [startsWithColon_movedRow])]
    exact ⟨by simp [incomplete, hskip], hrest⟩
  | skipped hk hq =>
    rw [memberAt_skip hk hq, memberAt_skip (by rwa [isKeyToken_moved])
      (by rwa [isQuotableToken_moved, startsWithColon_movedRow])]
    exact moved_skipMember k d ds

theorem moved_members (stop stop' : Token) (b : Bool) (ds : List Draft) :
    movedRow 0 (members stop' b (movedRow k ds)) = movedRow k (members stop b ds) := by
  induction b, ds using @members_induction stop with
  | nil => simp
  | stray comma ds hc ih =>
    have hc' : (comma.moved k).kind = .comma := hc
    rw [movedRow_cons, moved_leaf, members_stray hc', members_stray hc, movedRow_cons, ih,
      movedRow_cons]
    simp [strayComma]
  | comma comma ds hc ih =>
    have hc' : (comma.moved k).kind = .comma := hc
    rw [movedRow_cons, moved_leaf, members_comma hc', members_comma hc, movedRow_cons, ih,
      movedRow_cons, ← moved_leaf, moved_moved]
  | member b d ds hc ih =>
    obtain ⟨hmember, hrest⟩ := moved_memberAt k stop stop' d ds
    rw [movedRow_cons, members_cons (by rwa [isToken_moved]), hrest, members_cons hc,
      movedRow_append, hmember, ih, movedRow_append]

/-! ## Containers -/

/-- What a container contains is made of its pieces alone, wherever they stand and whatever comes
behind them. -/
theorem moved_contents (c : Container) (stop stop' : Token) (ds : List Draft) :
    movedRow 0 (contents c stop' (movedRow k ds)) = movedRow k (contents c stop ds) := by
  cases c with
  | object => exact moved_members k stop stop' true ds
  | array => exact moved_items k true ds

end

theorem moved_container (k : Nat) (c : Container) (opener : Lexeme) (ds : List Draft)
    (closer : Option Lexeme) (next : Token) : (container c opener ds closer next).moved k =
      plain .value (plain c.nodeKind (leaf (opener.moved k))
        (wrap c.listKind (movedRow k ds) ++ ((closer.map (Lexeme.moved k)).map leaf).toList)) [] := by
  cases closer <;> simp [container]

theorem moved_container_contents {k : Nat} {opener opener' : Lexeme} {ds ds' : List Draft}
    {closer closer' : Option Lexeme} (ho : opener'.moved k = opener.moved 0)
    (hds : movedRow k ds' = movedRow 0 ds)
    (hc : closer'.map (Lexeme.moved k) = closer.map (Lexeme.moved 0)) (c : Container)
    (stop stop' next next' : Token) :
    (container c opener' (contents c stop' ds') closer' next').moved k =
      (container c opener (contents c stop ds) closer next).moved 0 := by
  have hcontents : movedRow k (contents c stop' ds') = movedRow 0 (contents c stop ds) := by
    rw [← moved_contents k c stop' stop' ds', hds, moved_contents 0 c stop stop' ds]
  rw [moved_container, moved_container, ho, hcontents, hc]

end Draft

end Maml
