import Maml.Proofs.Lossless

/-! Values, items and members regroup pieces.

Reading the pieces between two brackets puts neighbours together in nodes that are
no containers; it changes nothing inside a piece and nothing in their order.
`Regrouped` says this of two rows, and `regrouped_contents` that it is so.

Each lemma on the way is about one function that takes pieces off a row: if what it
leaves is regrouped, then so is the whole row, with what it made in front. -/
namespace Maml

def NodeKind.isContainer : NodeKind → Bool
  | object | array => true
  | _ => false

namespace Draft

/-- Rows that differ only in nodes that are no containers, which hold consecutive drafts of the
first in the second. -/
inductive Regrouped : List Draft → List Draft → Prop where
  | nil : Regrouped [] []
  | keep {ds es} (d) (h : Regrouped ds es) : Regrouped (d :: ds) (d :: es)
  | group {ds kind before first rest after es} (hk : NodeKind.isContainer kind = false)
      (h : Regrouped ds (first :: rest ++ es)) :
      Regrouped ds (node kind before first rest after :: es)

theorem lexemesList_of_regrouped {ds es : List Draft} (h : Regrouped ds es) :
    lexemesList es = lexemesList ds := by
  induction h with
  | nil => rfl
  | keep d h ih => rw [lexemesList_cons, lexemesList_cons, ih]
  | group hk h ih =>
    rw [← ih, lexemesList_append, lexemesList_cons, lexemesList_cons, lexemes_node]

/-! ## Values and items -/

theorem regrouped_single {ds es : List Draft} (l : Lexeme) (h : Regrouped ds es) :
    Regrouped (leaf l :: ds) (single l :: es) := by
  unfold single
  split
  · exact .group rfl (.keep _ h)
  · exact .group rfl (.group rfl (.keep _ h))

theorem regrouped_asValue {ds es : List Draft} (d : Draft) (h : Regrouped ds es) :
    Regrouped (d :: ds) (d.asValue :: es) := by
  cases d with
  | leaf l => exact regrouped_single l h
  | node => exact .keep _ h

theorem regrouped_valueAt {d : Draft} {ds es : List Draft} (h : Regrouped (valueAt d ds).2 es) :
    Regrouped (d :: ds) ((valueAt d ds).1 :: es) := by
  cases valueRule d ds with
  | signed hsigned =>
    rw [valueAt_signed _ hsigned] at h ⊢
    exact .group rfl (.group rfl (.keep _ (.keep _ h)))
  | alone halone =>
    rw [valueAt_alone halone] at h ⊢
    exact regrouped_asValue _ h

theorem regrouped_items (b : Bool) (ds : List Draft) : Regrouped ds (items b ds) := by
  induction b, ds using items_induction with
  | nil =>
    rw [items_nil]
    exact .nil
  | stray comma ds hc ih =>
    rw [items_stray hc]
    exact .group rfl (.keep _ ih)
  | comma comma ds hc ih =>
    rw [items_comma hc]
    exact .keep _ ih
  | item b d ds hc ih =>
    rw [items_cons hc]
    exact regrouped_valueAt ih

/-! ## Skipping -/

theorem regrouped_skipValue {d : Draft} {ds es : List Draft}
    (h : Regrouped (skipValue d ds).2 es) : Regrouped ds ((skipValue d ds).1 ++ es) := by
  cases skipRule d ds with
  | taken hc hv =>
    rw [skipValue_taken _ hc hv] at h ⊢
    exact regrouped_asValue _ h
  | alone halone => rwa [skipValue_alone halone] at h ⊢

theorem regrouped_skip {ds es : List Draft} (h : Regrouped (skip ds).2 es) :
    Regrouped ds ((skip ds).1 ++ es) := by
  induction ds using skip_induction with
  | nil => simpa using h
  | resumes d ds hr => rwa [skip_of_resumesMembers hr] at h ⊢
  | skipped d ds hr ih =>
    rw [skip_cons hr] at h ⊢
    have hrest := regrouped_skipValue (ih h)
    rw [← List.append_assoc] at hrest
    exact .keep d hrest

/-! ## Members -/

theorem regrouped_wrap {kind : NodeKind} (hk : kind.isContainer = false) {ds es : List Draft} :
    ∀ {made : List Draft}, Regrouped ds (made ++ es) → Regrouped ds (wrap kind made ++ es)
  | [], h => h
  | _ :: _, h => .group hk h

theorem regrouped_memberValue {stop : Token} {colon : Draft} {ds es : List Draft}
    (h : Regrouped (memberValue stop colon ds).rest es) :
    Regrouped ds ((memberValue stop colon ds).value ++ es) := by
  cases memberValueRule ds with
  | missing hmissing => rwa [memberValue_missing hmissing] at h ⊢
  | present hpresent =>
    rw [memberValue_present hpresent] at h ⊢
    exact regrouped_valueAt h

theorem regrouped_skipMember {d : Draft} {ds es : List Draft}
    (h : Regrouped (skipMember d ds).2 es) :
    Regrouped (d :: ds) ((skipMember d ds).1 ++ es) := by
  have hrest := regrouped_skipValue (regrouped_skip h)
  rw [← List.append_assoc] at hrest
  exact .group rfl (.keep d hrest)

theorem regrouped_memberAt {stop : Token} {d : Draft} {ds es : List Draft}
    (h : Regrouped (memberAt stop d ds).2 es) :
    Regrouped (d :: ds) ((memberAt stop d ds).1 ++ es) := by
  cases memberRule d ds with
  | keyValue hk hc =>
    rw [memberAt_keyValue hk hc] at h ⊢
    exact .group rfl (.group rfl (.keep _ (.keep _ (regrouped_memberValue h))))
  | literalKey hq hc =>
    rw [memberAt_literalKey hq hc] at h ⊢
    exact .group rfl (.keep _ (.keep _ (regrouped_memberValue h)))
  | incomplete hk hc =>
    rw [memberAt_incomplete hk hc] at h ⊢
    exact .group rfl (.group rfl (.keep _ (regrouped_wrap rfl (regrouped_skip h))))
  | skipped hk hq =>
    rw [memberAt_skip hk hq] at h ⊢
    exact regrouped_skipMember h

theorem regrouped_members (stop : Token) (b : Bool) (ds : List Draft) :
    Regrouped ds (members stop b ds) := by
  induction b, ds using @members_induction stop with
  | nil =>
    rw [members_nil]
    exact .nil
  | stray comma ds hc ih =>
    rw [members_stray hc]
    exact .group rfl (.keep _ ih)
  | comma comma ds hc ih =>
    rw [members_comma hc]
    exact .keep _ ih
  | member b d ds hc ih =>
    rw [members_cons hc]
    exact regrouped_memberAt ih

theorem regrouped_contents (c : Container) (stop : Token) (ds : List Draft) :
    Regrouped ds (contents c stop ds) := by
  cases c
  · exact regrouped_members stop true ds
  · exact regrouped_items true ds

end Draft

end Maml
