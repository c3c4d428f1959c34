import Maml.Draft.Value

/-! What is in an array: values, with or without commas between them.

A comma at the start of the list or right behind another comma is stray. -/
namespace Maml.Draft

/-- A comma where a member or an item should be. -/
def strayComma (expected : Expected) (comma : Draft) : Draft :=
  node .error (unexpected expected comma.firstToken comma.firstToken.span) comma [] none

/-- The items of an array, from the pieces between its brackets. -/
def items (afterSeparator : Bool) : List Draft → List Draft
  | [] => []
  | d :: ds =>
    if d.isToken .comma then
      if afterSeparator then strayComma .value d :: items false ds
      else d :: items true ds
    else
      (valueAt d ds).1 :: items false (valueAt d ds).2
termination_by ds => ds.length
decreasing_by
  · simp
  · simp
  · have := length_valueAt_le d ds
    simp only [List.length_cons]
    omega

@[simp] theorem items_nil (b : Bool) : items b [] = [] := by
  rw [items]

theorem items_stray {comma : Lexeme} (hc : comma.kind = .comma) (ds : List Draft) :
    items true (leaf comma :: ds) = strayComma .value (leaf comma) :: items false ds := by
  rw [items, if_pos (by simpa [isToken] using hc), if_pos rfl]

theorem items_comma {comma : Lexeme} (hc : comma.kind = .comma) (ds : List Draft) :
    items false (leaf comma :: ds) = leaf comma :: items true ds := by
  rw [items, if_pos (by simpa [isToken] using hc), if_neg Bool.false_ne_true]

theorem items_cons {d : Draft} (hd : d.isToken .comma = false) (b : Bool) (ds : List Draft) :
    items b (d :: ds) = (valueAt d ds).1 :: items false (valueAt d ds).2 := by
  rw [items, hd, if_neg Bool.false_ne_true]

/-- Induction on the pieces of a list of items. -/
theorem items_induction {P : Bool → List Draft → Prop} (nil : ∀ b, P b [])
    (stray : ∀ comma ds, comma.kind = .comma → P false ds → P true (leaf comma :: ds))
    (comma : ∀ comma ds, comma.kind = .comma → P true ds → P false (leaf comma :: ds))
    (item : ∀ b d ds, d.isToken .comma = false → P false (valueAt d ds).2 → P b (d :: ds))
    (b : Bool) (ds : List Draft) : P b ds := by
  induction b, ds using items.induct with
  | case1 b => exact nil b
  | case2 d ds hc ih =>
    obtain ⟨l, rfl, hl⟩ := eq_leaf_of_isToken hc
    exact stray l ds hl ih
  | case3 b d ds hc hb ih =>
    obtain ⟨l, rfl, hl⟩ := eq_leaf_of_isToken hc
    obtain rfl : b = false := by simpa using hb
    exact comma l ds hl ih
  | case4 b d ds hc ih => exact item b d ds (by simpa using hc) ih

end Maml.Draft
