import Maml.Spot

/-! Commas in the lists of containers.

A comma on the level of a list is a child of the list, or of a node of skipped tokens
that is one. It may be kept as a separator, or reported as stray. -/
namespace Maml

def Site.begin? (s : Site) : Option LeafView := s.parts.head?.bind (·.leaf?)

/-- A comma in the list of a container. -/
structure Comma where
  container : Site
  list : Site
  /-- The child of the list that is the comma or holds it. -/
  element : Site
  site : Site

namespace Comma

/-- Whether a comma is on the level of the list of a container in a reading. -/
structure IsIn (m : Comma) (c : Container) (p : Parse) : Prop where
  container : m.container ∈ p.sites
  isContainer : m.container.tree.isNodeOf c.nodeKind = true
  list : m.list ∈ m.container.parts
  isList : m.list.tree.isNodeOf c.listKind = true
  element : m.element ∈ m.list.parts
  site : m.site = m.element ∨
    (m.element.tree.isNodeOf .error = true ∧ m.site ∈ m.element.parts)
  isComma : m.site.tree.isTokenOf .comma = true

/-! ## What is in front of a comma -/

/-- Whether the last significant token in front of a comma is the opener of its container. -/
def FollowsOpener (m : Comma) (p : Parse) : Prop :=
  ∃ l, p.leafBefore? m.site.offset = some l ∧ m.container.begin? = some l

/-- Whether the last significant token in front of a comma is a comma. -/
def FollowsComma (m : Comma) (p : Parse) : Prop :=
  ∃ l, p.leafBefore? m.site.offset = some l ∧ l.label = .token .comma

/-- Whether the last significant token in front of a comma is a comma that is a child of the list
itself. -/
def FollowsSeparator (m : Comma) (p : Parse) : Prop :=
  ∃ l, p.leafBefore? m.site.offset = some l ∧
    ∃ s ∈ m.list.parts, s.tree.isTokenOf .comma = true ∧ s.leaf? = some l

/-! ## What becomes of a comma -/

/-- The errors that cover a comma and nothing else. -/
def errors (m : Comma) (p : Parse) : List ParseError :=
  p.errors.filter (·.range == m.site.range)

/-- Whether a comma is alone in a node of skipped tokens, and one error reports it. -/
def IsReported (m : Comma) (c : Container) (p : Parse) : Prop :=
  m.element.tree.isNodeOf .error = true ∧ m.element.parts = [m.site] ∧
    ∃ l, m.site.leaf? = some l ∧
      m.errors p = [⟨c.expectedElement, .comma, l.text, m.site.range⟩]

/-- Whether a comma is a child of the list, and no error reports it. -/
def IsKept (m : Comma) (p : Parse) : Prop := m.site = m.element ∧ m.errors p = []

/-- The rule that a comma at the start of a list or right after another comma is reported, and any
other is kept. -/
def ObeysRule (m : Comma) (c : Container) (p : Parse) : Prop :=
  (m.FollowsOpener p ∨ m.FollowsComma p → m.IsReported c p) ∧
    (¬ (m.FollowsOpener p ∨ m.FollowsComma p) → m.IsKept p)

end Comma

end Maml
