import Maml.Leaves
import Maml.Proofs.Placement

/-! Nodes of a tree are nested or apart.

1. The leaves of a tree follow one another (`LeafView.pairwise_row`), and those of a node
   are a stretch of them: what is in front of the stretch ends before the node begins, and
   what is behind it begins after the node ends (`Site.standsIn_nodesOf`, `Site.StandsIn.stretchIn`).
2. Of two nodes of a tree one is at or below the other, or one ends before the other begins
   (`Site.nestedOrApart_nodesOf`). A leaf that is a part of a node is apart from all nodes
   below that node (`Site.apart_of_mem_parts`).

All this holds of any tree, hand-built ones and empty nodes included. -/
namespace Maml

/-! ## Leaves in order -/

namespace Tree

theorem size_eq_leaves (t : Tree) : t.size = Text.size (t.leaves.flatMap (·.2)) := by
  rw [size_eq, text_eq_flatMap_leaves]

end Tree

namespace LeafView

theorem row_append (o : Nat) (as bs : List (Label × Text)) :
    row o (as ++ bs) = row o as ++ row (o + Text.size (as.flatMap (·.2))) bs := by
  induction as generalizing o with
  | nil => rfl
  | cons a as ih =>
    rw [List.cons_append, row, ih, row, List.flatMap_cons, Text.size_append, Nat.add_assoc]
    rfl

theorem bounds_of_mem_row {o : Nat} {as : List (Label × Text)} {l : LeafView}
    (h : l ∈ row o as) :
    o ≤ l.offset ∧ l.range.stop ≤ o + Text.size (as.flatMap (·.2)) := by
  induction as generalizing o with
  | nil => exact absurd h List.not_mem_nil
  | cons a as ih =>
    rw [List.flatMap_cons, Text.size_append]
    rcases List.mem_cons.mp h with rfl | h
    · simp only [range]
      omega
    · have hbounds := ih h
      omega

/-- Each leaf of a row ends before the next ones begin. -/
theorem pairwise_row (o : Nat) (as : List (Label × Text)) :
    (row o as).Pairwise fun l r => l.range.stop ≤ r.offset := by
  induction as generalizing o with
  | nil => exact List.Pairwise.nil
  | cons a as ih => exact List.pairwise_cons.mpr ⟨fun l hl => (bounds_of_mem_row hl).1, ih _⟩

end LeafView

namespace Site

theorem bounds_of_mem_leaves {s : Site} {l : LeafView} (h : l ∈ s.leaves) :
    s.offset ≤ l.offset ∧ l.range.stop ≤ s.stop := by
  have hbounds := LeafView.bounds_of_mem_row h
  rwa [← Tree.size_eq_leaves] at hbounds

/-! ## Parts in their trees -/

/-- Whether the leaves of a part of a tree are a stretch of given ones, which begin at an offset,
and the part stands where the stretch does. -/
def StandsIn (s : Site) (o : Nat) (as : List (Label × Text)) : Prop :=
  ∃ front back, as = front ++ s.tree.leaves ++ back ∧
    s.offset = o + Text.size (front.flatMap (·.2))

/-- Whether the leaves of a node are a stretch of given ones, with everything in front of it in
front of the node, and everything behind it behind the node. -/
def StretchIn (s : Site) (ls : List LeafView) : Prop :=
  ∃ front back, ls = front ++ s.leaves ++ back ∧ (∀ l ∈ front, l.range.stop ≤ s.offset) ∧
    ∀ l ∈ back, s.stop ≤ l.offset

namespace StandsIn
variable {s : Site} {o : Nat} {as bs : List (Label × Text)}

theorem append_right (h : s.StandsIn o as) (bs : List (Label × Text)) :
    s.StandsIn o (as ++ bs) := by
  obtain ⟨front, back, rfl, ho⟩ := h
  exact ⟨front, back ++ bs, by rw [List.append_assoc], ho⟩

theorem append_left (h : s.StandsIn (o + Text.size (as.flatMap (·.2))) bs) :
    s.StandsIn o (as ++ bs) := by
  obtain ⟨front, back, rfl, ho⟩ := h
  refine ⟨as ++ front, back, by simp only [List.append_assoc], ?_⟩
  rw [ho, List.flatMap_append, Text.size_append, Nat.add_assoc]

theorem bounds (h : s.StandsIn o as) :
    o ≤ s.offset ∧ s.stop ≤ o + Text.size (as.flatMap (·.2)) := by
  obtain ⟨front, back, rfl, ho⟩ := h
  rw [stop, Tree.size_eq_leaves, List.flatMap_append, List.flatMap_append, Text.size_append,
    Text.size_append]
  omega

theorem stretchIn (h : s.StandsIn o as) : s.StretchIn (LeafView.row o as) := by
  obtain ⟨front, back, rfl, ho⟩ := h
  refine ⟨LeafView.row o front, LeafView.row s.stop back, ?_, fun l hl => ?_, fun l hl => ?_⟩
  · rw [LeafView.row_append, LeafView.row_append, List.flatMap_append, Text.size_append,
      ← Nat.add_assoc, ← ho, leaves, stop, Tree.size_eq_leaves]
  · rw [ho]
    exact (LeafView.bounds_of_mem_row hl).2
  · exact (LeafView.bounds_of_mem_row hl).1

end StandsIn

theorem standsIn_row {o : Nat} {b : List (Option Text)} {ts : List Tree} {s : Site}
    (h : s ∈ row o b ts) : s.StandsIn o (Tree.leavesList ts) := by
  induction ts generalizing o b with
  | nil => exact absurd h List.not_mem_nil
  | cons t ts ih =>
    rcases List.mem_cons.mp h with rfl | h
    · exact ⟨[], Tree.leavesList ts, rfl, rfl⟩
    · exact .append_left (Tree.size_eq_leaves t ▸ ih h)

mutual

theorem standsIn_nodesOf (o : Nat) (b : List (Option Text)) : ∀ t : Tree, ∀ s ∈ nodesOf o b t,
    s.StandsIn o t.leaves
  | .leaf .. => fun _ h => absurd h List.not_mem_nil
  | .node label children => by
    intro s hs
    rcases List.mem_cons.mp hs with rfl | hs
    · exact ⟨[], [], (List.append_nil _).symm, rfl⟩
    · exact standsIn_nodesOfRow o b children s hs

theorem standsIn_nodesOfRow (o : Nat) (b : List (Option Text)) : ∀ ts : List Tree,
    ∀ s ∈ nodesOfRow o b ts, s.StandsIn o (Tree.leavesList ts)
  | [] => fun _ h => absurd h List.not_mem_nil
  | t :: ts => by
    intro s hs
    rcases List.mem_append.mp hs with hs | hs
    · exact (standsIn_nodesOf o b t s hs).append_right _
    · exact .append_left (Tree.size_eq_leaves t ▸ standsIn_nodesOfRow _ _ ts s hs)

end

/-! ## Nested or apart -/

/-- Whether one of two parts of a tree ends before the other begins. -/
def Apart (s u : Site) : Prop := s.stop ≤ u.offset ∨ u.stop ≤ s.offset

/-- Whether one of two nodes is at or below the other, or they are apart. -/
def NestedOrApart (s u : Site) : Prop :=
  s ∈ u.descendants ∨ u ∈ s.descendants ∨ s.Apart u

mutual

theorem nestedOrApart_nodesOf (o : Nat) (b : List (Option Text)) : ∀ t : Tree,
    ∀ s ∈ nodesOf o b t, ∀ u ∈ nodesOf o b t, s.NestedOrApart u
  | .leaf .. => fun _ h => absurd h List.not_mem_nil
  | .node label children => by
    intro s hs u hu
    rcases List.mem_cons.mp hs with rfl | hs'
    · exact .inr (.inl hu)
    rcases List.mem_cons.mp hu with rfl | hu'
    · exact .inl hs
    · exact nestedOrApart_nodesOfRow o b children s hs' u hu'

theorem nestedOrApart_nodesOfRow (o : Nat) (b : List (Option Text)) : ∀ ts : List Tree,
    ∀ s ∈ nodesOfRow o b ts, ∀ u ∈ nodesOfRow o b ts, s.NestedOrApart u
  | [] => fun _ h => absurd h List.not_mem_nil
  | t :: ts => by
    -- what is in the first tree is apart from what is in the others
    have hapart {s u : Site} (hs : s ∈ nodesOf o b t)
        (hu : u ∈ nodesOfRow (o + t.size) (t.slotsAfter b) ts) : s.stop ≤ u.offset := by
      have hstop := (standsIn_nodesOf o b t s hs).bounds.2
      rw [← Tree.size_eq_leaves] at hstop
      exact Nat.le_trans hstop (standsIn_nodesOfRow _ _ ts u hu).bounds.1
    intro s hs u hu
    rcases List.mem_append.mp hs with hs | hs
    · rcases List.mem_append.mp hu with hu | hu
      · exact nestedOrApart_nodesOf o b t s hs u hu
      · exact .inr (.inr (.inl (hapart hs hu)))
    · rcases List.mem_append.mp hu with hu | hu
      · exact .inr (.inr (.inr (hapart hu hs)))
      · exact nestedOrApart_nodesOfRow _ _ ts s hs u hu

end

theorem apart_of_mem_row {o : Nat} {b : List (Option Text)} {ts : List Tree} {x u : Site}
    (hx : x ∈ row o b ts) (hleaf : x.tree.isNode = false) (hu : u ∈ nodesOfRow o b ts) :
    x.Apart u := by
  induction ts generalizing o b with
  | nil => exact absurd hx List.not_mem_nil
  | cons t ts ih =>
    rcases List.mem_cons.mp hx with rfl | hx
    · rcases List.mem_append.mp hu with hu | hu
      · cases t with
        | leaf => exact absurd hu List.not_mem_nil
        | node => exact absurd hleaf (by simp [Tree.isNode])
      · exact .inl (standsIn_nodesOfRow _ _ ts u hu).bounds.1
    · rcases List.mem_append.mp hu with hu | hu
      · have hstop := (standsIn_nodesOf o b t u hu).bounds.2
        rw [← Tree.size_eq_leaves] at hstop
        exact .inr (Nat.le_trans hstop (standsIn_row hx).bounds.1)
      · exact ih hx hu

/-- A node is at itself, and else below it are the nodes of its parts. -/
theorem descendants_cases {s u : Site} (h : u ∈ s.descendants) :
    u = s ∨ u ∈ nodesOfRow s.offset s.before s.tree.children := by
  obtain ⟨o, b, t⟩ := s
  cases t with
  | leaf => exact absurd h List.not_mem_nil
  | node => exact List.mem_cons.mp h

theorem apart_of_mem_parts {s x u : Site} (hx : x ∈ s.parts) (hleaf : x.tree.isNode = false)
    (hu : u ∈ s.descendants) (hne : u ≠ s) : x.Apart u :=
  apart_of_mem_row hx hleaf ((descendants_cases hu).resolve_left hne)

theorem mem_leaves_of_mem_parts {s x : Site} {l : LeafView} (hx : x ∈ s.parts)
    (hl : x.leaf? = some l) : l ∈ s.leaves := by
  obtain ⟨o, b, t⟩ := s
  cases t with
  | leaf => exact absurd hx List.not_mem_nil
  | node label children =>
    obtain ⟨front, back, hrow, -⟩ := (standsIn_row hx).stretchIn
    have hleaves : leaves ⟨o, b, .node label children⟩ = front ++ x.leaves ++ back := hrow
    have hself : l ∈ x.leaves := by
      obtain ⟨o, b, t⟩ := x
      cases t with
      | leaf => exact List.mem_singleton.mpr (Option.some.inj hl).symm
      | node => exact absurd hl nofun
    rw [hleaves]
    exact List.mem_append_left _ (List.mem_append_right _ hself)

end Site

end Maml
