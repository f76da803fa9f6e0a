import Mathlib.Data.List.Basic

/-! Breadth-first order.
A queue that receives the children of each node behind all nodes that already wait serves a forest
level by level.
-/

namespace Minions.Data

variable {α : Type*} {children : α → List α}

/-- The nodes that are `n` steps below the given ones, in order. -/
def level (children : α → List α) : Nat → List α → List α
  | 0, nodes => nodes
  | n + 1, nodes => level children n (nodes.flatMap children)

/-- The first `n` levels, one behind the other. -/
def levels (children : α → List α) : Nat → List α → List α
  | 0, _ => []
  | n + 1, nodes => nodes ++ levels children n (nodes.flatMap children)

/-- The nodes that a queue serves, in order, when it is empty after fewer than `n` of them. -/
def serve (children : α → List α) : Nat → List α → Option (List α)
  | 0, _ => none
  | _ + 1, [] => some []
  | n + 1, node :: queue => (serve children n (queue ++ children node)).map (node :: ·)

/-- Serving the nodes in front puts all their children behind the others. -/
theorem serve_front (front back : List α) (n : Nat)
    : serve children (front.length + n) (front ++ back)
      = (serve children n (back ++ front.flatMap children)).map (front ++ ·) := by
  induction front generalizing back with
  | nil => simp
  | cons node rest ih =>
      have shifted : (node :: rest).length + n = rest.length + n + 1 := by
        simp only [List.length_cons]
        omega
      rw [shifted, List.cons_append, serve, List.append_assoc, ih, Option.map_map]
      simp only [List.flatMap_cons, List.append_assoc]
      rfl

/-- A forest that ends is served level by level. -/
theorem serve_levels {nodes : List α} (depth : Nat)
    (ends : level children depth nodes = []) (n : Nat)
    : serve children ((levels children depth nodes).length + n + 1) nodes
      = some (levels children depth nodes) := by
  induction depth generalizing nodes with
  | zero =>
      obtain rfl : nodes = [] := ends
      rfl
  | succ depth ih =>
      have below : level children depth (nodes.flatMap children) = [] := ends
      have step : serve children
          (nodes.length + ((levels children depth (nodes.flatMap children)).length + n + 1))
          (nodes ++ []) = some (levels children (depth + 1) nodes) := by
        rw [serve_front, List.nil_append, ih below, Option.map_some, levels]
      simpa [levels, Nat.add_assoc] using step

/-- All nodes of the queue are served. -/
theorem serve_length {nodes served : List α} {n : Nat}
    (all : serve children n nodes = some served)
    : nodes.length ≤ served.length := by
  induction n generalizing nodes served with
  | zero => cases all
  | succ n ih =>
      cases nodes with
      | nil => simp
      | cons node queue =>
          obtain ⟨later, rest, rfl⟩ := Option.map_eq_some_iff.mp all
          have shorter := ih rest
          simp only [List.length_append, List.length_cons] at shorter ⊢
          omega

/-- A level without nodes adds nothing. -/
theorem levels_of_ends {nodes : List α} (depth : Nat) (ends : level children depth nodes = [])
    : levels children (depth + 1) nodes = levels children depth nodes := by
  induction depth generalizing nodes with
  | zero =>
      obtain rfl : nodes = [] := ends
      rfl
  | succ depth ih =>
      have below : level children depth (nodes.flatMap children) = [] := ends
      rw [levels, ih below]
      rfl

/-- What holds of the first nodes, and of the children where it holds of a node, holds of all
levels.
-/
theorem forall_mem_levels {holds : α → Prop} (next : ∀ a, holds a → ∀ b ∈ children a, holds b)
    (depth : Nat) {nodes : List α} (first : ∀ a ∈ nodes, holds a)
    : ∀ a ∈ levels children depth nodes, holds a := by
  induction depth generalizing nodes with
  | zero => simp [levels]
  | succ depth ih =>
      intro a member
      rcases List.mem_append.mp member with top | below
      · exact first a top
      · refine ih ?_ a below
        intro b child
        obtain ⟨parent, inNodes, isChild⟩ := List.mem_flatMap.mp child
        exact next parent (first parent inNodes) b isChild

-----------------------------------------------------------------------------------------
-- Closed nodes
-----------------------------------------------------------------------------------------

section Pruned

/-! Below a node that is not open no node is visible. -/

variable {visible opened : α → Bool}

/-- The visible children are those of the opened nodes. -/
theorem flatMap_filter_visible
    (below : ∀ node, ∀ child ∈ children node, visible child = opened node) (nodes : List α)
    : (nodes.flatMap children).filter visible = (nodes.filter opened).flatMap children := by
  induction nodes with
  | nil => rfl
  | cons node rest ih =>
      rw [List.flatMap_cons, List.filter_append, ih]
      cases isOpen : opened node with
      | true =>
          rw [List.filter_cons_of_pos isOpen, List.flatMap_cons,
            List.filter_eq_self.mpr fun child member => (below node child member).trans isOpen]
      | false =>
          have hidden : (children node).filter visible = [] :=
            List.filter_eq_nil_iff.mpr fun child member => by simp [below node child member, isOpen]
          rw [List.filter_cons_of_neg (by simp [isOpen]), hidden, List.nil_append]

/-- The opened children are those of the opened nodes. -/
theorem flatMap_filter_opened
    (below : ∀ node, ∀ child ∈ children node, visible child = opened node)
    (seen : ∀ node, opened node → visible node) (nodes : List α)
    : (nodes.flatMap children).filter opened
      = (nodes.filter opened).flatMap fun node => (children node).filter opened := by
  have both : (nodes.flatMap children).filter opened
      = ((nodes.flatMap children).filter visible).filter opened := by
    rw [List.filter_filter]
    apply List.filter_congr
    intro node _
    cases isOpen : opened node <;> simp [seen node, isOpen]
  rw [both, flatMap_filter_visible below, List.filter_flatMap]

/-- A level of the opened nodes is the opened part of the level. -/
theorem level_opened
    (below : ∀ node, ∀ child ∈ children node, visible child = opened node)
    (seen : ∀ node, opened node → visible node) (depth : Nat) (nodes : List α)
    : level (fun node => (children node).filter opened) depth (nodes.filter opened)
      = (level children depth nodes).filter opened := by
  induction depth generalizing nodes with
  | zero => rfl
  | succ depth ih => rw [level, level, ← flatMap_filter_opened below seen, ih]

/-- The levels below opened nodes are the visible part of the levels. -/
theorem levels_opened
    (below : ∀ node, ∀ child ∈ children node, visible child = opened node)
    (seen : ∀ node, opened node → visible node) (depth : Nat) (nodes : List α)
    : levels (fun node => (children node).filter opened) depth (nodes.filter opened)
      = (levels children depth nodes).filter opened := by
  induction depth generalizing nodes with
  | zero => rfl
  | succ depth ih =>
      rw [levels, levels, List.filter_append, ← flatMap_filter_opened below seen, ih]

/-- The visible nodes are the visible ones of the first level, and the children of the open
nodes.
-/
theorem levels_visible
    (below : ∀ node, ∀ child ∈ children node, visible child = opened node)
    (seen : ∀ node, opened node → visible node) (depth : Nat) (nodes : List α)
    : (levels children (depth + 1) nodes).filter visible
      = nodes.filter visible
        ++ (levels (fun node => (children node).filter opened) depth
          (nodes.filter opened)).flatMap children := by
  induction depth generalizing nodes with
  | zero => simp [levels]
  | succ depth ih =>
      rw [levels, List.filter_append, ih, flatMap_filter_visible below,
        flatMap_filter_opened below seen, levels, List.flatMap_append]

end Pruned

end Minions.Data
