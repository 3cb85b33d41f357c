/-
# The nodes of one tree

`Node d` is a node number known to be inside the tree of depth `d`, so a look-up by node needs no
test.  A block of memory is a node: its *order* is its height above the leaves, and it starts at
its first leaf.

Every operation of the allocator climbs.  `Node.climb n k` lists the next `k` ancestors of `n`,
nearest first, each with the child through which the climb reaches it; the climbs are then
recursion on that list.  The main fact about it is `id_of_mem_climb`: its members are the
ancestors `NodeId.up n j`.
-/
import BuddyTree.NodeId

namespace BuddyTree

/-! ## 1. Nodes -/

/-- A node of the tree of depth `d`. -/
@[ext] structure Node (d : Nat) where
  id : Nat
  pos : 0 < id
  lt : id < 2 ^ (d + 1)
  deriving DecidableEq, Repr

namespace Node

variable {d : Nat}

/-- The node with this number, if there is one. -/
def ofId? (d id : Nat) : Option (Node d) :=
  if h : 0 < id ∧ id < 2 ^ (d + 1) then some ⟨id, h.1, h.2⟩ else none

/-- Distance from the root. -/
def level (n : Node d) : Nat :=
  NodeId.level n.id

/-- Height above the leaves: the node covers `2 ^ order` of them. -/
def order (n : Node d) : Nat :=
  d - n.level

/-- Which child of its parent the node is. -/
def side (n : Node d) : Side :=
  NodeId.side n.id

theorem level_le (n : Node d) : n.level ≤ d :=
  Nat.le_of_lt_succ (NodeId.level_lt n.pos n.lt)

/-- The leftmost leaf that the node covers. -/
def firstLeaf (n : Node d) : Fin (2 ^ d) :=
  ⟨NodeId.firstLeaf n.id d, NodeId.firstLeaf_lt n.pos n.level_le⟩

/-- The place of the node's order among all orders. -/
def orderIndex (n : Node d) : Fin (d + 1) :=
  ⟨n.order, by unfold order; omega⟩

/-- The node one level up; the root has none. -/
def parent? (n : Node d) : Option (Node d) :=
  if h : 1 < n.id then
    some ⟨NodeId.parent n.id,
      by rw [NodeId.parent, NodeId.up_eq_div]; omega,
      by have := n.lt; rw [NodeId.parent, NodeId.up_eq_div]; omega⟩
  else none

theorem id_parent? {n p : Node d} (h : n.parent? = some p) :
    p.id = NodeId.up n.id 1 ∧ 1 ≤ n.level := by
  unfold parent? at h
  split at h
  · next h1 =>
    injection h with h
    refine ⟨by rw [← h]; rfl, ?_⟩
    exact (Nat.le_log2 (Nat.ne_of_gt n.pos)).mpr h1
  · cases h

/-! ## 2. Climbing -/

/-- One step of a climb: the ancestor reached, and the child it was reached from. -/
structure Rung (d : Nat) where
  node : Node d
  child : Side
  deriving DecidableEq, Repr

/-- The next `k` ancestors of `n`, nearest first; fewer if the root comes before. -/
def climb (n : Node d) : Nat → List (Rung d)
  | 0 => []
  | k + 1 =>
    match n.parent? with
    | none => []
    | some p => ⟨p, n.side⟩ :: p.climb k

/-- **A climb meets ancestors only.** -/
theorem id_of_mem_climb {n : Node d} {k : Nat} {r : Rung d} (h : r ∈ n.climb k) :
    ∃ j, 1 ≤ j ∧ j ≤ k ∧ j ≤ n.level ∧ r.node.id = NodeId.up n.id j := by
  induction k generalizing n with
  | zero => cases h
  | succ k ih =>
    unfold climb at h
    split at h
    · cases h
    · next p hp =>
      obtain ⟨hid, hlev⟩ := id_parent? hp
      rcases List.mem_cons.mp h with rfl | h
      · exact ⟨1, Nat.le_refl 1, by omega, hlev, hid⟩
      · obtain ⟨j, h1, hk, hl, hr⟩ := ih h
        have hpl : p.level = n.level - 1 := by
          rw [level, hid]
          exact NodeId.level_up n.pos hlev
        refine ⟨1 + j, by omega, by omega, by omega, ?_⟩
        rw [hr, hid, NodeId.up_up]

end Node
end BuddyTree
