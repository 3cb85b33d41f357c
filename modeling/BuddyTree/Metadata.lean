/-
# What an allocator remembers

All state of an allocator is here: the status of every node of the tree, the leaf index, the
number of live blocks of each order, and the number of releases so far.

* `Tree d`: one status for each node of the tree of depth `d`, and the unused slot 0.
* The leaf index says for each granule which node the block starting there is; 0 is none.
* The counters are 64-bit words and wrap; the release counter only ever counts up.

The main facts: a tree reads back what was written (`Tree.get_set`), and memory that was zeroed
first holds the blank metadata whatever it held before (`ofGrants_zeroed`).
-/
import BuddyTree.Node
import BuddyTree.Source
import BuddyTree.Status

namespace BuddyTree

/-! ## 1. The tree -/

/-- The status of every node, by node number. -/
structure Tree (d : Nat) where
  slots : Vector Status (2 ^ (d + 1))
  deriving DecidableEq

namespace Tree

variable {d : Nat}

/-- The status of a node. -/
def get (t : Tree d) (n : Node d) : Status :=
  have := n.lt
  t.slots[n.id]

/-- The tree with another status for one node. -/
def set (t : Tree d) (n : Node d) (s : Status) : Tree d :=
  ⟨t.slots.set n.id s n.lt⟩

/-- The tree without any flag. -/
def blank (d : Nat) : Tree d :=
  ⟨Vector.replicate _ .clear⟩

theorem get_set (t : Tree d) (m n : Node d) (s : Status) :
    (t.set m s).get n = if m = n then s else t.get n := by
  simp only [get, set, Vector.getElem_set, Node.ext_iff]

@[simp] theorem get_set_self (t : Tree d) (n : Node d) (s : Status) : (t.set n s).get n = s := by
  rw [get_set, if_pos rfl]

theorem get_set_ne (t : Tree d) {m n : Node d} (h : m ≠ n) (s : Status) :
    (t.set m s).get n = t.get n := by
  rw [get_set, if_neg h]

@[simp] theorem get_blank (n : Node d) : (blank d).get n = .clear := by
  simp [get, blank]

end Tree

/-! ## 2. Everything together -/

/-- All state of an allocator over a tree of depth `d`. -/
structure Metadata (d : Nat) where
  tree : Tree d
  /-- For each granule the number of the block that starts there. -/
  index : Vector UInt32 (2 ^ d)
  /-- For each order the number of live blocks. -/
  live : Vector UInt64 (d + 1)
  /-- Successful releases so far. -/
  released : UInt64
  deriving DecidableEq

namespace Metadata

variable {d : Nat}

/-- Nothing allocated and nothing ever released. -/
def blank (d : Nat) : Metadata d where
  tree := .blank d
  index := Vector.replicate _ 0
  live := Vector.replicate _ 0
  released := 0

/-- The number of the block that starts at a granule; 0 is none. -/
def entry (m : Metadata d) (leaf : Fin (2 ^ d)) : UInt32 := m.index[leaf]

/-- The number of live blocks of an order. -/
def count (m : Metadata d) (order : Fin (d + 1)) : UInt64 := m.live[order]

/-- The 32-bit number in four bytes, lowest byte first. -/
def entryAt (bytes : Nat → UInt8) (leaf : Nat) : UInt32 :=
  (bytes (4 * leaf)).toUInt32 ||| (bytes (4 * leaf + 1)).toUInt32 <<< 8 |||
    (bytes (4 * leaf + 2)).toUInt32 <<< 16 ||| (bytes (4 * leaf + 3)).toUInt32 <<< 24

/-- The metadata that lies in memory for the tree and memory for the leaf index, before any
count. -/
def ofGrants (d : Nat) (tree index : Grant) : Metadata d where
  tree := ⟨Vector.ofFn fun i => ⟨tree.contents i⟩⟩
  index := Vector.ofFn fun i => entryAt index.contents i
  live := Vector.replicate _ 0
  released := 0

/-- **Zeroed memory is blank metadata,** whatever it held before. -/
theorem ofGrants_zeroed (d : Nat) (tree index : Grant) :
    ofGrants d (tree.zeroed (2 ^ (d + 1))) (index.zeroed (4 * 2 ^ d)) = blank d := by
  have htree : (Vector.ofFn fun i : Fin (2 ^ (d + 1)) =>
      (⟨(tree.zeroed (2 ^ (d + 1))).contents i⟩ : Status)) = Vector.replicate _ .clear := by
    ext i hi
    simp [Grant.zeroed_contents tree hi, Status.clear]
  have hindex : (Vector.ofFn fun i : Fin (2 ^ d) =>
      entryAt (index.zeroed (4 * 2 ^ d)).contents i) = Vector.replicate _ 0 := by
    ext i hi
    simp [entryAt, Grant.zeroed_contents index (show 4 * i < 4 * 2 ^ d by omega),
      Grant.zeroed_contents index (show 4 * i + 1 < 4 * 2 ^ d by omega),
      Grant.zeroed_contents index (show 4 * i + 2 < 4 * 2 ^ d by omega),
      Grant.zeroed_contents index (show 4 * i + 3 < 4 * 2 ^ d by omega)]
  simp only [ofGrants, blank, Tree.blank, htree, hindex]

/-! ## 3. Changes

Each change takes the metadata apart and puts it together again, so that the part that changes is
updated in place. -/

/-- Change the tree. -/
@[inline] def mapTree (f : Tree d → Tree d) (m : Metadata d) : Metadata d :=
  let ⟨tree, index, live, released⟩ := m
  ⟨f tree, index, live, released⟩

/-- Enter a new block: the index has it at its first leaf, and its order has one more. -/
def enter (n : Node d) (m : Metadata d) : Metadata d :=
  let ⟨tree, index, live, released⟩ := m
  ⟨tree, index.set n.firstLeaf (.ofNat n.id),
    live.set n.orderIndex (live[n.orderIndex] + 1), released⟩

/-- Take an entry out of the index. -/
def withdraw (leaf : Fin (2 ^ d)) (m : Metadata d) : Metadata d :=
  let ⟨tree, index, live, released⟩ := m
  ⟨tree, index.set leaf 0, live, released⟩

/-- Count a block as released. -/
def discharge (n : Node d) (m : Metadata d) : Metadata d :=
  let ⟨tree, index, live, released⟩ := m
  ⟨tree, index, live.set n.orderIndex (live[n.orderIndex] - 1), released + 1⟩

@[simp] theorem entry_blank (leaf : Fin (2 ^ d)) : (blank d).entry leaf = 0 := by
  simp [entry, blank]

@[simp] theorem count_blank (o : Fin (d + 1)) : (blank d).count o = 0 := by
  simp [count, blank]

@[simp] theorem tree_mapTree (f : Tree d → Tree d) (m : Metadata d) :
    (m.mapTree f).tree = f m.tree := rfl

@[simp] theorem entry_mapTree (f : Tree d → Tree d) (m : Metadata d) :
    (m.mapTree f).entry = m.entry := rfl

@[simp] theorem count_mapTree (f : Tree d → Tree d) (m : Metadata d) :
    (m.mapTree f).count = m.count := rfl

@[simp] theorem released_mapTree (f : Tree d → Tree d) (m : Metadata d) :
    (m.mapTree f).released = m.released := rfl

@[simp] theorem tree_enter (n : Node d) (m : Metadata d) : (m.enter n).tree = m.tree := rfl

@[simp] theorem released_enter (n : Node d) (m : Metadata d) :
    (m.enter n).released = m.released := rfl

theorem entry_enter (n : Node d) (m : Metadata d) (leaf : Fin (2 ^ d)) :
    (m.enter n).entry leaf = if n.firstLeaf = leaf then .ofNat n.id else m.entry leaf := by
  simp only [entry, enter, Fin.getElem_fin, Vector.getElem_set, Fin.ext_iff]

theorem count_enter (n : Node d) (m : Metadata d) (o : Fin (d + 1)) :
    (m.enter n).count o = if n.orderIndex = o then m.count o + 1 else m.count o := by
  simp only [count, enter, Fin.getElem_fin, Vector.getElem_set, Fin.ext_iff]
  split
  · next h => simp only [h]
  · rfl

@[simp] theorem tree_withdraw (leaf : Fin (2 ^ d)) (m : Metadata d) :
    (m.withdraw leaf).tree = m.tree := rfl

theorem entry_withdraw (leaf : Fin (2 ^ d)) (m : Metadata d) (other : Fin (2 ^ d)) :
    (m.withdraw leaf).entry other = if leaf = other then 0 else m.entry other := by
  simp only [entry, withdraw, Fin.getElem_fin, Vector.getElem_set, Fin.ext_iff]

@[simp] theorem tree_discharge (n : Node d) (m : Metadata d) :
    (m.discharge n).tree = m.tree := rfl

@[simp] theorem entry_discharge (n : Node d) (m : Metadata d) :
    (m.discharge n).entry = m.entry := rfl

@[simp] theorem released_discharge (n : Node d) (m : Metadata d) :
    (m.discharge n).released = m.released + 1 := rfl

theorem count_discharge (n : Node d) (m : Metadata d) (o : Fin (d + 1)) :
    (m.discharge n).count o = if n.orderIndex = o then m.count o - 1 else m.count o := by
  simp only [count, discharge, Fin.getElem_fin, Vector.getElem_set, Fin.ext_iff]
  split
  · next h => simp only [h]
  · rfl

end Metadata
end BuddyTree
