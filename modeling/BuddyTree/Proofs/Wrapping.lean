/-
# Node numbers in words of 64 bits

Navigation in the tree is exact arithmetic on node numbers.  In words of 64 bits, where every sum,
difference and shift wraps, the same formulas give the same numbers: node numbers have 32 bits at
most, and no formula leaves the 64 bits on the way.

The main facts: the steps of a skip and of the way to the first leaf fit into a word
(`Node.skipFits`, `Node.leafFits`), so that wrapping makes no difference to either
(`Node.toNat_skipPast`, `Node.toNat_firstLeaf`).
-/
import BuddyTree.Proofs.Ancestry

namespace BuddyTree

namespace NodeId

/-! ## 1. The formulas in words

Each is the formula for exact numbers, with the operations of words in the place of theirs. -/

namespace Wrapping

def level (n : UInt64) : UInt64 := n.log2

def leftmost (n depth : UInt64) : UInt64 := n <<< (depth - level n)

def firstLeaf (n depth : UInt64) : UInt64 := leftmost n depth - 1 <<< depth

def skipPast (n f : UInt64) : UInt64 := (f + 1) <<< (level n - level f)

@[simp] theorem toNat_level (n : UInt64) : (level n).toNat = NodeId.level n.toNat :=
  rfl

/-- A shift by less than the width that loses no bit is exact. -/
theorem toNat_shiftLeft_of_lt {a b : UInt64} (hb : b.toNat < 64)
    (h : a.toNat <<< b.toNat < addressLimit) : (a <<< b).toNat = a.toNat <<< b.toNat := by
  rw [UInt64.toNat_shiftLeft, Nat.mod_eq_of_lt hb]
  exact Nat.mod_eq_of_lt h

/-- A difference that does not go below zero is exact. -/
theorem toNat_sub_of_le {a b : UInt64} (h : b.toNat ≤ a.toNat) :
    (a - b).toNat = a.toNat - b.toNat :=
  UInt64.toNat_sub_of_le a b (UInt64.le_iff_toNat_le.mpr h)

end Wrapping

/-! ## 2. When they are exact -/

/-- Each step of `skipPast n f` fits into a word: the successor, the difference of the levels, the
distance of the shift and its result. -/
structure SkipFits (n f : Nat) : Prop where
  succ_lt : f + 1 < addressLimit
  level_le : level f ≤ level n
  shift_lt : level n - level f < 64
  skip_lt : skipPast n f < addressLimit

/-- Each step of `firstLeaf n depth` fits into a word: both shifts, and the difference of their
results. -/
structure LeafFits (n depth : Nat) : Prop where
  level_le : level n ≤ depth
  shift_lt : depth < 64
  leftmost_lt : leftmost n depth < addressLimit
  start_le : levelStart depth ≤ leftmost n depth

variable {n f depth : UInt64}

theorem SkipFits.toNat_skipPast (h : SkipFits n.toNat f.toNat) :
    (Wrapping.skipPast n f).toNat = skipPast n.toNat f.toNat := by
  have hsucc : (f + 1).toNat = f.toNat + 1 := by
    rw [UInt64.toNat_add]
    exact Nat.mod_eq_of_lt h.succ_lt
  have hlevel := h.level_le
  rw [← Wrapping.toNat_level, ← Wrapping.toNat_level] at hlevel
  have hshift : (Wrapping.level n - Wrapping.level f).toNat = level n.toNat - level f.toNat := by
    rw [Wrapping.toNat_sub_of_le hlevel, Wrapping.toNat_level, Wrapping.toNat_level]
  have hskip := h.skip_lt
  rw [skipPast, ← hsucc, ← hshift] at hskip ⊢
  exact Wrapping.toNat_shiftLeft_of_lt (hshift ▸ h.shift_lt) hskip

theorem LeafFits.toNat_leftmost (h : LeafFits n.toNat depth.toNat) :
    (Wrapping.leftmost n depth).toNat = leftmost n.toNat depth.toNat := by
  have hlevel := h.level_le
  rw [← Wrapping.toNat_level] at hlevel
  have hshift : (depth - Wrapping.level n).toNat = depth.toNat - level n.toNat := by
    rw [Wrapping.toNat_sub_of_le hlevel, Wrapping.toNat_level]
  have hlt := h.leftmost_lt
  rw [leftmost, ← hshift] at hlt ⊢
  refine Wrapping.toNat_shiftLeft_of_lt ?_ hlt
  rw [hshift]
  exact Nat.lt_of_le_of_lt (Nat.sub_le _ _) h.shift_lt

theorem LeafFits.toNat_firstLeaf (h : LeafFits n.toNat depth.toNat) :
    (Wrapping.firstLeaf n depth).toNat = firstLeaf n.toNat depth.toNat := by
  have hstart : ((1 : UInt64) <<< depth).toNat = levelStart depth.toNat :=
    Wrapping.toNat_shiftLeft_of_lt h.shift_lt (Nat.lt_of_le_of_lt h.start_le h.leftmost_lt)
  rw [Wrapping.firstLeaf, Wrapping.toNat_sub_of_le, hstart, h.toNat_leftmost, firstLeaf]
  rw [hstart, h.toNat_leftmost]
  exact h.start_le

end NodeId

/-! ## 3. The nodes of a tree -/

namespace Node

variable {d : Nat} {n f : Node d}

/-- The number of the node in a word. -/
def word (n : Node d) : UInt64 := .ofNat n.id

theorem id_lt (hd : d ≤ maxDepth) (n : Node d) : n.id < 2 ^ (32 : Nat) :=
  Nat.lt_of_lt_of_le n.lt (Nat.pow_le_pow_right Nat.two_pos (Nat.succ_le_succ hd))

theorem toNat_word (hd : d ≤ maxDepth) (n : Node d) : n.word.toNat = n.id :=
  UInt64.toNat_ofNat_of_lt' (Nat.lt_trans (n.id_lt hd) (by decide))

theorem skipPast_le (h : n.Within f) : NodeId.skipPast n.id f.id ≤ 2 ^ (n.level + 1) := by
  obtain ⟨-, hup⟩ := within_iff.mp h
  rw [← hup]
  exact NodeId.skipPast_le n.pos (Nat.sub_le _ _)

/-- **A skip fits.** -/
theorem skipFits (hd : d ≤ maxDepth) (h : n.Within f) : NodeId.SkipFits n.id f.id where
  succ_lt := Nat.lt_of_le_of_lt (f.id_lt hd) (by decide)
  level_le := h.level_le
  shift_lt := by
    have hlevel : n.level ≤ 31 := Nat.le_trans n.level_le hd
    exact Nat.lt_of_le_of_lt (Nat.sub_le n.level f.level) (Nat.lt_of_le_of_lt hlevel (by decide))
  skip_lt := by
    have hend : 2 ^ (n.level + 1) ≤ 2 ^ (32 : Nat) :=
      Nat.pow_le_pow_right Nat.two_pos (Nat.succ_le_succ (Nat.le_trans n.level_le hd))
    exact Nat.lt_of_le_of_lt (Nat.le_trans (skipPast_le h) hend) (by decide)

/-- **The way to the first leaf fits.** -/
theorem leafFits (hd : d ≤ maxDepth) (n : Node d) : NodeId.LeafFits n.id d where
  level_le := n.level_le
  shift_lt := Nat.lt_of_le_of_lt hd (by decide)
  leftmost_lt := by
    have hend : 2 ^ (d + 1) ≤ 2 ^ (32 : Nat) :=
      Nat.pow_le_pow_right Nat.two_pos (Nat.succ_le_succ hd)
    exact Nat.lt_trans (Nat.lt_of_lt_of_le (NodeId.leftmost_bounds n.pos n.level_le).2 hend)
      (by decide)
  start_le := by
    rw [NodeId.levelStart_eq]
    exact (NodeId.leftmost_bounds n.pos n.level_le).1

theorem toNat_skipPast (hd : d ≤ maxDepth) (h : n.Within f) :
    (NodeId.Wrapping.skipPast n.word f.word).toNat = NodeId.skipPast n.id f.id := by
  have hfits := skipFits hd h
  rw [← n.toNat_word hd, ← f.toNat_word hd] at hfits ⊢
  exact hfits.toNat_skipPast

theorem toNat_firstLeaf (hd : d ≤ maxDepth) (n : Node d) :
    (NodeId.Wrapping.firstLeaf n.word (.ofNat d)).toNat = n.firstLeaf := by
  have hdepth : (UInt64.ofNat d).toNat = d :=
    UInt64.toNat_ofNat_of_lt' (Nat.lt_of_le_of_lt hd (by decide))
  have hfits : NodeId.LeafFits n.word.toNat (UInt64.ofNat d).toNat := by
    rw [n.toNat_word hd, hdepth]
    exact n.leafFits hd
  rw [hfits.toNat_firstLeaf, n.toNat_word hd, hdepth, firstLeaf]

end Node
end BuddyTree
