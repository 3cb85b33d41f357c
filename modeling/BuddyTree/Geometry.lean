/-
# The shape of a region

A region is cut into *granules*, the smallest blocks.  The allocator manages the largest power of
two of granules that fits, as the leaves of a binary tree of that *depth*; what is left over at
the end is not managed.  Blocks are nodes of the tree at or below the *base level*: a block of
order `o` has `2 ^ o` granules, and no order is larger than `maxOrder`.

The shape is computed from sizes alone, so it can be used to plan the memory for the tree and the
leaf index before there is any.

The main facts: `ofRegion_eq_ok_iff` says exactly which sizes have a shape and which shape it is,
and `orderFor?_eq_some_iff` that the order for a size is the least one whose block holds it.
-/
import BuddyTree.Word
import BuddyTree.Failure

namespace BuddyTree

/-! ## 1. Tunables -/

/-- What the owner of a region may choose. -/
structure Config where
  /-- Bytes in a granule: a power of two. -/
  minSize : Nat := 4096
  /-- The largest block has `2 ^ maxOrder` granules, or the whole region if that is less. -/
  maxOrder : Nat := 9
  deriving DecidableEq, Repr

/-- The deepest tree: node numbers are stored in 32 bits, and the last one of a tree of depth `d`
is `2 ^ (d + 1) - 1`. -/
def maxDepth : Nat := 31

/-! ## 2. Shape -/

/-- The shape of the tree over a region. -/
structure Geometry where
  /-- Bytes in a granule. -/
  minSize : Nat
  /-- The level of the leaves. -/
  depth : Nat
  /-- The level of the largest blocks; nodes above it are never used. -/
  baseLevel : Nat
  deriving DecidableEq, Repr

namespace Geometry

/-- The shape of a region of `size` bytes. -/
def ofRegion (size : Nat) (config : Config) : Except InitError Geometry :=
  if !isPowerOfTwo config.minSize then .error (.badGranule config.minSize)
  else if size < config.minSize then .error (.tooSmall size config.minSize)
  else
    let depth := (size / config.minSize).log2
    if depth > maxDepth then .error (.tooLarge depth)
    else .ok ⟨config.minSize, depth, depth - config.maxOrder⟩

variable (g : Geometry)

/-- The order of the largest blocks. -/
def maxOrder : Nat := g.depth - g.baseLevel

/-- Bytes in the largest block. -/
def maxSize : Nat := 2 ^ g.maxOrder * g.minSize

/-- Bytes that the tree covers. -/
def totalMemory : Nat := 2 ^ g.depth * g.minSize

/-- The number of granules, and of entries in the leaf index. -/
def leaves : Nat := 2 ^ g.depth

/-- The number of slots in the tree, the unused slot 0 included. -/
def treeNodes : Nat := 2 ^ (g.depth + 1)

/-- The memory for the tree: a byte for each slot. -/
def treeBytes : Nat := g.treeNodes

/-- The memory for the leaf index: a 32-bit node number for each granule. -/
def indexBytes : Nat := 4 * g.leaves

/-- Bytes in a block of this order, if blocks of this order exist. -/
def blockSize? (order : Nat) : Option Nat :=
  if order > g.maxOrder then none else some (2 ^ order * g.minSize)

/-- How many blocks of this order fit the empty region. -/
def totalBlocks? (order : Nat) : Option Nat :=
  (g.blockSize? order).map (g.totalMemory / ·)

/-- The granules that `size` bytes need; nothing needs one, as a single byte does. -/
def granulesFor (size : Nat) : Nat :=
  max 1 ((size + (g.minSize - 1)) / g.minSize)

/-- The order of the smallest block that holds `size` bytes, if one does. -/
def orderFor? (size : Nat) : Option Nat :=
  if size > g.maxSize then none else some (ceilLog2 (g.granulesFor size))

/-! ## 3. Which sizes have a shape -/

variable {g}

/-- **The shapes that exist.**  Granules are a power of two, at least one fits, and the node
numbers stay within 32 bits; the depth is then the largest that fits. -/
theorem ofRegion_eq_ok_iff {size : Nat} {config : Config} :
    ofRegion size config = .ok g ↔
      isPowerOfTwo config.minSize = true ∧ config.minSize ≤ size ∧
        (size / config.minSize).log2 ≤ maxDepth ∧
        g = ⟨config.minSize, (size / config.minSize).log2,
          (size / config.minSize).log2 - config.maxOrder⟩ := by
  unfold ofRegion
  split
  · next h => simp_all
  · next h =>
    split
    · next h2 => simp; omega
    · next h2 =>
      dsimp only
      split
      · next h3 => simp; omega
      · next h3 =>
        simp only [Except.ok.injEq]
        simp only [Bool.not_eq_true', Bool.not_eq_false] at h
        exact ⟨fun e => ⟨h, by omega, by omega, e.symm⟩, fun e => e.2.2.2.symm⟩

/-! ## 4. The order for a size -/

/-- The granules for a size are enough exactly if there is one and together they hold it. -/
theorem granulesFor_le_iff (hmin : 0 < g.minSize) {size k : Nat} :
    g.granulesFor size ≤ k ↔ 1 ≤ k ∧ size ≤ k * g.minSize := by
  have key : (size + (g.minSize - 1)) / g.minSize ≤ k ↔ size ≤ k * g.minSize := by
    rw [← Nat.lt_succ_iff, Nat.div_lt_iff_lt_mul hmin, Nat.succ_mul]
    omega
  rw [granulesFor, Nat.max_le, key]

/-- **The least order that holds the size.**  It exists up to the largest block, and a block of
order `k` holds the size exactly from that order on. -/
theorem orderFor?_eq_some_iff (hmin : 0 < g.minSize) {size o : Nat} :
    g.orderFor? size = some o ↔
      size ≤ g.maxSize ∧ ∀ k, o ≤ k ↔ size ≤ 2 ^ k * g.minSize := by
  have fits : ∀ k, ceilLog2 (g.granulesFor size) ≤ k ↔ size ≤ 2 ^ k * g.minSize := by
    intro k
    rw [ceilLog2_le_iff, granulesFor_le_iff hmin]
    have := Nat.two_pow_pos k
    omega
  unfold orderFor?
  split
  · next h =>
    constructor
    · intro e; cases e
    · intro e; omega
  · next h =>
    simp only [Option.some.injEq]
    constructor
    · rintro rfl
      exact ⟨by omega, fits⟩
    · rintro ⟨-, e⟩
      have h1 := (fits o).mpr ((e o).mp (Nat.le_refl o))
      have h2 := (e _).mpr ((fits _).mp (Nat.le_refl _))
      omega

theorem orderFor?_le {size o : Nat} (hmin : 0 < g.minSize) (h : g.orderFor? size = some o) :
    o ≤ g.maxOrder := by
  obtain ⟨h1, h2⟩ := (orderFor?_eq_some_iff hmin).mp h
  exact (h2 _).mpr h1

end Geometry
end BuddyTree
