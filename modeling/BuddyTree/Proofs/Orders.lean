/-
# The level for a size

An allocation rounds its size up twice, to granules and then to a power of two of them, and scans
the level of the blocks that have so many.  That level can also be found by rounding down, without
any granules: the managed memory has room for `totalMemory / size` requests of that size, and the
level is the deepest one with no more blocks than that, or the leaves if they come first.

Both agree because rounding is pushed to one side of the same inequality: a level `l` has at most
`totalMemory / size` blocks exactly if one of its blocks, of order `depth - l`, holds the size.

The main facts: `Geometry.le_levelFor_iff` (that inequality), `Geometry.depth_sub_of_orderFor?` (the
two formulas), `Region.allocScans_of_orderFor?` (the level is the one that an allocation scans), and
`order_selection`.
-/
import BuddyTree.Region

namespace BuddyTree

namespace Geometry

variable {g : Geometry} {size order : Nat}

/-! ## 1. The order -/

/-- In a shape that exists a granule has bytes. -/
theorem minSize_pos {region : Nat} {config : Config} (h : ofRegion region config = .ok g) :
    0 < g.minSize := by
  obtain ⟨hpow, -, -, rfl⟩ := ofRegion_eq_ok_iff.mp h
  obtain ⟨e, he⟩ := isPowerOfTwo_iff.mp hpow
  exact he ▸ Nat.two_pow_pos e

/-- There are blocks of this order, and one of them has room for `size` bytes. -/
def Holds (g : Geometry) (order size : Nat) : Prop :=
  ∃ bytes, g.blockSize? order = some bytes ∧ size ≤ bytes

theorem holds_iff : g.Holds order size ↔ order ≤ g.maxOrder ∧ size ≤ 2 ^ order * g.minSize := by
  unfold Holds blockSize?
  split
  · next h => exact iff_of_false nofun fun hle => Nat.not_le.mpr h hle.1
  · next h => simp [Nat.not_lt.mp h]

theorem orderFor?_eq_none_iff : g.orderFor? size = none ↔ g.maxSize < size := by
  unfold orderFor?
  split
  · next h => exact iff_of_true rfl h
  · next h => exact iff_of_false nofun h

/-- **The least order that holds the size.** -/
theorem holds_of_orderFor? (hmin : 0 < g.minSize) (h : g.orderFor? size = some order) :
    g.Holds order size ∧ ∀ k, g.Holds k size → order ≤ k := by
  obtain ⟨-, hfits⟩ := (orderFor?_eq_some_iff hmin).mp h
  refine ⟨holds_iff.mpr ⟨orderFor?_le hmin h, (hfits order).mp (Nat.le_refl _)⟩, fun k hk => ?_⟩
  exact (hfits k).mpr (holds_iff.mp hk).2

/-- **More bytes** need no lower order. -/
theorem orderFor?_mono (hmin : 0 < g.minSize) {less : Nat} (hle : less ≤ size)
    (h : g.orderFor? size = some order) : ∃ k, g.orderFor? less = some k ∧ k ≤ order := by
  obtain ⟨hmax, hfits⟩ := (orderFor?_eq_some_iff hmin).mp h
  cases hless : g.orderFor? less with
  | none =>
    have := orderFor?_eq_none_iff.mp hless
    omega
  | some k =>
    refine ⟨k, rfl, (((orderFor?_eq_some_iff hmin).mp hless).2 order).mpr ?_⟩
    exact Nat.le_trans hle ((hfits order).mp (Nat.le_refl _))

/-- Every block has a granule, and so room for nothing as well as for a granule. -/
theorem orderFor?_eq_zero (hmin : 0 < g.minSize) (hsize : size ≤ g.minSize) :
    g.orderFor? size = some 0 := by
  have hfits : ∀ k, size ≤ 2 ^ k * g.minSize := fun k =>
    Nat.le_trans hsize (Nat.le_mul_of_pos_left _ (Nat.two_pow_pos k))
  exact (orderFor?_eq_some_iff hmin).mpr
    ⟨hfits g.maxOrder, fun k => iff_of_true (Nat.zero_le k) (hfits k)⟩

/-! ## 2. The level -/

/-- The deepest level that has no more blocks than there is room for requests of this size. -/
def levelFor (g : Geometry) (size : Nat) : Nat :=
  min g.depth (g.totalMemory / size).log2

theorem levelFor_le (g : Geometry) (size : Nat) : g.levelFor size ≤ g.depth :=
  Nat.min_le_left _ _

/-- **The same inequality.**  Levels that are not below `levelFor size` are those whose blocks hold
the size. -/
theorem le_levelFor_iff (hpos : 1 ≤ size) (hle : size ≤ g.totalMemory) {l : Nat}
    (hl : l ≤ g.depth) : l ≤ g.levelFor size ↔ size ≤ 2 ^ (g.depth - l) * g.minSize := by
  have hroom : g.totalMemory / size ≠ 0 := Nat.ne_of_gt (Nat.div_pos hle hpos)
  have htotal : g.totalMemory = 2 ^ l * (2 ^ (g.depth - l) * g.minSize) := by
    rw [← Nat.mul_assoc, ← Nat.pow_add, Nat.add_sub_cancel' hl, totalMemory]
  calc l ≤ g.levelFor size
      ↔ l ≤ (g.totalMemory / size).log2 := by rw [levelFor, Nat.le_min, and_iff_right hl]
    _ ↔ 2 ^ l ≤ g.totalMemory / size := Nat.le_log2 hroom
    _ ↔ 2 ^ l * size ≤ 2 ^ l * (2 ^ (g.depth - l) * g.minSize) := by
        rw [Nat.le_div_iff_mul_le hpos, htotal]
    _ ↔ size ≤ 2 ^ (g.depth - l) * g.minSize := Nat.mul_le_mul_left_iff (Nat.two_pow_pos l)

theorem maxSize_le_totalMemory (g : Geometry) : g.maxSize ≤ g.totalMemory :=
  Nat.mul_le_mul_right _ (Nat.pow_le_pow_right Nat.two_pos (Nat.sub_le _ _))

/-- **Rounding up and rounding down agree.** -/
theorem depth_sub_of_orderFor? (hmin : 0 < g.minSize) (hpos : 1 ≤ size)
    (h : g.orderFor? size = some order) : g.depth - order = g.levelFor size := by
  obtain ⟨hmax, hfits⟩ := (orderFor?_eq_some_iff hmin).mp h
  have horder : order ≤ g.depth := Nat.le_trans (orderFor?_le hmin h) (Nat.sub_le _ _)
  have hlevel := g.levelFor_le size
  have hiff : ∀ l, l ≤ g.depth → (l ≤ g.levelFor size ↔ order ≤ g.depth - l) := fun l hl => by
    rw [le_levelFor_iff hpos (Nat.le_trans hmax g.maxSize_le_totalMemory) hl, hfits]
  apply Nat.le_antisymm
  · exact (hiff _ (Nat.sub_le _ _)).mpr (by omega)
  · have := (hiff _ hlevel).mp (Nat.le_refl _)
    omega

end Geometry

/-! ## 3. The level that is scanned -/

namespace Region

variable {r : Region} {size order level : Nat}

/-- Allocating `size` bytes means to scan this level for a block of this order, pass after pass,
until one of them finds a node or nothing was released meanwhile. -/
def AllocScans (r : Region) (size order level : Nat) (hlevel : level ≤ r.depth) : Prop :=
  ∀ {ε : Type} (obs : Observer r.depth ε) (w : World r.depth ε),
    r.alloc obs size w =
      match passLevel obs r.geometry.baseLevel level hlevel w with
      | (some n, w') =>
        (.ok (r.addressOf n), obs.react (.claimed n.id order n.firstLeaf) (w'.mapStore (.enter n)))
      | (none, w') =>
        if w'.store.released = w.store.released then
          (.error (.outOfMemory size), obs.react (.exhausted order) w')
        else r.alloc obs size (obs.react (.rescanning order) w')

/-- **The level of the order** is the one that is scanned. -/
theorem allocScans_of_orderFor? (ho : r.geometry.orderFor? size = some order) :
    r.AllocScans size order (r.depth - order) (Nat.sub_le _ _) := by
  intro ε obs w
  have halloc : ∀ v, r.alloc obs size v =
      match search obs r.geometry.baseLevel order v with
      | (none, v') => (.error (.outOfMemory size), v')
      | (some n, v') => (.ok (r.addressOf n),
          obs.react (.claimed n.id order n.firstLeaf) (v'.mapStore (.enter n))) := fun v => by
    unfold alloc
    simp only [ho]
    rcases search obs r.geometry.baseLevel order v with ⟨_ | n, v'⟩ <;> rfl
  rw [halloc w, search_eq]
  rcases passLevel obs r.geometry.baseLevel (r.depth - order) (Nat.sub_le _ _) w with ⟨_ | n, w'⟩
  · by_cases hsame : w'.store.released = w.store.released
    · simp only [if_pos hsame]
    · simp only [if_neg hsame, halloc]
  · rfl

theorem AllocScans.of_level_eq {level' : Nat} {hlevel : level ≤ r.depth}
    (h : r.AllocScans size order level hlevel) (he : level = level') :
    r.AllocScans size order level' (he ▸ hlevel) := by
  subst he
  exact h

end Region

/-! ## 4. Both formulas -/

/-- **The order and the level for a size,** in every shape that exists.  There is an order exactly up
to the size of the largest block; it is the least one whose blocks hold the size, it does not go
down when the size goes up, and nothing is served like a granule.  For at least one byte the level
below it, which is the one that is scanned, is what rounding down gives. -/
theorem order_selection {region : Nat} {config : Config} {g : Geometry}
    (h : Geometry.ofRegion region config = .ok g) :
    (∀ size, g.orderFor? size = none ↔ g.maxSize < size) ∧
    (∀ size order, g.orderFor? size = some order →
      order ≤ g.maxOrder ∧ g.Holds order size ∧ (∀ k, g.Holds k size → order ≤ k) ∧
      (∀ less ≤ size, ∃ k, g.orderFor? less = some k ∧ k ≤ order) ∧
      (1 ≤ size → g.depth - order = min g.depth (g.totalMemory / size).log2 ∧
        ∀ base, Region.AllocScans ⟨base, g⟩ size order (g.levelFor size) (g.levelFor_le size))) ∧
    g.orderFor? 0 = g.orderFor? g.minSize := by
  have hmin := Geometry.minSize_pos h
  refine ⟨fun size => Geometry.orderFor?_eq_none_iff, fun size order ho => ?_, ?_⟩
  · obtain ⟨hholds, hleast⟩ := Geometry.holds_of_orderFor? hmin ho
    refine ⟨Geometry.orderFor?_le hmin ho, hholds, hleast,
      fun less hle => Geometry.orderFor?_mono hmin hle ho, fun hpos => ?_⟩
    have hlevel : g.depth - order = g.levelFor size :=
      Geometry.depth_sub_of_orderFor? hmin hpos ho
    exact ⟨hlevel, fun base =>
      Region.AllocScans.of_level_eq (Region.allocScans_of_orderFor? ho) hlevel⟩
  · rw [Geometry.orderFor?_eq_zero hmin (Nat.zero_le _),
      Geometry.orderFor?_eq_zero hmin (Nat.le_refl _)]

/-- Blocks of four granules of sixteen bytes are full with 64 bytes.  One byte more needs blocks of
twice that size, one level up, and 128 bytes are the most there is room for. -/
theorem order_selection_of_boundary :
    let g : Geometry := ⟨16, 5, 2⟩
    Geometry.ofRegion 519 ⟨16, 3⟩ = .ok g ∧ g.orderFor? 129 = none ∧
      g.orderFor? 64 = some 2 ∧ 5 - 2 = min 5 (512 / 64 : Nat).log2 ∧
      g.orderFor? 65 = some 3 ∧ 5 - 3 = min 5 (512 / 65 : Nat).log2 ∧
      ∀ k, g.Holds k 65 → 3 ≤ k := by
  intro g
  have hg : Geometry.ofRegion 519 ⟨16, 3⟩ = .ok g := rfl
  obtain ⟨hnone, hsome, -⟩ := order_selection hg
  have hfull : g.orderFor? 64 = some 2 := by decide
  have hmore : g.orderFor? 65 = some 3 := by decide
  obtain ⟨-, -, -, -, hlevel⟩ := hsome 64 2 hfull
  obtain ⟨-, -, hleast, -, hlevel'⟩ := hsome 65 3 hmore
  exact ⟨hg, (hnone 129).mpr (by decide), hfull, (hlevel (by decide)).1, hmore,
    (hlevel' (by decide)).1, hleast⟩

end BuddyTree
