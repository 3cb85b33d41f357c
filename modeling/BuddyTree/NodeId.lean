/-
# Node numbers of the implicit binary tree

The nodes of a complete binary tree are numbered from 1 at the root, level by level and left to
right: the children of `n` are `2n` and `2n + 1`.  All navigation is arithmetic on that number.
Levels grow towards the leaves, which sit at level `depth`.

The main facts: going up `k` levels divides by `2 ^ k` and lowers the level by `k` (`level_up`),
and the node to resume a scan at lies to the right of the one that failed, within one past the
end of its level (`lt_skipPast`, `skipPast_le`).
-/
import BuddyTree.PowerOfTwo

namespace BuddyTree

/-- The two children of a node. -/
inductive Side where
  | left
  | right
  deriving DecidableEq, Repr

/-- The other child of the same parent. -/
def Side.other : Side → Side
  | left => right
  | right => left

theorem Side.other_ne (s : Side) : s.other ≠ s := by
  cases s <;> decide

namespace NodeId

/-! ## 1. Navigation -/

/-- Distance from the root. -/
def level (n : Nat) : Nat :=
  n.log2

/-- The ancestor `k` levels above `n`. -/
def up (n : Nat) (k : Nat) : Nat :=
  n >>> k

/-- One level up; the root has the unused number 0 there. -/
def parent (n : Nat) : Nat :=
  up n 1

/-- The left one of the two children. -/
def leftChild (n : Nat) : Nat :=
  n <<< 1

/-- Which child of its parent `n` is: even numbers are left children. -/
def side (n : Nat) : Side :=
  if n % 2 = 0 then .left else .right

/-- The node itself, its parent, and so on to the root. -/
def lineage (n : Nat) : List Nat :=
  (List.range (level n + 1)).map (up n)

/-- The first node of a level. -/
def levelStart (l : Nat) : Nat :=
  1 <<< l

/-- The leftmost leaf below `n` when the leaves sit at `depth`. -/
def leftmost (n : Nat) (depth : Nat) : Nat :=
  n <<< (depth - level n)

/-- The same leaf, counted from 0 at the left end of the leaves. -/
def firstLeaf (n : Nat) (depth : Nat) : Nat :=
  leftmost n depth - levelStart depth

/-- Where a scan of `n`'s level goes on after a claim of `n` failed at `f`, which is `n` or an
ancestor of it: the first node of that level to the right of the subtree below `f`. -/
def skipPast (n f : Nat) : Nat :=
  (f + 1) <<< (level n - level f)

/-! ## 2. Levels -/

theorem levelStart_eq (l : Nat) : levelStart l = 2 ^ l :=
  Nat.one_shiftLeft l

theorem up_eq_div (n : Nat) (k : Nat) : up n k = n / 2 ^ k :=
  Nat.shiftRight_eq_div_pow n k

@[simp] theorem up_zero (n : Nat) : up n 0 = n := by
  simp [up_eq_div]

theorem up_up (n : Nat) (j k : Nat) : up (up n j) k = up n (j + k) := by
  simp only [up_eq_div, Nat.div_div_eq_div_mul, Nat.pow_add]

/-- A positive number is between the first of its level and the first of the next. -/
theorem level_bounds {n : Nat} (h : 0 < n) : 2 ^ level n ≤ n ∧ n < 2 ^ (level n + 1) :=
  ⟨Nat.log2_self_le (Nat.ne_of_gt h), Nat.lt_log2_self⟩

theorem level_eq_iff {n : Nat} (h : 0 < n) {l : Nat} :
    level n = l ↔ 2 ^ l ≤ n ∧ n < 2 ^ (l + 1) :=
  Nat.log2_eq_iff (Nat.ne_of_gt h)

theorem level_lt {n : Nat} (h : 0 < n) {l : Nat} (hn : n < 2 ^ l) : level n < l :=
  (Nat.log2_lt (Nat.ne_of_gt h)).mpr hn

/-- No ancestor of a node at or below the root is 0. -/
theorem up_pos {n : Nat} (h : 0 < n) {k : Nat} (hk : k ≤ level n) : 0 < up n k := by
  rw [up_eq_div]
  refine Nat.div_pos (Nat.le_trans (Nat.pow_le_pow_right (by omega) hk) ?_) (Nat.two_pow_pos k)
  exact (level_bounds h).1

theorem level_up {n : Nat} (h : 0 < n) {k : Nat} (hk : k ≤ level n) :
    level (up n k) = level n - k := by
  obtain ⟨lo, hi⟩ := level_bounds h
  have split : level n = (level n - k) + k := by omega
  rw [level_eq_iff (up_pos h hk), up_eq_div, Nat.le_div_iff_mul_le (Nat.two_pow_pos k),
    Nat.div_lt_iff_lt_mul (Nat.two_pow_pos k), ← Nat.pow_add, ← Nat.pow_add, ← split,
    show level n - k + 1 + k = level n + 1 by omega]
  exact ⟨lo, hi⟩

/-! ## 3. Leaves -/

/-- A node above the leaves has its leftmost leaf among them. -/
theorem leftmost_bounds {n : Nat} (h : 0 < n) {d : Nat} (hd : level n ≤ d) :
    2 ^ d ≤ leftmost n d ∧ leftmost n d < 2 ^ (d + 1) := by
  obtain ⟨lo, hi⟩ := level_bounds h
  rw [leftmost, Nat.shiftLeft_eq]
  constructor
  · calc 2 ^ d = 2 ^ level n * 2 ^ (d - level n) := by rw [← Nat.pow_add]; congr 1; omega
      _ ≤ n * 2 ^ (d - level n) := Nat.mul_le_mul_right _ lo
  · calc n * 2 ^ (d - level n) < 2 ^ (level n + 1) * 2 ^ (d - level n) :=
        Nat.mul_lt_mul_of_pos_right hi (Nat.two_pow_pos _)
      _ = 2 ^ (d + 1) := by rw [← Nat.pow_add]; congr 1; omega

theorem firstLeaf_lt {n : Nat} (h : 0 < n) {d : Nat} (hd : level n ≤ d) :
    firstLeaf n d < 2 ^ d := by
  obtain ⟨lo, hi⟩ := leftmost_bounds h hd
  rw [firstLeaf, levelStart_eq]
  have := Nat.pow_succ 2 d
  omega

/-! ## 4. Resuming a scan -/

/-- At an ancestor `k` levels up, the skip rounds `n` up to the next multiple of `2 ^ k`. -/
theorem skipPast_up {n : Nat} (h : 0 < n) {k : Nat} (hk : k ≤ level n) :
    skipPast n (up n k) = (n / 2 ^ k + 1) * 2 ^ k := by
  rw [skipPast, level_up h hk, Nat.shiftLeft_eq, up_eq_div]
  congr 2
  omega

/-- **The scan moves on.**  The node to resume at lies to the right of the one that failed. -/
theorem lt_skipPast {n : Nat} (h : 0 < n) {k : Nat} (hk : k ≤ level n) :
    n < skipPast n (up n k) := by
  rw [skipPast_up h hk, Nat.add_mul, Nat.one_mul]
  have h1 := Nat.div_add_mod n (2 ^ k)
  have h2 := Nat.mod_lt n (Nat.two_pow_pos k)
  rw [Nat.mul_comm] at h1
  omega

/-- **The scan stays on its level.**  The node to resume at is at most one past its end. -/
theorem skipPast_le {n : Nat} (h : 0 < n) {k : Nat} (hk : k ≤ level n) :
    skipPast n (up n k) ≤ 2 ^ (level n + 1) := by
  obtain ⟨-, hi⟩ := level_bounds (up_pos h hk)
  rw [level_up h hk, up_eq_div] at hi
  rw [skipPast_up h hk]
  calc (n / 2 ^ k + 1) * 2 ^ k ≤ 2 ^ (level n - k + 1) * 2 ^ k := Nat.mul_le_mul_right _ hi
    _ = 2 ^ (level n + 1) := by rw [← Nat.pow_add]; congr 1; omega

end NodeId
end BuddyTree
