/-
# Which nodes lie below which

A node lies *within* another if it is that node or one of its descendants, and *in a half* of
another if it lies within the child on that side.  The nodes above one node form a chain, one on
each level, so two nodes are either one within the other or have no granule in common.

The main facts: the ancestors of a node are a chain (`Within.total`), a node lies in at most one
half of another (`InHalf.side_eq`), a climb meets exactly the ancestors down to its bound, each
with the half it came from (`mem_climb_iff`), and the blocks of two nodes are apart exactly if
neither node lies within the other (`block_apart_iff`).
-/
import BuddyTree.Blocks

namespace BuddyTree

/-- There are two sides. -/
theorem Side.eq_or_eq_other (s t : Side) : s = t ∨ s = t.other := by
  cases s <;> cases t <;> decide

namespace NodeId

/-! ## 1. Children by number -/

/-- The child of a node on one side. -/
def child (n : Nat) : Side → Nat
  | .left => 2 * n
  | .right => 2 * n + 1

theorem up_one_child (n : Nat) (s : Side) : up (child n s) 1 = n := by
  rw [up_eq_div]
  cases s <;> simp only [child] <;> omega

theorem side_child (n : Nat) (s : Side) : side (child n s) = s := by
  cases s with
  | left => rw [side, child, if_pos (by omega)]
  | right => rw [side, child, if_neg (by omega)]

/-- A number is the child of the number above it, on its own side. -/
theorem child_up_one (n : Nat) : child (up n 1) (side n) = n := by
  rw [up_eq_div, side]
  split <;> simp only [child] <;> omega

theorem child_inj {m n : Nat} {s t : Side} (h : child m s = child n t) : m = n ∧ s = t := by
  refine ⟨?_, ?_⟩
  · rw [← up_one_child m s, h, up_one_child]
  · rw [← side_child m s, h, side_child]

theorem level_child {n : Nat} (h : 0 < n) (s : Side) : level (child n s) = level n + 1 := by
  obtain ⟨lo, hi⟩ := level_bounds h
  have hpow := Nat.pow_succ 2 (level n)
  have hpow' := Nat.pow_succ 2 (level n + 1)
  have hpos : 0 < child n s := by cases s <;> simp only [child] <;> omega
  rw [level_eq_iff hpos]
  cases s <;> simp only [child] <;> omega

/-- Beyond the root there is nothing. -/
theorem up_eq_zero {n k : Nat} (h : 0 < n) (hk : level n < k) : up n k = 0 := by
  rw [up_eq_div]
  refine Nat.div_eq_of_lt (Nat.lt_of_lt_of_le (level_bounds h).2 ?_)
  exact Nat.pow_le_pow_right Nat.two_pos hk

end NodeId

namespace Node

variable {d : Nat}

/-! ## 2. Below -/

/-- The node is `a` or one of its descendants. -/
def Within (b a : Node d) : Prop := ∃ k, NodeId.up b.id k = a.id

/-- The node lies within the child of `a` on one side. -/
def InHalf (b a : Node d) (s : Side) : Prop := ∃ k, NodeId.up b.id k = NodeId.child a.id s

theorem child_pos (a : Node d) (s : Side) : 0 < NodeId.child a.id s := by
  have := a.pos
  cases s <;> simp only [NodeId.child] <;> omega

/-- The number `k` steps up is that of a positive number exactly that much higher. -/
theorem level_of_up_eq {b : Node d} {k m : Nat} (h : NodeId.up b.id k = m) (hm : 0 < m) :
    NodeId.level m + k = b.level := by
  have hk : k ≤ b.level := by
    by_cases hlt : b.level < k
    · have := NodeId.up_eq_zero b.pos hlt
      omega
    · omega
  have := NodeId.level_up b.pos hk
  rw [h] at this
  rw [this, level] at *
  omega

theorem within_iff {b a : Node d} :
    b.Within a ↔ a.level ≤ b.level ∧ NodeId.up b.id (b.level - a.level) = a.id := by
  constructor
  · rintro ⟨k, hk⟩
    have hl : a.level + k = b.level := level_of_up_eq hk a.pos
    exact ⟨by omega, by rw [show b.level - a.level = k by omega]; exact hk⟩
  · rintro ⟨-, h⟩
    exact ⟨_, h⟩

theorem inHalf_iff {b a : Node d} {s : Side} :
    b.InHalf a s ↔
      a.level < b.level ∧ NodeId.up b.id (b.level - a.level - 1) = NodeId.child a.id s := by
  constructor
  · rintro ⟨k, hk⟩
    have hl := level_of_up_eq hk (child_pos a s)
    rw [NodeId.level_child a.pos] at hl
    have hl' : a.level + 1 + k = b.level := hl
    exact ⟨by omega, by rw [show b.level - a.level - 1 = k by omega]; exact hk⟩
  · rintro ⟨-, h⟩
    exact ⟨_, h⟩

theorem Within.level_le {b a : Node d} (h : b.Within a) : a.level ≤ b.level :=
  (within_iff.mp h).1

theorem InHalf.level_lt {b a : Node d} {s : Side} (h : b.InHalf a s) : a.level < b.level :=
  (inHalf_iff.mp h).1

@[simp] theorem within_self (a : Node d) : a.Within a :=
  ⟨0, NodeId.up_zero _⟩

theorem Within.trans {c b a : Node d} (h : c.Within b) (h' : b.Within a) : c.Within a := by
  obtain ⟨j, hj⟩ := h
  obtain ⟨k, hk⟩ := h'
  exact ⟨j + k, by rw [← NodeId.up_up, hj, hk]⟩

theorem Within.inHalf {c b a : Node d} {s : Side} (h : c.Within b) (h' : b.InHalf a s) :
    c.InHalf a s := by
  obtain ⟨j, hj⟩ := h
  obtain ⟨k, hk⟩ := h'
  exact ⟨j + k, by rw [← NodeId.up_up, hj, hk]⟩

theorem InHalf.within {b a : Node d} {s : Side} (h : b.InHalf a s) : b.Within a := by
  obtain ⟨k, hk⟩ := h
  exact ⟨k + 1, by rw [← NodeId.up_up, hk, NodeId.up_one_child]⟩

theorem InHalf.trans {c b a : Node d} {s t : Side} (h : c.InHalf b s) (h' : b.InHalf a t) :
    c.InHalf a t :=
  h.within.inHalf h'

/-- Within a node is the node itself and its two halves. -/
theorem within_iff_eq_or_inHalf {b a : Node d} : b.Within a ↔ b = a ∨ ∃ s, b.InHalf a s := by
  constructor
  · rintro ⟨k, hk⟩
    cases k with
    | zero => exact .inl (Node.ext (by rw [← hk, NodeId.up_zero]))
    | succ k =>
      refine .inr ⟨NodeId.side (NodeId.up b.id k), k, ?_⟩
      rw [← hk, ← NodeId.up_up, NodeId.child_up_one]
  · rintro (rfl | ⟨s, h⟩)
    · exact within_self b
    · exact h.within

/-- What lies within a node, and is smaller, lies in one of its halves. -/
theorem Within.exists_inHalf {b a : Node d} (h : b.Within a) (hl : a.level < b.level) :
    ∃ s, b.InHalf a s := by
  rcases within_iff_eq_or_inHalf.mp h with rfl | hin
  · exact absurd hl (Nat.lt_irrefl _)
  · exact hin

/-- A node lies in at most one half of another. -/
theorem InHalf.side_eq {b a : Node d} {s t : Side} (h : b.InHalf a s) (h' : b.InHalf a t) :
    s = t := by
  have h1 := (inHalf_iff.mp h).2
  have h2 := (inHalf_iff.mp h').2
  exact (NodeId.child_inj (h1.symm.trans h2)).2

theorem not_inHalf_self (a : Node d) (s : Side) : ¬ a.InHalf a s :=
  fun h => Nat.lt_irrefl _ h.level_lt

theorem not_inHalf_of_level_le {b a : Node d} (h : b.level ≤ a.level) (s : Side) :
    ¬ b.InHalf a s :=
  fun hb => absurd hb.level_lt (by omega)

/-- No leaf has halves. -/
theorem not_inHalf_leaf {b a : Node d} (h : a.level = d) (s : Side) : ¬ b.InHalf a s :=
  not_inHalf_of_level_le (by have := b.level_le; omega) s

/-- **The ancestors of a node are a chain.** -/
theorem Within.total {c a b : Node d} (ha : c.Within a) (hb : c.Within b)
    (h : a.level ≤ b.level) : b.Within a := by
  obtain ⟨ha1, ha2⟩ := within_iff.mp ha
  obtain ⟨hb1, hb2⟩ := within_iff.mp hb
  refine ⟨b.level - a.level, ?_⟩
  rw [← hb2, NodeId.up_up, ← ha2]
  congr 1
  omega

theorem Within.eq_of_level {c a b : Node d} (ha : c.Within a) (hb : c.Within b)
    (h : a.level = b.level) : a = b := by
  obtain ⟨-, ha2⟩ := within_iff.mp ha
  obtain ⟨-, hb2⟩ := within_iff.mp hb
  exact Node.ext (by rw [← ha2, ← hb2, h])

theorem Within.antisymm {a b : Node d} (h : a.Within b) (h' : b.Within a) : a = b :=
  Within.eq_of_level (within_self a) h (Nat.le_antisymm h'.level_le h.level_le)

/-- Above a node that lies in a half, everything in between lies in that half. -/
theorem InHalf.of_within {c b a : Node d} {s : Side} (hc : c.InHalf a s) (hb : c.Within b)
    (h : a.level < b.level) : b.InHalf a s := by
  obtain ⟨hc1, hc2⟩ := inHalf_iff.mp hc
  obtain ⟨hb1, hb2⟩ := within_iff.mp hb
  refine ⟨b.level - a.level - 1, ?_⟩
  rw [← hb2, NodeId.up_up, ← hc2]
  congr 1
  omega

/-! ## 3. Parents -/

/-- A node that has a parent lies in its own half of it, and the parent is one level up. -/
theorem inHalf_parent? {n p : Node d} (h : n.parent? = some p) : n.InHalf p n.side := by
  obtain ⟨hid, -⟩ := id_parent? h
  refine ⟨0, ?_⟩
  rw [NodeId.up_zero, hid]
  exact (NodeId.child_up_one n.id).symm

/-- What lies in that half of the parent lies within the node. -/
theorem inHalf_parent?_iff {n p b : Node d} (h : n.parent? = some p) :
    b.InHalf p n.side ↔ b.Within n := by
  have hid : NodeId.child p.id n.side = n.id := by
    rw [(id_parent? h).1]
    exact NodeId.child_up_one n.id
  rw [InHalf, Within, hid]

theorem level_parent? {n p : Node d} (h : n.parent? = some p) : p.level + 1 = n.level := by
  obtain ⟨hid, hlev⟩ := id_parent? h
  have hp : p.level = n.level - 1 := by
    rw [level, hid]
    exact NodeId.level_up n.pos hlev
  omega

/-- Only the root has no parent. -/
theorem parent?_eq_none {n : Node d} (h : n.parent? = none) : n.level = 0 := by
  unfold parent? at h
  split at h
  · cases h
  · next h1 =>
    have : n.id = 1 := by have := n.pos; omega
    rw [level, this]
    decide

/-- What lies above a node lies above its parent, or is the parent. -/
theorem inHalf_iff_parent? {n p a : Node d} (h : n.parent? = some p) {s : Side} :
    n.InHalf a s ↔ (a = p ∧ s = n.side) ∨ p.InHalf a s := by
  have hn := inHalf_parent? h
  have hlev := level_parent? h
  constructor
  · intro ha
    by_cases hl : a.level < p.level
    · exact .inr (ha.of_within hn.within hl)
    · obtain rfl : a = p :=
        Within.eq_of_level ha.within hn.within (by have := ha.level_lt; omega)
      exact .inl ⟨rfl, ha.side_eq hn⟩
  · rintro (⟨rfl, rfl⟩ | hp)
    · exact hn
    · exact hn.trans hp

/-- **Where two nodes part.**  Two nodes in one half, neither of which lies within the other, lie in
different halves of some node in there. -/
theorem exists_branch {x y a : Node d} {c : Side} (hx : x.InHalf a c) (hy : y.InHalf a c)
    (hxy : ¬ x.Within y) (hyx : ¬ y.Within x) :
    ∃ q e, x.InHalf q e ∧ y.InHalf q e.other ∧ a.level < q.level := by
  -- climb from `x` until `y` lies below as well
  suffices key : ∀ k (z : Node d), z.level = a.level + k → x.Within z → ¬ y.Within z →
      ∃ q e, x.InHalf q e ∧ y.InHalf q e.other ∧ a.level < q.level from
    key (x.level - a.level) x (by have := hx.level_lt; omega) (within_self x) hyx
  intro k
  induction k with
  | zero =>
    intro z hz hxz hyz
    obtain rfl : z = a := hxz.eq_of_level hx.within hz
    exact absurd hy.within hyz
  | succ k ih =>
    intro z hz hxz hyz
    cases hp : z.parent? with
    | none =>
      have := parent?_eq_none hp
      omega
    | some p =>
      have hlev := level_parent? hp
      have hxp := hxz.inHalf (inHalf_parent? hp)
      by_cases hyp : y.Within p
      · rcases within_iff_eq_or_inHalf.mp hyp with rfl | ⟨e, he⟩
        · exact absurd hxp.within hxy
        · have hne : e ≠ z.side := fun h => hyz ((inHalf_parent?_iff hp).mp (h ▸ he))
          obtain rfl : e = z.side.other := (e.eq_or_eq_other z.side).resolve_left hne
          refine ⟨p, z.side, hxp, he, Nat.lt_of_not_le fun hle => hne ?_⟩
          obtain rfl : p = a := hxp.within.eq_of_level hx.within (by omega)
          exact (he.side_eq hy).trans (hx.side_eq hxp)
      · exact ih p (by omega) hxp.within hyp

/-! ### Children -/

/-- A node above the leaves has a child on each side. -/
theorem exists_child {a : Node d} (h : a.level < d) (s : Side) :
    ∃ c : Node d, c.id = NodeId.child a.id s := by
  refine ⟨⟨NodeId.child a.id s, child_pos a s, ?_⟩, rfl⟩
  have hlevel := NodeId.level_child a.pos s
  have hlt := (NodeId.level_bounds (child_pos a s)).2
  rw [hlevel] at hlt
  exact Nat.lt_of_lt_of_le hlt (Nat.pow_le_pow_right Nat.two_pos (Nat.succ_le_succ h))

variable {a c : Node d} {s : Side}

theorem level_of_child (h : c.id = NodeId.child a.id s) : c.level = a.level + 1 := by
  rw [level, h, NodeId.level_child a.pos]
  rfl

/-- The half of a node on one side is its child there. -/
theorem inHalf_iff_of_child (h : c.id = NodeId.child a.id s) {b : Node d} :
    b.InHalf a s ↔ b.Within c := by
  rw [InHalf, Within, h]

/-! ## 4. Climbs -/

theorem climb_succ {n p : Node d} (h : n.parent? = some p) (k : Nat) :
    n.climb (k + 1) = ⟨p, n.side⟩ :: p.climb k := by
  rw [climb, h]

theorem climb_succ_none {n : Node d} (h : n.parent? = none) (k : Nat) :
    n.climb (k + 1) = [] := by
  rw [climb, h]

/-- **A climb meets exactly the ancestors up to its height,** each with the half it came from. -/
theorem mem_climb_iff {n : Node d} {k : Nat} {r : Rung d} :
    r ∈ n.climb k ↔ n.InHalf r.node r.child ∧ n.level ≤ r.node.level + k := by
  induction k generalizing n with
  | zero =>
    refine iff_of_false (by simp [climb]) ?_
    rintro ⟨h, hl⟩
    have := h.level_lt
    omega
  | succ k ih =>
    cases hp : n.parent? with
    | none =>
      rw [climb_succ_none hp]
      refine iff_of_false (by simp) ?_
      rintro ⟨h, -⟩
      have := h.level_lt
      have := parent?_eq_none hp
      omega
    | some p =>
      have hlev := level_parent? hp
      rw [climb_succ hp, List.mem_cons, ih, inHalf_iff_parent? hp]
      constructor
      · rintro (rfl | ⟨h, hl⟩)
        · exact ⟨.inl ⟨rfl, rfl⟩, by simp only; omega⟩
        · exact ⟨.inr h, by omega⟩
      · rintro ⟨⟨h1, h2⟩ | h, hl⟩
        · obtain ⟨node, child⟩ := r
          simp only at h1 h2
          subst h1 h2
          exact .inl rfl
        · exact .inr ⟨h, by omega⟩

/-! ## 5. Granules -/

/-- The leaves of a node are the numbers from its first leaf on. -/
theorem firstLeaf_val (n : Node d) :
    2 ^ d + n.firstLeaf.val = n.id * 2 ^ n.order := by
  have h := (NodeId.leftmost_bounds n.pos n.level_le).1
  have hl : NodeId.leftmost n.id d = n.id * 2 ^ n.order := Nat.shiftLeft_eq _ _
  have hf : n.firstLeaf.val = NodeId.leftmost n.id d - 2 ^ d := by
    simp only [firstLeaf, NodeId.firstLeaf, NodeId.levelStart_eq]
  omega

theorem order_add_level (n : Node d) : n.order + n.level = d := by
  have := n.level_le
  unfold order
  omega

/-- The node and the first granule after it, in numbers of the lowest level. -/
theorem block_bounds (n : Node d) :
    2 ^ d + n.block.first = n.id * 2 ^ n.order ∧
      2 ^ d + n.block.stop = (n.id + 1) * 2 ^ n.order := by
  have h := n.firstLeaf_val
  refine ⟨h, ?_⟩
  have hs : n.block.stop = n.firstLeaf.val + 2 ^ n.order := rfl
  rw [hs, Nat.succ_mul, ← h]
  omega

/-- Every block ends within the tree. -/
theorem block_stop_le (n : Node d) : n.block.stop ≤ 2 ^ d := by
  obtain ⟨-, hstop⟩ := n.block_bounds
  have hpow : 2 ^ (d + 1) = 2 ^ (n.level + 1) * 2 ^ n.order := by
    rw [← Nat.pow_add]
    congr 1
    have := n.order_add_level
    omega
  have hle : (n.id + 1) * 2 ^ n.order ≤ 2 ^ (d + 1) := by
    rw [hpow]
    exact Nat.mul_le_mul_right _ (NodeId.level_bounds n.pos).2
  rw [Nat.pow_succ'] at hle
  omega

/-- A child has half the granules, the first ones on the left and the others on the right. -/
theorem block_of_child {a c : Node d} {s : Side} (h : c.id = NodeId.child a.id s) :
    a.order = c.order + 1 ∧
      c.block.first = a.block.first + if s = .left then 0 else 2 ^ c.order := by
  have hlevel := level_of_child h
  have ha := a.order_add_level
  have hc := c.order_add_level
  have horder : a.order = c.order + 1 := by omega
  refine ⟨horder, ?_⟩
  obtain ⟨ha1, -⟩ := a.block_bounds
  obtain ⟨hc1, -⟩ := c.block_bounds
  rw [horder, Nat.pow_succ'] at ha1
  rw [h] at hc1
  cases s with
  | left =>
    rw [NodeId.child, Nat.mul_comm 2, Nat.mul_assoc] at hc1
    rw [if_pos rfl]
    omega
  | right =>
    rw [NodeId.child, Nat.succ_mul, Nat.mul_comm 2, Nat.mul_assoc] at hc1
    rw [if_neg (by decide)]
    omega

/-- For nodes of different size, the order of their granules is read off the ancestor of the
smaller one on the level of the larger one. -/
theorem stop_le_first_iff {a b : Node d} (h : a.level ≤ b.level) :
    (b.block.stop ≤ a.block.first ↔ NodeId.up b.id (b.level - a.level) < a.id) ∧
      (a.block.stop ≤ b.block.first ↔ a.id < NodeId.up b.id (b.level - a.level)) := by
  obtain ⟨a1, a2⟩ := a.block_bounds
  obtain ⟨b1, b2⟩ := b.block_bounds
  have hpow : 2 ^ a.order = 2 ^ (b.level - a.level) * 2 ^ b.order := by
    rw [← Nat.pow_add]
    congr 1
    have := a.order_add_level
    have := b.order_add_level
    omega
  have hpos : 0 < 2 ^ b.order := Nat.two_pow_pos _
  have hpos' : 0 < 2 ^ (b.level - a.level) := Nat.two_pow_pos _
  rw [NodeId.up_eq_div]
  constructor
  · rw [Nat.div_lt_iff_lt_mul hpos', ← Nat.succ_le_iff]
    rw [hpow, ← Nat.mul_assoc] at a1
    have key : b.id + 1 ≤ a.id * 2 ^ (b.level - a.level) ↔
        (b.id + 1) * 2 ^ b.order ≤ a.id * 2 ^ (b.level - a.level) * 2 ^ b.order :=
      ⟨Nat.mul_le_mul_right _, fun hle => Nat.le_of_mul_le_mul_right hle hpos⟩
    rw [Nat.succ_eq_add_one, key]
    omega
  · rw [← Nat.succ_le_iff, Nat.le_div_iff_mul_le hpos']
    rw [hpow, ← Nat.mul_assoc] at a2
    have key : (a.id + 1) * 2 ^ (b.level - a.level) ≤ b.id ↔
        (a.id + 1) * 2 ^ (b.level - a.level) * 2 ^ b.order ≤ b.id * 2 ^ b.order :=
      ⟨Nat.mul_le_mul_right _, fun hle => Nat.le_of_mul_le_mul_right hle hpos⟩
    rw [Nat.succ_eq_add_one, key]
    omega

/-- **No granule in common.**  The blocks of two nodes are apart exactly if neither node lies
within the other. -/
theorem block_apart_iff {a b : Node d} :
    a.block.Apart b.block ↔ ¬ a.Within b ∧ ¬ b.Within a := by
  have key : ∀ {a b : Node d}, a.level ≤ b.level →
      (a.block.Apart b.block ↔ ¬ a.Within b ∧ ¬ b.Within a) := by
    intro a b h
    obtain ⟨h1, h2⟩ := stop_le_first_iff h
    have hb : b.Within a ↔ NodeId.up b.id (b.level - a.level) = a.id :=
      within_iff.trans (and_iff_right h)
    have ha : a.Within b → b.Within a := by
      intro hab
      obtain rfl : a = b :=
        Within.eq_of_level (within_self a) hab (Nat.le_antisymm h hab.level_le)
      exact within_self a
    have : ¬ a.Within b ∧ ¬ b.Within a ↔ ¬ b.Within a :=
      ⟨And.right, fun hn => ⟨fun hab => hn (ha hab), hn⟩⟩
    rw [Block.Apart, h1, h2, this, hb]
    omega
  rcases Nat.le_total a.level b.level with h | h
  · exact key h
  · have := key h
    rw [and_comm, ← this]
    exact ⟨Block.Apart.symm, Block.Apart.symm⟩

theorem Within.block_within {b a : Node d} (h : b.Within a) : b.block.Within a.block := by
  obtain ⟨hl, hup⟩ := within_iff.mp h
  obtain ⟨h1, h2⟩ := stop_le_first_iff hl
  obtain ⟨a1, a2⟩ := a.block_bounds
  obtain ⟨b1, b2⟩ := b.block_bounds
  have hpow : 2 ^ a.order = 2 ^ (b.level - a.level) * 2 ^ b.order := by
    rw [← Nat.pow_add]
    congr 1
    have := a.order_add_level
    have := b.order_add_level
    omega
  rw [NodeId.up_eq_div, Nat.div_eq_iff (Nat.two_pow_pos _)] at hup
  obtain ⟨hlo, hhi⟩ := hup
  have hlo' : a.id * 2 ^ a.order ≤ b.id * 2 ^ b.order := by
    rw [hpow, ← Nat.mul_assoc]
    exact Nat.mul_le_mul_right _ (by omega)
  have hhi' : (b.id + 1) * 2 ^ b.order ≤ (a.id + 1) * 2 ^ a.order := by
    rw [hpow, ← Nat.mul_assoc]
    refine Nat.mul_le_mul_right _ ?_
    have := Nat.two_pow_pos (b.level - a.level)
    rw [Nat.succ_mul]
    omega
  exact ⟨by omega, by omega⟩

/-- **Below is inside.**  A node lies within another exactly if its granules do. -/
theorem block_within_iff {a b : Node d} : b.block.Within a.block ↔ b.Within a := by
  refine ⟨?_, Within.block_within⟩
  rintro ⟨hf, hs⟩
  have hlen : 2 ^ b.order ≤ 2 ^ a.order := by
    have ha : a.block.stop = a.block.first + 2 ^ a.order := rfl
    have hb : b.block.stop = b.block.first + 2 ^ b.order := rfl
    omega
  have hord : b.order ≤ a.order := (Nat.pow_le_pow_iff_right (by decide)).mp hlen
  have hl : a.level ≤ b.level := by
    have := a.order_add_level
    have := b.order_add_level
    omega
  obtain ⟨h1, h2⟩ := stop_le_first_iff hl
  have := b.block.stop_pos
  refine within_iff.mpr ⟨hl, ?_⟩
  rcases Nat.lt_trichotomy (NodeId.up b.id (b.level - a.level)) a.id with hlt | heq | hgt
  · have := h1.mpr hlt
    omega
  · exact heq
  · have := h2.mpr hgt
    omega

/-- A node is determined by its granules. -/
theorem block_inj {a b : Node d} (h : a.block = b.block) : a = b := by
  have hself : ∀ c : Block, c.Within c := fun c => ⟨Nat.le_refl _, Nat.le_refl _⟩
  exact Within.antisymm (block_within_iff.mp (h ▸ hself _)) (block_within_iff.mp (h ▸ hself _))

/-- Two nodes that begin at the same granule lie one within the other. -/
theorem within_or_within_of_firstLeaf {a b : Node d} (h : a.firstLeaf = b.firstLeaf) :
    a.Within b ∨ b.Within a := by
  by_cases hab : a.Within b
  · exact .inl hab
  · by_cases hba : b.Within a
    · exact .inr hba
    · exfalso
      have hapart := block_apart_iff.mpr ⟨hab, hba⟩
      have hf : a.block.first = b.block.first := congrArg Fin.val h
      have := a.block.stop_pos
      have := b.block.stop_pos
      rcases hapart with h | h <;> omega

end Node
end BuddyTree
