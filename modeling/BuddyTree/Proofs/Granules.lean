/-
# The granules of a node

The granules that a node covers are a *span*: so many from its first leaf on as its height allows.
How two nodes stand to each other in the tree is how their spans lie: a span is cut in two where its
node has children, and two spans have a granule in common only if one of them is inside the other.

The main facts: `Node.halved_of_child` (the spans of two children),
`Node.inter_span_nonempty_iff` (which spans meet), and `spans_laminar`, which puts them together.
-/
import Mathlib.Order.Interval.Finset.Nat
import BuddyTree.Proofs.Alignment
import BuddyTree.Proofs.Wrapping

namespace BuddyTree

namespace Node

variable {d : Nat} {m n : Node d}

/-! ## 1. One span -/

/-- The granules that the node covers. -/
def span (n : Node d) : Finset Nat :=
  Finset.Ico n.firstLeaf (n.firstLeaf + 2 ^ (d - n.level))

theorem stop_block (n : Node d) : n.block.stop = n.block.first + 2 ^ n.order :=
  rfl

theorem span_eq_block (n : Node d) : n.span = Finset.Ico n.block.first n.block.stop :=
  rfl

@[simp] theorem mem_span {x : Nat} : x ∈ n.span ↔ n.block.first ≤ x ∧ x < n.block.stop :=
  Finset.mem_Ico

@[simp] theorem card_span (n : Node d) : n.span.card = 2 ^ (d - n.level) := by
  simp [span]

theorem span_subset_range (n : Node d) : n.span ⊆ Finset.range (2 ^ d) := by
  intro x hx
  exact Finset.mem_range.mpr (Nat.lt_of_lt_of_le (mem_span.mp hx).2 n.block_stop_le)

theorem card_span_dvd_firstLeaf (n : Node d) : n.span.card ∣ n.firstLeaf.val := by
  rw [card_span]
  exact n.two_pow_order_dvd_firstLeaf

/-! ## 2. Two children -/

/-- The spans of `l` and `r` are the two halves of the span of `n`. -/
structure Halved (n l r : Node d) : Prop where
  union : l.span ∪ r.span = n.span
  disjoint : Disjoint l.span r.span
  /-- They are of one size, -/
  card_eq : l.span.card = r.span.card
  /-- and the one of `l` is the left one. -/
  before : ∀ x ∈ l.span, ∀ y ∈ r.span, x < y

/-- **Halves.**  The left child has the first half of the span, and the right one the other. -/
theorem halved_of_child {l r : Node d} (hl : l.id = NodeId.child n.id .left)
    (hr : r.id = NodeId.child n.id .right) : n.Halved l r := by
  have hlorder : n.order = l.order + 1 := (block_of_child hl).1
  have hrorder : n.order = r.order + 1 := (block_of_child hr).1
  have horder : l.order = r.order := Nat.succ.inj (hlorder.symm.trans hrorder)
  have hlfirst : l.block.first = n.block.first := by simpa using (block_of_child hl).2
  have hrfirst : r.block.first = n.block.first + 2 ^ r.order := by
    simpa using (block_of_child hr).2
  have hmid : l.block.stop = r.block.first := by
    rw [stop_block, hlfirst, hrfirst, horder]
  have hstop : r.block.stop = n.block.stop := by
    rw [stop_block, stop_block, hrfirst, hrorder, Nat.pow_succ', Nat.two_mul, Nat.add_assoc]
  have hunion : l.span ∪ r.span = n.span := by
    rw [span_eq_block, span_eq_block, span_eq_block, ← hlfirst, ← hstop, ← hmid]
    exact Finset.Ico_union_Ico_eq_Ico (Nat.le_of_lt l.block.stop_pos)
      (hmid ▸ Nat.le_of_lt r.block.stop_pos)
  have hdisjoint : Disjoint l.span r.span := by
    rw [span_eq_block, span_eq_block, hmid]
    exact Finset.Ico_disjoint_Ico_consecutive _ _ _
  have hcard : l.span.card = r.span.card := by
    rw [card_span, card_span]
    exact congrArg (2 ^ ·) horder
  refine ⟨hunion, hdisjoint, hcard, fun x hx y hy => ?_⟩
  exact Nat.lt_of_lt_of_le (hmid ▸ (mem_span.mp hx).2) (mem_span.mp hy).1

/-- Every node above the leaves has the two children. -/
theorem exists_halved (h : n.level < d) :
    ∃ l r : Node d, l.id = 2 * n.id ∧ r.id = 2 * n.id + 1 ∧ n.Halved l r := by
  obtain ⟨l, hl⟩ := exists_child h .left
  obtain ⟨r, hr⟩ := exists_child h .right
  exact ⟨l, r, hl, hr, halved_of_child hl hr⟩

/-! ## 3. Two nodes -/

/-- Above a node are its parent and what is above that. -/
theorem within_iff_parent? : m.Within n ↔ m = n ∨ ∃ p, m.parent? = some p ∧ p.Within n := by
  rw [within_iff_eq_or_inHalf]
  refine or_congr_right ?_
  cases hp : m.parent? with
  | none =>
    have hroot := parent?_eq_none hp
    refine iff_of_false ?_ (by simp)
    rintro ⟨s, hs⟩
    exact Nat.not_lt_zero _ (hroot ▸ hs.level_lt)
  | some p =>
    have hself : m.InHalf p m.side := inHalf_parent? hp
    constructor
    · rintro ⟨s, hs⟩
      rcases (inHalf_iff_parent? hp).mp hs with ⟨rfl, -⟩ | hs
      · exact ⟨n, rfl, within_self n⟩
      · exact ⟨p, rfl, hs.within⟩
    · rintro ⟨q, hq, hw⟩
      obtain rfl : p = q := Option.some.inj hq
      rcases within_iff_eq_or_inHalf.mp hw with rfl | ⟨s, hs⟩
      · exact ⟨m.side, hself⟩
      · exact ⟨s, hself.trans hs⟩

theorem disjoint_span_iff : Disjoint m.span n.span ↔ m.block.Apart n.block := by
  have hm := m.block.stop_pos
  have hn := n.block.stop_pos
  rw [Finset.disjoint_left]
  constructor
  · intro h
    -- the later one of the two first granules is in both spans, unless they are apart
    have hfirst := h (a := max m.block.first n.block.first)
    simp only [mem_span] at hfirst
    unfold Block.Apart
    omega
  · intro h x hx hx'
    rw [mem_span] at hx hx'
    rcases h with h | h <;> omega

/-- **Which spans meet.**  Two spans have a granule in common exactly if one of the nodes is the
other or an ancestor of it. -/
theorem inter_span_nonempty_iff : (m.span ∩ n.span).Nonempty ↔ m.Within n ∨ n.Within m := by
  rw [← Finset.not_disjoint_iff_nonempty_inter, disjoint_span_iff, block_apart_iff, not_and_or,
    not_not, not_not]

/-- A node is determined by where it begins and how far up it is. -/
theorem eq_of_firstLeaf_of_level (hfirst : m.firstLeaf = n.firstLeaf) (hlevel : m.level = n.level) :
    m = n := by
  refine block_inj ?_
  rw [block, block, hfirst, order, order, hlevel]

end Node

/-! ## 4. The whole tree -/

/-- The spans of the nodes of a tree lie within each other or apart. -/
structure Laminar (d : Nat) : Prop where
  /-- A span lies among the granules, -/
  inside : ∀ n : Node d, n.span ⊆ Finset.range (2 ^ d)
  card : ∀ n : Node d, n.span.card = 2 ^ (d - n.level)
  /-- at a multiple of its own length, -/
  aligned : ∀ n : Node d, n.span.card ∣ n.firstLeaf.val
  /-- and is cut in two where the node has children. -/
  halved : ∀ n : Node d, n.level < d →
    ∃ l r : Node d, l.id = 2 * n.id ∧ r.id = 2 * n.id + 1 ∧ n.Halved l r
  /-- Two spans meet only if one of the nodes is the other or an ancestor of it, -/
  meets : ∀ m n : Node d, (m.span ∩ n.span).Nonempty ↔ m.Within n ∨ n.Within m
  /-- the ancestors being what the way from parent to parent comes to, -/
  parents : ∀ m n : Node d, m.Within n ↔ m = n ∨ ∃ p, m.parent? = some p ∧ p.Within n
  /-- and no two nodes begin at one granule on one level. -/
  determined : ∀ m n : Node d, m.firstLeaf = n.firstLeaf → m.level = n.level → m = n

/-- **The spans are laminar,** and in trees of up to 32 levels no step on the way to where a span
begins wraps in words of 64 bits. -/
theorem spans_laminar {d : Nat} (hd : d ≤ maxDepth) :
    Laminar d ∧ ∀ n : Node d, NodeId.LeafFits n.id d ∧
      (NodeId.Wrapping.firstLeaf n.word (.ofNat d)).toNat = n.firstLeaf :=
  ⟨{ inside := Node.span_subset_range
     card := Node.card_span
     aligned := Node.card_span_dvd_firstLeaf
     halved := fun _ => Node.exists_halved
     meets := fun _ _ => Node.inter_span_nonempty_iff
     parents := fun _ _ => Node.within_iff_parent?
     determined := fun _ _ => Node.eq_of_firstLeaf_of_level },
    fun n => ⟨n.leafFits hd, n.toNat_firstLeaf hd⟩⟩

/-- In the deepest tree, node 6 is a child of node 3 and meets it, but it does not meet node 2, which
is on the level of node 3; and the last leaf begins at the last granule. -/
theorem spans_laminar_of_deepest :
    let two : Node 31 := ⟨2, by decide, by decide⟩
    let three : Node 31 := ⟨3, by decide, by decide⟩
    let six : Node 31 := ⟨6, by decide, by decide⟩
    let last : Node 31 := ⟨2 ^ (32 : Nat) - 1, by decide, by decide⟩
    31 ≤ maxDepth ∧ Laminar 31 ∧ (six.span ∩ three.span).Nonempty ∧
      ¬ (six.span ∩ two.span).Nonempty ∧ NodeId.LeafFits last.id 31 ∧
      (NodeId.Wrapping.firstLeaf last.word 31).toNat = 2 ^ (31 : Nat) - 1 := by
  intro two three six last
  have hdepth : 31 ≤ maxDepth := Nat.le_refl maxDepth
  obtain ⟨hlaminar, hwords⟩ := spans_laminar hdepth
  obtain ⟨hfits, hlast⟩ := hwords last
  have hapart : ¬ (six.Within two ∨ two.Within six) := by
    rw [Node.within_iff, Node.within_iff]
    decide
  refine ⟨hdepth, hlaminar, ?_, ?_, hfits, ?_⟩
  · exact (hlaminar.meets six three).mpr (.inl ⟨1, by decide⟩)
  · exact fun hmeets => hapart ((hlaminar.meets six two).mp hmeets)
  · have hleaf : last.firstLeaf.val = 2 ^ (31 : Nat) - 1 := by decide
    exact hlast.trans hleaf

end BuddyTree
