/-
# What the counters add up to

The counters of an allocator are 64-bit words, one for each order, and the bytes in use are added
up from them with 64-bit arithmetic.  Live blocks are apart and lie inside the region, so together
they are no larger than it, and none of this arithmetic ever wraps.

The main facts: `Blocks.granules_le` (blocks that are apart fit side by side), `mem_indexed_iff`
(the blocks that an index has), `Mirrors.liveAt_toNat` (a counter is the number of live blocks of
its order), and `Mirrors.usedMemory_toNat` (the bytes in use are those of the live blocks).
-/
import BuddyTree.Statistics
import BuddyTree.Proofs.Mirror

namespace BuddyTree

/-! ## 1. Room -/

namespace Blocks

/-- The granules of all blocks together. -/
def granules : List Block → Nat
  | [] => 0
  | b :: rest => 2 ^ b.order + granules rest

/-- The bytes of all blocks together. -/
def bytes (minSize : Nat) (live : List Block) : Nat := granules live * minSize

theorem granules_append (xs ys : List Block) :
    granules (xs ++ ys) = granules xs + granules ys := by
  induction xs with
  | nil => rw [List.nil_append, granules, Nat.zero_add]
  | cons b rest ih => rw [List.cons_append, granules, granules, ih, Nat.add_assoc]

/-- **Side by side.**  Blocks that are apart and end by `stop` have at most `stop` granules. -/
theorem granules_le {live : List Block} {stop : Nat} (hstop : ∀ b ∈ live, b.stop ≤ stop)
    (hapart : live.Pairwise Block.Apart) : granules live ≤ stop := by
  have hnodup : (live.flatMap fun b => List.range' b.first (2 ^ b.order)).Nodup := by
    refine List.pairwise_flatMap.mpr ⟨fun b _ => List.nodup_range', hapart.imp ?_⟩
    intro a b hab x hx y hy he
    have hx' := List.mem_range'_1.mp hx
    have hy' := List.mem_range'_1.mp hy
    unfold Block.Apart Block.stop at hab
    omega
  have hsub : (live.flatMap fun b => List.range' b.first (2 ^ b.order)) ⊆ List.range stop := by
    intro x hx
    obtain ⟨b, hb, hx⟩ := List.mem_flatMap.mp hx
    have hx' := List.mem_range'_1.mp hx
    have hend := hstop b hb
    unfold Block.stop at hend
    exact List.mem_range.mpr (by omega)
  have hlen : ∀ l : List Block,
      (l.flatMap fun b => List.range' b.first (2 ^ b.order)).length = granules l := by
    intro l
    induction l with
    | nil => rfl
    | cons b rest ih => simp only [List.flatMap_cons, List.length_append, List.length_range', ih,
        granules]
  have hle := hnodup.length_le_of_subset hsub
  rwa [hlen, List.length_range] at hle

/-- There are at most as many blocks as granules. -/
theorem length_le_granules (live : List Block) : live.length ≤ granules live := by
  induction live with
  | nil => exact Nat.le_refl _
  | cons b rest ih =>
    have := Nat.two_pow_pos b.order
    simp only [List.length_cons, granules]
    omega

/-- Some of the blocks are no larger than all. -/
theorem granules_filter_le (live : List Block) (p : Block → Bool) :
    granules (live.filter p) ≤ granules live := by
  induction live with
  | nil => exact Nat.le_refl _
  | cons b rest ih =>
    rw [List.filter_cons]
    split
    · exact Nat.add_le_add_left ih _
    · exact Nat.le_trans ih (Nat.le_add_left _ _)

/-- The blocks of one order count as often as they occur. -/
theorem granules_filter_succ (live : List Block) (k : Nat) :
    granules (live.filter fun b => decide (b.order < k + 1)) =
      granules (live.filter fun b => decide (b.order < k)) +
        live.countP (fun b => b.order == k) * 2 ^ k := by
  induction live with
  | nil => simp [granules]
  | cons b rest ih =>
    rw [List.countP_cons, List.filter_cons, List.filter_cons]
    rcases Nat.lt_trichotomy b.order k with hlt | heq | hgt
    · have hne : (b.order == k) = false := by simpa using Nat.ne_of_lt hlt
      simp only [hlt, Nat.lt_succ_of_lt hlt, hne, decide_true, if_true, Bool.false_eq_true,
        if_false, granules, ih, Nat.add_zero]
      omega
    · subst heq
      simp only [Nat.lt_irrefl, Nat.lt_succ_self, decide_true, decide_false, beq_self_eq_true,
        if_true, Bool.false_eq_true, if_false, granules, ih, Nat.add_mul]
      omega
    · have hne : (b.order == k) = false := by simpa using Nat.ne_of_gt hgt
      have h1 : ¬ b.order < k := by omega
      have h2 : ¬ b.order < k + 1 := by omega
      simp only [h1, h2, hne, decide_false, Bool.false_eq_true, if_false, ih, Nat.add_zero]

/-- **Order by order.**  The blocks of the orders below `k`, added up one order after the other, -/
theorem sum_count_eq (live : List Block) (minSize k : Nat) :
    ((List.range k).map fun o =>
      live.countP (fun b => b.order == o) * (2 ^ o * minSize)).foldl (· + ·) 0 =
      bytes minSize (live.filter fun b => decide (b.order < k)) := by
  induction k with
  | zero =>
    rw [List.filter_eq_nil_iff.mpr fun b _ => by simp]
    simp [bytes, granules]
  | succ k ih =>
    rw [List.range_succ, List.map_append, List.foldl_append, ih, bytes, bytes,
      granules_filter_succ, Nat.add_mul, Nat.mul_assoc]
    rfl

/-- are no more than all blocks. -/
theorem sum_count_le (live : List Block) (minSize k : Nat) :
    ((List.range k).map fun o =>
      live.countP (fun b => b.order == o) * (2 ^ o * minSize)).foldl (· + ·) 0 ≤
      bytes minSize live := by
  rw [sum_count_eq]
  exact Nat.mul_le_mul_right _ (granules_filter_le live _)

/-- Adding up the counters with 64-bit words gives the bytes of all blocks. -/
theorem foldl_count_eq {live : List Block} {minSize k : Nat} (hk : ∀ b ∈ live, b.order < k) :
    (List.range k).foldl (fun sum o => sum + UInt64.ofNat (live.countP fun b => b.order == o) *
      .ofNat (2 ^ o * minSize)) 0 = .ofNat (bytes minSize live) := by
  have key : ∀ k, (List.range k).foldl (fun sum o => sum +
      UInt64.ofNat (live.countP fun b => b.order == o) * .ofNat (2 ^ o * minSize)) 0 =
        .ofNat (((List.range k).map fun o =>
          live.countP (fun b => b.order == o) * (2 ^ o * minSize)).foldl (· + ·) 0) := by
    intro k
    induction k with
    | zero => rfl
    | succ k ih =>
      rw [List.range_succ, List.foldl_append, ih, List.map_append, List.foldl_append,
        List.map_singleton, List.foldl_cons, List.foldl_nil, List.foldl_cons, List.foldl_nil,
        UInt64.ofNat_add, UInt64.ofNat_mul (live.countP _)]
  rw [key k, sum_count_eq, List.filter_eq_self.mpr fun b hb => by simpa using hk b hb]

end Blocks

/-! ## 2. What an index holds -/

namespace Metadata

variable {d : Nat} {m m' : Metadata d} {top : Nat} {live : List Block}

/-- The blocks that the index has, from left to right. -/
def indexed (m : Metadata d) : List Block :=
  (List.finRange (2 ^ d)).filterMap fun leaf =>
    (Node.ofId? d (m.entry leaf).toNat).map Node.block

theorem SameBooks.indexed (h : SameBooks m m') : m'.indexed = m.indexed := by
  rw [Metadata.indexed, Metadata.indexed, h.entry]

theorem Listed.mem_indexed_iff (h : m.Listed top) {b : Block} :
    b ∈ m.indexed ↔ ∃ n, m.Records n ∧ n.block = b := by
  simp only [indexed, List.mem_filterMap, Option.map_eq_some_iff]
  constructor
  · rintro ⟨leaf, -, n, hn, rfl⟩
    exact ⟨n, (h.records_of_entry hn).1, rfl⟩
  · rintro ⟨n, hn, rfl⟩
    exact ⟨n.firstLeaf, List.mem_finRange _, n, hn.ofId?_eq, rfl⟩

theorem Listed.nodup_indexed (h : m.Listed top) : m.indexed.Nodup := by
  refine List.pairwise_filterMap.mpr ((List.nodup_finRange _).imp fun hne => ?_)
  intro b hb b' hb' he
  obtain ⟨n, hn, rfl⟩ := Option.map_eq_some_iff.mp hb
  obtain ⟨n', hn', rfl⟩ := Option.map_eq_some_iff.mp hb'
  obtain rfl : n = n' := Node.block_inj he
  exact hne ((h.records_of_entry hn).2.symm.trans (h.records_of_entry hn').2)

/-- Different recorded blocks are apart from each other. -/
theorem Listed.pairwise_apart (h : m.Listed top)
    (hrec : ∀ b ∈ live, ∃ n, m.Records n ∧ n.block = b) (hnodup : live.Nodup) :
    live.Pairwise Block.Apart := by
  refine hnodup.imp_of_mem ?_
  intro a b ha hb hne
  obtain ⟨x, hx, rfl⟩ := hrec a ha
  obtain ⟨y, hy, rfl⟩ := hrec b hb
  refine Node.block_apart_iff.mpr ⟨fun hxy => ?_, fun hyx => ?_⟩
  · exact hne (by rw [h.within_eq hy hx hxy])
  · exact hne (by rw [h.within_eq hx hy hyx])

/-- **Together they are no larger than the tree.** -/
theorem Listed.granules_le (h : m.Listed top)
    (hrec : ∀ b ∈ live, ∃ n, m.Records n ∧ n.block = b) (hnodup : live.Nodup) :
    Blocks.granules live ≤ 2 ^ d := by
  refine Blocks.granules_le (fun b hb => ?_) (h.pairwise_apart hrec hnodup)
  obtain ⟨n, -, rfl⟩ := hrec b hb
  exact n.block_stop_le

/-- Their orders are those of the levels from the top level on. -/
theorem Listed.order_le (h : m.Listed top) {n : Node d} (hn : m.Records n) : n.order ≤ d - top := by
  have := h.level hn
  have := n.order_add_level
  omega

/-! ## 3. Mirroring metadata -/

/-- Live blocks are recorded ones. -/
theorem Mirrors.recorded (h : m.Mirrors top live) :
    ∀ b ∈ live, ∃ n, m.Records n ∧ n.block = b := by
  intro b hb
  obtain ⟨n, rfl⟩ := h.node b hb
  exact ⟨n, (h.mem n).mp hb, rfl⟩

theorem Mirrors.granules_le (h : m.Mirrors top live) : Blocks.granules live ≤ 2 ^ d :=
  h.toListed.granules_le h.recorded h.nodup

/-- There are at most as many live blocks as granules in the tree. -/
theorem Mirrors.length_le (h : m.Mirrors top live) : live.length ≤ 2 ^ d :=
  Nat.le_trans (Blocks.length_le_granules live) h.granules_le

theorem Mirrors.order_le (h : m.Mirrors top live) {b : Block} (hb : b ∈ live) :
    b.order ≤ d - top := by
  obtain ⟨n, hn, rfl⟩ := h.recorded b hb
  exact h.toListed.order_le hn

/-- **A counter** is the number of live blocks of its order. -/
theorem Counts.liveAt_eq (h : m.Counts live) {o : Nat} (ho : o ≤ d) :
    m.liveAt o = .ofNat (live.countP fun b => b.order == o) := by
  have hlt : o < d + 1 := by omega
  rw [liveAt, Vector.getElem?_eq_getElem hlt]
  exact h ⟨o, hlt⟩

/-- **Adding up** the counters gives the bytes of all blocks that they count, modulo `2 ^ 64`. -/
theorem Counts.usedMemory_eq (h : m.Counts live) {minSize maxOrder : Nat} (hmax : maxOrder ≤ d)
    (hle : ∀ b ∈ live, b.order ≤ maxOrder) :
    m.usedMemory minSize maxOrder = .ofNat (Blocks.bytes minSize live) := by
  rw [← Blocks.foldl_count_eq (k := maxOrder + 1) (fun b hb => Nat.lt_succ_of_le (hle b hb)),
    usedMemory]
  refine List.foldl_rel (r := Eq) rfl fun o ho sum sum' hs => ?_
  rw [hs, h.liveAt_eq (by have := List.mem_range.mp ho; omega)]

theorem Mirrors.liveAt_toNat (h : m.Mirrors top live) (hd : d ≤ maxDepth) {o : Nat} (ho : o ≤ d) :
    (m.liveAt o).toNat = live.countP fun b => b.order == o := by
  have hle : live.countP (fun b => b.order == o) ≤ 2 ^ maxDepth :=
    Nat.le_trans List.countP_le_length
      (Nat.le_trans h.length_le (Nat.pow_le_pow_right Nat.two_pos hd))
  rw [Counts.liveAt_eq h.count ho, UInt64.toNat_ofNat_of_lt']
  exact Nat.lt_of_le_of_lt hle (by decide)

/-- **The bytes in use** are those of the live blocks, and never more than the region has. -/
theorem Mirrors.usedMemory_toNat (h : m.Mirrors top live) {minSize : Nat}
    (hfit : 2 ^ d * minSize < addressLimit) :
    (m.usedMemory minSize (d - top)).toNat = Blocks.bytes minSize live ∧
      Blocks.bytes minSize live ≤ 2 ^ d * minSize := by
  have hle : Blocks.bytes minSize live ≤ 2 ^ d * minSize :=
    Nat.mul_le_mul_right _ h.granules_le
  refine ⟨?_, hle⟩
  rw [Counts.usedMemory_eq h.count (Nat.sub_le _ _) fun b hb => h.order_le hb,
    UInt64.toNat_ofNat_of_lt']
  exact Nat.lt_of_le_of_lt hle hfit

end Metadata
end BuddyTree
