/-
# What a scan leaves out

Where a claim is refused, the scan goes on behind the node that refused it, and leaves out what lies
in between.  The nodes of one level below a node are numbered without a gap, so what is left out is
known by its two ends: all of it lies below the node that refused, and nothing that lies there is
still ahead of the scan.

The main facts: the nodes of a level below a node are an interval of numbers (`Node.belowAt_eq_Ico`);
a skip ends where that interval does, so it leaves out no more and no less than that
(`Node.skips_skipPast`), wherever a claim is refused (`skips_of_claim`); and `skip_exact`.
-/
import Mathlib.Order.Bounds.Defs
import Mathlib.Order.Interval.Set.Defs
import Mathlib.Order.Nat
import BuddyTree.Proofs.Scanning
import BuddyTree.Proofs.Wrapping

namespace BuddyTree

namespace NodeId

/-- The numbers that a scan of level `l` can be at: the nodes of the level from left to right, and
then the number at which the level has ended. -/
def scanned (l : Nat) : Set Nat :=
  Set.Icc (levelStart l) (levelStart (l + 1))

/-- The numbers whose ancestor `k` levels up is `m`. -/
theorem mem_Ico_iff_up_eq {x m k : Nat} :
    x ∈ Set.Ico (m * 2 ^ k) ((m + 1) * 2 ^ k) ↔ up x k = m := by
  have hpos := Nat.two_pow_pos k
  rw [Set.mem_Ico, up_eq_div, ← Nat.le_div_iff_mul_le hpos, ← Nat.div_lt_iff_lt_mul hpos]
  omega

end NodeId

namespace Node

variable {d l : Nat} {n f : Node d}

/-! ## 1. A level below a node -/

/-- The numbers of the nodes of level `l` that lie within `f`. -/
def belowAt (f : Node d) (l : Nat) : Set Nat :=
  {x | ∃ b : Node d, b.id = x ∧ b.level = l ∧ b.Within f}

/-- What lies `k` levels below `f` lies between the ends of that level. -/
theorem id_mul_two_pow_bounds (f : Node d) (k : Nat) :
    2 ^ (f.level + k) ≤ f.id * 2 ^ k ∧ (f.id + 1) * 2 ^ k ≤ 2 ^ (f.level + k + 1) := by
  obtain ⟨hlo, hhi⟩ := NodeId.level_bounds f.pos
  rw [Nat.add_right_comm, Nat.pow_add, Nat.pow_add]
  exact ⟨Nat.mul_le_mul_right _ hlo, Nat.mul_le_mul_right _ hhi⟩

/-- **Without a gap.**  The nodes of a level that lie within `f` are those from the leftmost one to
the rightmost one. -/
theorem belowAt_eq_Ico (h : f.level ≤ l) (hl : l ≤ d) :
    f.belowAt l = Set.Ico (f.id * 2 ^ (l - f.level)) ((f.id + 1) * 2 ^ (l - f.level)) := by
  ext x
  constructor
  · rintro ⟨b, rfl, rfl, hb⟩
    exact NodeId.mem_Ico_iff_up_eq.mpr (within_iff.mp hb).2
  · intro hx
    obtain ⟨hstart, hstop⟩ := f.id_mul_two_pow_bounds (l - f.level)
    rw [Nat.add_sub_cancel' h] at hstart hstop
    have hlo : 2 ^ l ≤ x := Nat.le_trans hstart hx.1
    have hhi : x < 2 ^ (l + 1) := Nat.lt_of_lt_of_le hx.2 hstop
    have hpos : 0 < x := Nat.lt_of_lt_of_le (Nat.two_pow_pos l) hlo
    have hend : 2 ^ (l + 1) ≤ 2 ^ (d + 1) :=
      Nat.pow_le_pow_right Nat.two_pos (Nat.succ_le_succ hl)
    let b : Node d := ⟨x, hpos, Nat.lt_of_lt_of_le hhi hend⟩
    have hb : b.level = l := (NodeId.level_eq_iff hpos).mpr ⟨hlo, hhi⟩
    refine ⟨b, rfl, hb, within_iff.mpr ⟨hb ▸ h, ?_⟩⟩
    rw [hb]
    exact NodeId.mem_Ico_iff_up_eq.mp hx

/-! ## 2. The skip -/

/-- A skip ends where the part of the level that lies within `f` does. -/
theorem belowAt_eq_Ico_skipPast (h : n.Within f) :
    f.belowAt n.level =
      Set.Ico (f.id * 2 ^ (n.level - f.level)) (NodeId.skipPast n.id f.id) := by
  rw [belowAt_eq_Ico h.level_le n.level_le, NodeId.skipPast, Nat.shiftLeft_eq]
  rfl

theorem self_mem_belowAt (h : n.Within f) : n.id ∈ f.belowAt n.level :=
  ⟨n, rfl, rfl, h⟩

/-- From `n` on, the skip passes over what lies within `f` and stops at the rest. -/
theorem mem_belowAt_iff_lt_skipPast (h : n.Within f) {x : Nat} (hx : n.id ≤ x) :
    x ∈ f.belowAt n.level ↔ x < NodeId.skipPast n.id f.id := by
  have hself := self_mem_belowAt h
  rw [belowAt_eq_Ico_skipPast h] at hself ⊢
  exact and_iff_right (Nat.le_trans hself.1 hx)

theorem lt_skipPast (h : n.Within f) : n.id < NodeId.skipPast n.id f.id :=
  (mem_belowAt_iff_lt_skipPast h (Nat.le_refl _)).mp (self_mem_belowAt h)

/-- **The next number outside `f`** is where the scan goes on. -/
theorem isLeast_skipPast (h : n.Within f) :
    IsLeast {x ∈ NodeId.scanned n.level | n.id < x ∧ x ∉ f.belowAt n.level}
      (NodeId.skipPast n.id f.id) := by
  have hafter := lt_skipPast h
  constructor
  · refine ⟨⟨?_, ?_⟩, hafter, fun hmem => ?_⟩
    · rw [NodeId.levelStart_eq]
      exact Nat.le_trans (NodeId.level_bounds n.pos).1 (Nat.le_of_lt hafter)
    · rw [NodeId.levelStart_eq]
      exact skipPast_le h
    · exact Nat.lt_irrefl _ ((mem_belowAt_iff_lt_skipPast h (Nat.le_of_lt hafter)).mp hmem)
  · rintro x ⟨-, hx, hout⟩
    rw [mem_belowAt_iff_lt_skipPast h (Nat.le_of_lt hx)] at hout
    exact Nat.le_of_not_lt hout

/-- A scan that goes on at `next` after `n` leaves out what lies within `f`, and nothing else. -/
structure Skips (n f : Node d) (next : Nat) : Prop where
  /-- It goes on at the first number behind `n` that has no node within `f`, -/
  least : IsLeast {x ∈ NodeId.scanned n.level | n.id < x ∧ x ∉ f.belowAt n.level} next
  /-- further to the right, -/
  after : n.id < next
  /-- where its level has ended at the latest, -/
  le_end : next ≤ 2 ^ (n.level + 1)
  /-- and all that it leaves out, `n` included, are nodes of its level within `f`. -/
  left_out : ∀ x, n.id ≤ x → x < next → ∃ b : Node d, b.id = x ∧ b.level = n.level ∧ b.Within f

/-- **No more and no less** than what lies within `f` is left out. -/
theorem skips_skipPast (h : n.Within f) : n.Skips f (NodeId.skipPast n.id f.id) where
  least := isLeast_skipPast h
  after := lt_skipPast h
  le_end := skipPast_le h
  left_out _ hx hlt := (mem_belowAt_iff_lt_skipPast h hx).mpr hlt

end Node

variable {d : Nat} {ε : Type}

/-- Wherever a claim is refused, by whatever node, a scan leaves out what lies within that node. -/
theorem skips_of_claim {obs : Observer d ε} {n f : Node d} {top : Nat} {w w' : World d ε}
    (hc : claim obs n top w = (some f, w')) : n.Skips f (NodeId.skipPast n.id f.id) :=
  Node.skips_skipPast (within_of_claim_eq_some hc)

/-! ## 3. In words -/

/-- **A skip is exact,** in trees of up to 32 levels, for each node and whatever of its ancestors
refused it, or the node itself: it leads to the first number of the level further to the right that
is not below the node that refused, or else to the end of the level, and no step of its computation
in words of 64 bits wraps. -/
theorem skip_exact (hd : d ≤ maxDepth) {n f : Node d} (h : n.Within f) :
    let next := NodeId.skipPast n.id f.id
    n.Skips f next ∧ NodeId.SkipFits n.id f.id ∧
      (NodeId.Wrapping.skipPast n.word f.word).toNat = next :=
  ⟨Node.skips_skipPast h, Node.skipFits hd h, Node.toNat_skipPast hd h⟩

/-- The last leaf but one of the deepest tree is refused by the right child of the root.  The scan
has ended then, at a number that has 33 bits. -/
theorem skip_exact_of_rightmost :
    let n : Node 31 := ⟨2 ^ (32 : Nat) - 2, by decide, by decide⟩
    let f : Node 31 := ⟨3, by decide, by decide⟩
    31 ≤ maxDepth ∧ n.Within f ∧ n.Skips f (2 ^ (32 : Nat)) ∧ NodeId.SkipFits n.id f.id ∧
      (NodeId.Wrapping.skipPast n.word f.word).toNat = 2 ^ (32 : Nat) := by
  intro n f
  have hwithin : n.Within f := ⟨30, by decide⟩
  have hnext : NodeId.skipPast n.id f.id = 2 ^ (32 : Nat) := by decide
  have hskip := skip_exact (Nat.le_refl maxDepth) hwithin
  rw [hnext] at hskip
  exact ⟨Nat.le_refl maxDepth, hwithin, hskip⟩

end BuddyTree
