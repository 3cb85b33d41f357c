/-
# What a check of the tree finds

The check judges each node by itself and its two children.  The local rules add up: they hold at
every node exactly if the tree shows a set of blocks, each of them busy with nothing in use below
it, where every other node is occupied on just the sides on which a block lies, at any depth.  The
way down is long, the check looks only one level ahead; so the rules are read from the leaves up.

The main facts: `fault?_eq_none_iff` (the local rules), `Faultless.isFree_eq_false_iff` (what they
add up to), `faultless_iff_depicts` (the trees without faults), and `check_decides` (what the check
accepts, and what it reports).
-/
import BuddyTree.Audit
import BuddyTree.Proofs.Occupancy

namespace BuddyTree

variable {d : Nat}

/-! ## 1. Children -/

namespace Node

theorem child?_of_child {a c : Node d} {s : Side} (h : c.id = NodeId.child a.id s) :
    a.child? s = some c := by
  have hleft : NodeId.leftChild a.id = 2 * a.id := by
    rw [NodeId.leftChild, Nat.shiftLeft_eq, Nat.pow_one, Nat.mul_comm]
  have hc := c.lt
  have hpos := c.pos
  cases s with
  | left =>
    rw [NodeId.child] at h
    rw [child?, hleft, ofId?, dif_pos ⟨by omega, by omega⟩]
    exact congrArg some (Node.ext h.symm)
  | right =>
    rw [NodeId.child] at h
    rw [child?, hleft, ofId?, dif_pos ⟨by omega, by omega⟩]
    exact congrArg some (Node.ext h.symm)

theorem child?_leaf {a : Node d} (h : a.level = d) (s : Side) : a.child? s = none := by
  have hleft : NodeId.leftChild a.id = 2 * a.id := by
    rw [NodeId.leftChild, Nat.shiftLeft_eq, Nat.pow_one, Nat.mul_comm]
  have hlo := (NodeId.level_bounds a.pos).1
  rw [show NodeId.level a.id = d from h] at hlo
  have hpow : 2 ^ (d + 1) = 2 * 2 ^ d := Nat.pow_succ'
  cases s <;> rw [child?, hleft, ofId?, dif_neg (by omega)]

/-- What holds for both children holds for every child. -/
theorem forall_child {a l r : Node d} (hl : l.id = NodeId.child a.id .left)
    (hr : r.id = NodeId.child a.id .right) {P : Side → Node d → Prop} :
    (∀ s c, c.id = NodeId.child a.id s → P s c) ↔ P .left l ∧ P .right r := by
  constructor
  · exact fun h => ⟨h .left l hl, h .right r hr⟩
  · rintro ⟨h1, h2⟩ s c hc
    cases s with
    | left => rwa [Node.ext (hc.trans hl.symm)]
    | right => rwa [Node.ext (hc.trans hr.symm)]

end Node

/-! ## 2. The rules for one node -/

namespace Status

@[simp] theorem isCoalescing_settled (s : Status) (c : Side) :
    s.settled.isCoalescing c = false := by
  cases c <;> simp [isCoalescing]

theorem Plain.settled {s : Status} (h : s.Plain) : s.settled.Plain :=
  (h.withdraw _).withdraw _

/-- Without unused bits, a byte is free exactly if it has nothing but coalescing flags. -/
theorem Plain.settled_eq_clear_iff {s : Status} (h : s.Plain) :
    s.settled = .clear ↔ s.isFree = true := by
  constructor
  · intro hs
    rw [← isFree_settled, hs]
    rfl
  · intro hs
    obtain ⟨hb, hocc⟩ := (isFree_iff s).mp hs
    refine h.settled.ext plain_clear fun f => ?_
    cases f with
    | block => simp [hb]
    | occupied c => simpa [isOccupied] using hocc c
    | coalescing c => simpa [isCoalescing] using isCoalescing_settled s c

end Status

namespace Tree

variable {t : Tree d} {top : Nat} {n : Node d}

/-- What a node has to look like, judged by itself and its children.  Coalescing flags are left
out. -/
structure Regular (t : Tree d) (top : Nat) (n : Node d) : Prop where
  /-- Above the level `top` it is zero. -/
  above : n.level < top → (t.get n).settled = .clear
  /-- With a block flag it is fully busy, -/
  busy : (t.get n).has .block = true → (t.get n).settled = .busy
  /-- and both its children are zero. -/
  empty : (t.get n).has .block = true →
    ∀ s c, c.id = NodeId.child n.id s → (t.get c).settled = .clear
  /-- Without one it is zero if it is a leaf, -/
  leaf : (t.get n).has .block = false → n.level = d → (t.get n).settled = .clear
  /-- and otherwise it is occupied on the sides on which its child is not free. -/
  inner : (t.get n).has .block = false → top ≤ n.level →
    ∀ s c, c.id = NodeId.child n.id s → (t.get n).isOccupied s = !(t.get c).isFree

/-- A block needs empty children; any other node has to agree with them. -/
theorem childFault?_eq_none_iff {s : Side} {c : Node d} :
    t.childFault? (t.get n).settled s c = none ↔
      ((t.get n).has .block = true → (t.get c).settled = .clear) ∧
        ((t.get n).has .block = false → (t.get n).isOccupied s = !(t.get c).isFree) := by
  have hblock : (t.get n).settled.has .block = (t.get n).has .block := by simp
  simp only [childFault?, hblock, Status.isFree_settled, Status.isOccupied_settled]
  cases (t.get n).has .block <;> cases (t.get c).isFree <;> cases (t.get n).isOccupied s <;> simp

/-- A node above the level `top` follows the rules if it is zero. -/
theorem fault?_eq_none_iff_of_above (hl : n.level < top) :
    t.fault? top n = none ↔ t.Regular top n := by
  have hfault : t.fault? top n = none ↔ (t.get n).settled = .clear := by
    simp only [fault?, if_pos hl]
    split <;> simp [*]
  rw [hfault]
  refine ⟨fun hz => ?_, fun h => h.above hl⟩
  have hno : (t.get n).has .block ≠ true := by
    have hblock : (t.get n).settled.has .block = (t.get n).has .block := by simp
    rw [← hblock, hz, Status.has_clear]
    exact Bool.false_ne_true
  exact ⟨fun _ => hz, fun hb => absurd hb hno, fun hb => absurd hb hno, fun _ _ => hz,
    fun _ h => absurd hl (Nat.not_lt.mpr h)⟩

/-- A leaf has no children to agree with. -/
theorem fault?_eq_none_iff_of_leaf (hl : top ≤ n.level) (hd : n.level = d) :
    t.fault? top n = none ↔ t.Regular top n := by
  have hnochild : ∀ s c, ¬ (c : Node d).id = NodeId.child n.id s := by
    intro s c hc
    have := Node.level_of_child hc
    have := c.level_le
    omega
  have hfault : t.fault? top n = none ↔
      ((t.get n).has .block = true → (t.get n).settled = .busy) ∧
        ((t.get n).has .block = false → (t.get n).settled = .clear) := by
    have hblock : (t.get n).settled.has .block = (t.get n).has .block := by simp
    simp only [fault?, if_neg (Nat.not_lt.mpr hl), hblock, Node.child?_leaf hd]
    cases (t.get n).has .block <;> simp
  rw [hfault]
  constructor
  · rintro ⟨hbusy, hclear⟩
    exact ⟨fun h => absurd hl (Nat.not_le.mpr h), hbusy, fun _ s c hc => absurd hc (hnochild s c),
      fun hb _ => hclear hb, fun _ _ s c hc => absurd hc (hnochild s c)⟩
  · exact fun h => ⟨h.busy, fun hb => h.leaf hb hd⟩

/-- Any other node is tested against both children. -/
theorem fault?_eq_none_iff_of_inner (hl : top ≤ n.level) (hd : n.level < d) :
    t.fault? top n = none ↔ t.Regular top n := by
  obtain ⟨x, hx⟩ := Node.exists_child hd .left
  obtain ⟨y, hy⟩ := Node.exists_child hd .right
  have hfault : t.fault? top n = none ↔
      ((t.get n).has .block = true → (t.get n).settled = .busy) ∧
        t.childFault? (t.get n).settled .left x = none ∧
          t.childFault? (t.get n).settled .right y = none := by
    have hblock : (t.get n).settled.has .block = (t.get n).has .block := by simp
    simp only [fault?, if_neg (Nat.not_lt.mpr hl), hblock, Node.child?_of_child hx,
      Node.child?_of_child hy]
    cases (t.get n).has .block <;> by_cases hbusy : (t.get n).settled = .busy <;> simp [hbusy]
  rw [hfault, childFault?_eq_none_iff, childFault?_eq_none_iff]
  constructor
  · rintro ⟨hbusy, ⟨hx1, hx2⟩, hy1, hy2⟩
    exact ⟨fun h => absurd hl (Nat.not_le.mpr h), hbusy,
      fun hb => (Node.forall_child hx hy).mpr ⟨hx1 hb, hy1 hb⟩, fun _ h => absurd h (by omega),
      fun hb _ => (Node.forall_child hx hy).mpr ⟨hx2 hb, hy2 hb⟩⟩
  · intro h
    exact ⟨h.busy, ⟨fun hb => h.empty hb .left x hx, fun hb => h.inner hb hl .left x hx⟩,
      fun hb => h.empty hb .right y hy, fun hb => h.inner hb hl .right y hy⟩

/-- **Nothing is wrong with a node** exactly if it follows the rules. -/
theorem fault?_eq_none_iff : t.fault? top n = none ↔ t.Regular top n := by
  by_cases hl : n.level < top
  · exact fault?_eq_none_iff_of_above hl
  · have hle := n.level_le
    by_cases hd : n.level = d
    · exact fault?_eq_none_iff_of_leaf (by omega) hd
    · exact fault?_eq_none_iff_of_inner (by omega) (by omega)

/-! ## 3. Trees without faults -/

/-- No node breaks a rule, and no byte has an unused bit. -/
structure Faultless (t : Tree d) (top : Nat) : Prop where
  plain : ∀ n, (t.get n).Plain
  regular : ∀ n, t.Regular top n

namespace Faultless

variable {c : Node d} {s : Side}

/-- Block flags stand on the levels for blocks only. -/
theorem le_level (h : t.Faultless top) (hn : (t.get n).has .block = true) : top ≤ n.level := by
  refine Nat.le_of_not_lt fun hlt => ?_
  have hblock : (t.get n).settled.has .block = true := by simpa using hn
  rw [(h.regular n).above hlt, Status.has_clear] at hblock
  cases hblock

/-- **Something is in use** exactly at and above the nodes with a block flag. -/
theorem isFree_eq_false_iff (h : t.Faultless top) (hl : top ≤ n.level) :
    (t.get n).isFree = false ↔ ∃ b, (t.get b).has .block = true ∧ b.Within n := by
  obtain ⟨k, hk⟩ : ∃ k, n.level + k = d := ⟨d - n.level, by have := n.level_le; omega⟩
  induction k generalizing n with
  | zero =>
    have hnone : ∀ b, b.Within n ↔ b = n := fun b => Node.within_iff_eq_or_inHalf.trans
      (or_iff_left fun ⟨s, hin⟩ => Node.not_inHalf_leaf (by omega) s hin)
    simp only [hnone, exists_eq_right]
    by_cases hn : (t.get n).has .block = true
    · exact iff_of_true ((Status.isFree_eq_false_iff _).mpr (.inl hn)) hn
    · refine iff_of_false ?_ hn
      rw [← Status.isFree_settled, (h.regular n).leaf ((Bool.not_eq_true _).mp hn) (by omega)]
      decide
  | succ k ih =>
    rw [Status.isFree_eq_false_iff]
    by_cases hn : (t.get n).has .block = true
    · exact iff_of_true (.inl hn) ⟨n, hn, Node.within_self n⟩
    · have hd : n.level < d := by omega
      have hinner := (h.regular n).inner ((Bool.not_eq_true _).mp hn) hl
      have hocc : ∀ s, (t.get n).isOccupied s = true ↔
          Houses (fun b => (t.get b).has .block = true) n s := by
        intro s
        obtain ⟨c, hc⟩ := Node.exists_child hd s
        have hlevel := Node.level_of_child hc
        simp only [Houses, Node.inHalf_iff_of_child hc]
        rw [← ih (n := c) (by omega) (by omega), hinner s c hc, Bool.not_eq_true']
      rw [or_iff_right hn, exists_within_iff hn]
      exact exists_congr hocc

/-- Nothing with a block flag lies below anything with one. -/
theorem apart (h : t.Faultless top) {a b : Node d} (ha : (t.get a).has .block = true)
    (hb : (t.get b).has .block = true) : ¬ b.InHalf a s := by
  intro hin
  have hl := h.le_level ha
  have hd : a.level < d := by
    have := hin.level_lt
    have := b.level_le
    omega
  obtain ⟨c, hc⟩ := Node.exists_child hd s
  have hlevel := Node.level_of_child hc
  have hfree := (h.isFree_eq_false_iff (n := c) (by omega)).mpr
    ⟨b, hb, (Node.inHalf_iff_of_child hc).mp hin⟩
  rw [← Status.isFree_settled, (h.regular a).empty ha s c hc] at hfree
  exact absurd hfree (by decide)

/-- A node without one is occupied where one lies below. -/
theorem isOccupied_iff (h : t.Faultless top) (hn : (t.get n).has .block = false)
    (hl : top ≤ n.level) :
    (t.get n).isOccupied s = true ↔ Houses (fun b => (t.get b).has .block = true) n s := by
  by_cases hd : n.level < d
  · obtain ⟨c, hc⟩ := Node.exists_child hd s
    have hlevel := Node.level_of_child hc
    have hfree := h.isFree_eq_false_iff (n := c) (by omega)
    rw [(h.regular n).inner hn hl s c hc, Bool.not_eq_true', hfree]
    simp only [Houses, Node.inHalf_iff_of_child hc]
  · have hleaf : n.level = d := by have := n.level_le; omega
    refine iff_of_false ?_ ?_
    · rw [← Status.isOccupied_settled, (h.regular n).leaf hn hleaf]
      simp
    · rintro ⟨b, -, hin⟩
      exact Node.not_inHalf_leaf hleaf s hin

end Faultless

/-! ## 4. Trees that show their blocks -/

/-- Without its coalescing flags, the tree shows a set of blocks and everything above them. -/
structure Depicts (t : Tree d) (top : Nat) (blocks : Node d → Prop) : Prop where
  /-- The blocks lie on the levels for blocks, -/
  level : ∀ n, blocks n → top ≤ n.level
  /-- none of them above another. -/
  apart : ∀ a b s, blocks a → blocks b → ¬ b.InHalf a s
  /-- Each of them is busy. -/
  busy : ∀ n, blocks n → (t.get n).settled = .busy
  /-- Any other node on these levels has no block flag, -/
  vacant : ∀ n, top ≤ n.level → ¬ blocks n → (t.get n).has .block = false
  /-- and it is occupied on the sides on which a block lies. -/
  occupied : ∀ n, top ≤ n.level → ¬ blocks n →
    ∀ s, (t.get n).isOccupied s = true ↔ ∃ b, blocks b ∧ b.InHalf n s
  /-- Above these levels there is nothing. -/
  above : ∀ n, n.level < top → (t.get n).settled = .clear

/-- **A tree without faults** shows the nodes with a block flag. -/
theorem Faultless.depicts (h : t.Faultless top) :
    t.Depicts top fun n => (t.get n).has .block = true where
  level := fun _ hn => h.le_level hn
  apart := fun _ _ _ ha hb => h.apart ha hb
  busy := fun n hn => (h.regular n).busy hn
  vacant := fun _ _ hn => (Bool.not_eq_true _).mp hn
  occupied := fun _ hl hn _ => h.isOccupied_iff ((Bool.not_eq_true _).mp hn) hl
  above := fun n hl => (h.regular n).above hl

namespace Depicts

variable {blocks : Node d → Prop} {s : Side}

/-- The blocks are the nodes with a block flag. -/
theorem has_block_iff (h : t.Depicts top blocks) : (t.get n).has .block = true ↔ blocks n := by
  have hsettled : (t.get n).settled.has .block = (t.get n).has .block := by simp
  constructor
  · intro hn
    by_cases hl : top ≤ n.level
    · exact Classical.not_not.mp fun hno => by
        rw [h.vacant n hl hno] at hn
        cases hn
    · rw [← hsettled, h.above n (by omega), Status.has_clear] at hn
      cases hn
  · intro hn
    rw [← hsettled, h.busy n hn]
    rfl

/-- A node is free unless it is a block or lies above one. -/
theorem isFree_eq_false_iff (h : t.Depicts top blocks) (hl : top ≤ n.level) :
    (t.get n).isFree = false ↔ ∃ b, blocks b ∧ b.Within n := by
  rw [Status.isFree_eq_false_iff, h.has_block_iff]
  by_cases hn : blocks n
  · exact iff_of_true (.inl hn) ⟨n, hn, Node.within_self n⟩
  · rw [or_iff_right hn, exists_within_iff hn]
    exact exists_congr (h.occupied n hl hn)

/-- Where there is no block flag there is no block. -/
theorem not_block (h : t.Depicts top blocks) (hn : (t.get n).has .block = false) : ¬ blocks n :=
  fun hb => by
    rw [h.has_block_iff.mpr hb] at hn
    cases hn

/-- **Then every node follows the rules.** -/
theorem regular (h : t.Depicts top blocks) (hplain : ∀ n, (t.get n).Plain) (n : Node d) :
    t.Regular top n where
  above := h.above n
  busy := fun hn => h.busy n (h.has_block_iff.mp hn)
  empty := by
    intro hn s c hc
    have hb := h.has_block_iff.mp hn
    have hl := h.level n hb
    have hlevel := Node.level_of_child hc
    refine (hplain c).settled_eq_clear_iff.mpr ((Bool.not_eq_false _).mp fun hfree => ?_)
    obtain ⟨b, hb', hin⟩ := (h.isFree_eq_false_iff (by omega)).mp hfree
    exact h.apart n b s hb hb' ((Node.inHalf_iff_of_child hc).mpr hin)
  leaf := by
    intro hn hd
    by_cases hl : top ≤ n.level
    · refine (hplain n).settled_eq_clear_iff.mpr ((Bool.not_eq_false _).mp fun hfree => ?_)
      obtain ⟨s, b, -, hin⟩ :=
        (exists_within_iff (h.not_block hn)).mp ((h.isFree_eq_false_iff hl).mp hfree)
      exact Node.not_inHalf_leaf hd s hin
    · exact h.above n (by omega)
  inner := by
    intro hn hl s c hc
    have hlevel := Node.level_of_child hc
    have hfree := h.isFree_eq_false_iff (n := c) (by omega)
    have hocc := h.occupied n hl (h.not_block hn) s
    simp only [Node.inHalf_iff_of_child hc] at hocc
    rw [← hocc] at hfree
    generalize (t.get c).isFree = free at hfree ⊢
    generalize (t.get n).isOccupied s = occupied at hfree ⊢
    cases free <;> cases occupied <;> simp at hfree ⊢

end Depicts

/-- **The trees without faults** are the trees that show a set of blocks. -/
theorem faultless_iff_depicts (hplain : ∀ n, (t.get n).Plain) :
    t.Faultless top ↔ ∃ blocks, t.Depicts top blocks :=
  ⟨fun h => ⟨_, h.depicts⟩, fun ⟨_, h⟩ => ⟨hplain, h.regular hplain⟩⟩

end Tree

/-! ## 5. The check -/

section Check

variable {r : Region} {m : Metadata r.depth}

/-- The check succeeds if every node follows the rules. -/
theorem check_eq_ok_iff_regular :
    (⟨r, m⟩ : Allocator).check = .ok () ↔ ∀ n, m.tree.Regular r.geometry.baseLevel n := by
  have haudit : m.tree.audit r.geometry.baseLevel = none ↔
      ∀ n, m.tree.Regular r.geometry.baseLevel n := by
    simp only [← Tree.fault?_eq_none_iff]
    exact Tree.auditFrom_eq_none_iff.trans ⟨fun h n => h n n.pos, fun h n _ => h n⟩
  rw [← haudit]
  unfold Allocator.check
  cases m.tree.audit r.geometry.baseLevel <;> simp

/-- Otherwise it reports the first node that does not. -/
theorem check_eq_error_iff {v : Violation} :
    (⟨r, m⟩ : Allocator).check = .error v ↔ ∃ n : Node r.depth, v.node = n.id ∧
      v.status = m.tree.get n ∧ m.tree.fault? r.geometry.baseLevel n = some v.fault ∧
        ∀ k : Node r.depth, k.id < n.id → m.tree.Regular r.geometry.baseLevel k := by
  have haudit : ∀ n f, m.tree.audit r.geometry.baseLevel = some (n, f) ↔
      m.tree.fault? r.geometry.baseLevel n = some f ∧
        ∀ k : Node r.depth, k.id < n.id → m.tree.Regular r.geometry.baseLevel k := by
    intro n f
    simp only [← Tree.fault?_eq_none_iff]
    refine Tree.auditFrom_eq_some_iff.trans ⟨fun h => ⟨h.2.1, fun k => h.2.2 k k.pos⟩, fun h => ?_⟩
    exact ⟨n.pos, h.1, fun k _ => h.2 k⟩
  have hcheck : (⟨r, m⟩ : Allocator).check = .error v ↔
      ∃ n, m.tree.audit r.geometry.baseLevel = some (n, v.fault) ∧
        v = ⟨n.id, m.tree.get n, v.fault⟩ := by
    unfold Allocator.check
    dsimp only
    split
    · next h => simp [h]
    · next n f h =>
      rw [h, Except.error.injEq]
      constructor
      · rintro rfl
        exact ⟨n, rfl, rfl⟩
      · rintro ⟨n', he, hv⟩
        obtain ⟨rfl, rfl⟩ := Prod.mk.inj (Option.some.inj he)
        exact hv.symm
  rw [hcheck]
  constructor
  · rintro ⟨n, hn, hv⟩
    exact ⟨n, congrArg Violation.node hv, congrArg Violation.status hv, (haudit n _).mp hn⟩
  · rintro ⟨n, hid, hstatus, hn⟩
    refine ⟨n, (haudit n _).mpr hn, ?_⟩
    obtain ⟨node, status, fault⟩ := v
    obtain rfl : node = n.id := hid
    obtain rfl : status = m.tree.get n := hstatus
    rfl

/-- **The check decides whether the tree shows a set of blocks.**  What it reports is the first node
that breaks a rule, with its whole byte. -/
theorem check_decides (hplain : ∀ n, (m.tree.get n).Plain) :
    ((⟨r, m⟩ : Allocator).check = .ok () ↔
        ∃ blocks, m.tree.Depicts r.geometry.baseLevel blocks) ∧
      ((⟨r, m⟩ : Allocator).check = .ok () ↔ ∀ n, m.tree.Regular r.geometry.baseLevel n) ∧
      ∀ v, (⟨r, m⟩ : Allocator).check = .error v →
        ∃ n : Node r.depth, v.node = n.id ∧ v.status = m.tree.get n ∧
          ¬ m.tree.Regular r.geometry.baseLevel n ∧
          ∀ k : Node r.depth, k.id < n.id → m.tree.Regular r.geometry.baseLevel k := by
  refine ⟨?_, check_eq_ok_iff_regular, fun v hv => ?_⟩
  · rw [← Tree.faultless_iff_depicts hplain, check_eq_ok_iff_regular]
    exact ⟨fun h => ⟨hplain, h⟩, fun h => h.regular⟩
  · obtain ⟨n, hid, hstatus, hfault, hmin⟩ := check_eq_error_iff.mp hv
    refine ⟨n, hid, hstatus, fun hreg => ?_, hmin⟩
    rw [Tree.fault?_eq_none_iff.mpr hreg] at hfault
    cases hfault

/-- The upper half is a block, and a release is announced in the lower half, where nothing is. -/
theorem check_decides_of_upper :
    let r : Region := ⟨4096, ⟨1, 2, 0⟩⟩
    let root : Node r.depth := ⟨1, by decide, by decide⟩
    let lower : Node r.depth := ⟨2, by decide, by decide⟩
    let upper : Node r.depth := ⟨3, by decide, by decide⟩
    let t := ((Tree.blank r.depth).set root (Status.clear.mark .right)).set upper .busy
    let m := (Metadata.blank r.depth).mapTree fun _ => t.set lower (Status.clear.announce .left)
    (⟨r, m⟩ : Allocator).check = .ok () ∧ ∃ blocks, m.tree.Depicts r.geometry.baseLevel blocks := by
  intro r root lower upper t m
  have hplain : ∀ n, (m.tree.get n).Plain := fun n => by
    simp only [m, t, Metadata.tree_mapTree, Tree.get_set]
    split
    · exact Status.plain_clear.announce _
    · split
      · exact Status.plain_busy
      · split
        · exact Status.plain_clear.mark _
        · exact (Tree.get_blank n).symm ▸ Status.plain_clear
  have haudit : m.tree.audit r.geometry.baseLevel = none := by decide +kernel
  have hok : (⟨r, m⟩ : Allocator).check = .ok () := by
    unfold Allocator.check
    dsimp only
    rw [haudit]
  exact ⟨hok, (check_decides hplain).1.mp hok⟩

end Check

end BuddyTree
