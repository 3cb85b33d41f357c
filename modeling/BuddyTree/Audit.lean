/-
# Checking a tree

At rest, the flags of a tree agree with each other, and every node can be judged by itself and its
two children:

* above the base level every node is zero;
* a node with the block flag is busy, and both its children are zero;
* any other leaf is zero;
* any other node is occupied on exactly those sides whose child is not free.

Coalescing flags are left out of this: a release that met an allocation can leave one behind, where
it may outlast other releases, and it says nothing about which blocks are live.  `Tree.fault?` judges
one node, and `Tree.audit` finds the first faulty one.

The main facts: coalescing flags do not count (`fault?_settled`); an audit finds nothing exactly
if no node is faulty, and otherwise the faulty node with the smallest number
(`auditFrom_eq_none_iff`, `auditFrom_eq_some_iff`).
-/
import BuddyTree.Allocator

namespace BuddyTree

/-! ## 1. One node -/

/-- What can be wrong with a node. -/
inductive Fault where
  | aboveBase
  | notFullyBusy
  | leafTracksChildren
  | nonEmptySubtree
  | flagDisagrees
  deriving DecidableEq, Repr

/-- The wording of a fault. -/
def Fault.reason : Fault → String
  | aboveBase => "node above base level is in use"
  | notFullyBusy => "allocated node is not fully busy"
  | leafTracksChildren => "leaf tracks children"
  | nonEmptySubtree => "allocated node has a non-empty subtree"
  | flagDisagrees => "occupancy flag disagrees with child"

namespace Node

variable {d : Nat}

/-- A child of the node, if the node is above the leaves. -/
def child? (n : Node d) (side : Side) : Option (Node d) :=
  match side with
  | .left => ofId? d (NodeId.leftChild n.id)
  | .right => ofId? d (NodeId.leftChild n.id + 1)

end Node

namespace Tree

variable {d : Nat}

/-- What is wrong with a node that should be a block, or free, or occupied on the sides of its
children, judged against one child. -/
def childFault? (t : Tree d) (s : Status) (side : Side) (child : Node d) : Option Fault :=
  let c := (t.get child).settled
  if s.has .block then
    if c = .clear then none else some .nonEmptySubtree
  else if c.isFree = s.isOccupied side then some .flagDisagrees
  else none

/-- The tree without its coalescing flags. -/
def settled (t : Tree d) : Tree d :=
  ⟨t.slots.map Status.settled⟩

@[simp] theorem get_settled (t : Tree d) (n : Node d) : t.settled.get n = (t.get n).settled := by
  have := n.lt
  simp [settled, get]

/-- What is wrong with a node. -/
def fault? (t : Tree d) (baseLevel : Nat) (n : Node d) : Option Fault :=
  let s := (t.get n).settled
  if n.level < baseLevel then
    if s = .clear then none else some .aboveBase
  else if s.has .block && s != .busy then some .notFullyBusy
  else
    match n.child? .left, n.child? .right with
    | some l, some r => (t.childFault? s .left l).or (t.childFault? s .right r)
    | _, _ => if s != .clear && !s.has .block then some .leafTracksChildren else none

/-- **Coalescing flags do not count.** -/
theorem fault?_settled (t : Tree d) (baseLevel : Nat) (n : Node d) :
    t.settled.fault? baseLevel n = t.fault? baseLevel n := by
  simp only [fault?, childFault?, get_settled, Status.settled_settled]

/-! ## 2. The whole tree -/

/-- The first faulty node from number `i` on, and its fault. -/
def auditFrom (t : Tree d) (baseLevel i : Nat) (hi : 0 < i) : Option (Node d × Fault) :=
  if h : i < 2 ^ (d + 1) then
    let n : Node d := ⟨i, hi, h⟩
    match t.fault? baseLevel n with
    | some f => some (n, f)
    | none => t.auditFrom baseLevel (i + 1) (Nat.succ_pos i)
  else none
termination_by 2 ^ (d + 1) - i

/-- The faulty node with the smallest number, and its fault. -/
def audit (t : Tree d) (baseLevel : Nat) : Option (Node d × Fault) :=
  t.auditFrom baseLevel 1 Nat.one_pos

/-- **No fault found, no fault there.** -/
theorem auditFrom_eq_none_iff {t : Tree d} {baseLevel i : Nat} {hi : 0 < i} :
    t.auditFrom baseLevel i hi = none ↔
      ∀ n : Node d, i ≤ n.id → t.fault? baseLevel n = none := by
  fun_induction Tree.auditFrom t baseLevel i hi with
  | case1 i hi hlt k f hf =>
    refine iff_of_false nofun (fun h => ?_)
    exact absurd hf (by rw [h k (Nat.le_refl _)]; nofun)
  | case2 i hi hlt k hf ih =>
    rw [ih]
    constructor
    · intro h n hn
      rcases Nat.eq_or_lt_of_le hn with he | hl
      · obtain rfl : k = n := Node.ext he
        exact hf
      · exact h n hl
    · exact fun h n hn => h n (by omega)
  | case3 i hi hlt =>
    exact iff_of_true rfl (fun n hn => absurd (Nat.lt_of_le_of_lt hn n.lt) hlt)

/-- **The smallest faulty node.** -/
theorem auditFrom_eq_some_iff {t : Tree d} {baseLevel i : Nat} {hi : 0 < i} {n : Node d}
    {f : Fault} :
    t.auditFrom baseLevel i hi = some (n, f) ↔
      i ≤ n.id ∧ t.fault? baseLevel n = some f ∧
        ∀ m : Node d, i ≤ m.id → m.id < n.id → t.fault? baseLevel m = none := by
  fun_induction Tree.auditFrom t baseLevel i hi with
  | case1 i hi hlt k g hg =>
    constructor
    · intro h
      obtain ⟨rfl, rfl⟩ := Prod.mk.inj (Option.some.inj h)
      exact ⟨Nat.le_refl _, hg, fun m h1 h2 => absurd (Nat.lt_of_le_of_lt h1 h2)
        (Nat.lt_irrefl _)⟩
    · rintro ⟨hn, hf, hmin⟩
      rcases Nat.eq_or_lt_of_le hn with he | hl
      · obtain rfl : k = n := Node.ext he
        rw [Option.some.inj (hg.symm.trans hf)]
      · exact absurd hg (by rw [hmin k (Nat.le_refl _) hl]; nofun)
  | case2 i hi hlt k hk ih =>
    rw [ih]
    constructor
    · rintro ⟨hn, hf, hmin⟩
      refine ⟨by omega, hf, fun m hm hmn => ?_⟩
      rcases Nat.eq_or_lt_of_le hm with he | hl
      · obtain rfl : k = m := Node.ext he
        exact hk
      · exact hmin m hl hmn
    · rintro ⟨hn, hf, hmin⟩
      refine ⟨?_, hf, fun m hm => hmin m (by omega)⟩
      rcases Nat.eq_or_lt_of_le hn with he | hl
      · obtain rfl : k = n := Node.ext he
        cases hk.symm.trans hf
      · exact hl
  | case3 i hi hlt =>
    refine iff_of_false nofun (fun h => ?_)
    exact absurd (Nat.lt_of_le_of_lt h.1 n.lt) hlt

end Tree

/-! ## 3. The report -/

/-- The first node found in a state that no completed operation leaves behind. -/
structure Violation where
  node : Nat
  /-- The whole status, coalescing flags included. -/
  status : Status
  fault : Fault
  deriving DecidableEq, Repr

/-- The wording of the report. -/
def Violation.message (v : Violation) : String :=
  s!"node {v.node} ({v.status.text}): {v.fault.reason}"

/-- Check that the flags of all nodes agree with each other. -/
def Allocator.check (a : Allocator) : Except Violation Unit :=
  match a.store.tree.audit a.region.geometry.baseLevel with
  | none => .ok ()
  | some (n, f) => .error ⟨n.id, a.store.tree.get n, f⟩

end BuddyTree
