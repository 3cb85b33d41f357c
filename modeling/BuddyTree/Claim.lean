/-
# Claiming a node

A claim takes a node whose byte is zero and marks it in every ancestor down from the base level,
withdrawing any announcement of a release on the way.  An ancestor that is itself an allocated
block refuses the claim; the marks made so far are then undone by a release that stops just below
that ancestor, and others may come in while it climbs.

The main fact is `id_of_claim_eq_some`: what refuses a claim is the node itself or one of its
ancestors.
-/
import BuddyTree.Release

namespace BuddyTree

variable {d : Nat} {ε : Type}

/-- Mark a claim along a climb.  The first ancestor that is an allocated block is returned, and
neither it nor anything above it is changed. -/
def Tree.markPath (t : Tree d) : List (Node.Rung d) → Option (Node d) × Tree d
  | [] => (none, t)
  | r :: rest =>
    let s := t.get r.node
    if s.has .block then (some r.node, t)
    else (t.set r.node ((s.withdraw r.child).mark r.child)).markPath rest

/-- Try to take node `n` for a block.  `none` is success; otherwise the node that refused is
returned, and the tree is rolled back. -/
def claim (obs : Observer d ε) (n : Node d) (top : Nat) (w : World d ε) :
    Option (Node d) × World d ε :=
  if w.store.tree.get n = .clear then
    let path := n.climb (n.level - top)
    match w.onTree fun t => (t.set n .busy).markPath path with
    | (none, w) => (none, w)
    | (some owner, w) => (some owner, (release obs n (owner.level + 1) w).2)
  else (some n, w)

/-! ## What refuses a claim -/

theorem mem_of_markPath_eq_some {t : Tree d} {path : List (Node.Rung d)} {owner : Node d}
    (h : (t.markPath path).1 = some owner) : ∃ r ∈ path, r.node = owner := by
  induction path generalizing t with
  | nil => cases h
  | cons r rest ih =>
    unfold Tree.markPath at h
    dsimp only at h
    split at h
    · exact ⟨r, List.mem_cons_self, Option.some.inj h⟩
    · obtain ⟨r', hmem, he⟩ := ih h
      exact ⟨r', List.mem_cons_of_mem _ hmem, he⟩

/-- **The node itself or an ancestor.** -/
theorem id_of_claim_eq_some {obs : Observer d ε} {n f : Node d} {top : Nat} {w : World d ε}
    (h : (claim obs n top w).1 = some f) :
    ∃ j, j ≤ NodeId.level n.id ∧ f.id = NodeId.up n.id j := by
  unfold claim at h
  dsimp only at h
  split at h
  · split at h
    · cases h
    · next owner tree hm =>
      obtain rfl : owner = f := Option.some.inj h
      obtain ⟨r, hmem, rfl⟩ := mem_of_markPath_eq_some (congrArg Prod.fst hm)
      obtain ⟨j, -, -, hj, hid⟩ := Node.id_of_mem_climb hmem
      exact ⟨j, hj, hid⟩
  · obtain rfl : n = f := Option.some.inj h
    exact ⟨0, Nat.zero_le _, (NodeId.up_zero _).symm⟩

theorem settles_claim (obs : Observer d ε) (n : Node d) (top : Nat) (w : World d ε) :
    obs.Settles w (claim obs n top w).2 := by
  have marked : obs.Settles w
      (w.onTree fun t => (t.set n .busy).markPath (n.climb (n.level - top))).2 :=
    Observer.settles_onTree _ w
  unfold claim
  dsimp only
  split
  · split
    · next w' hm =>
      rwa [hm] at marked
    · next owner w' hm =>
      rw [hm] at marked
      exact marked.trans (settles_release obs _ _ _)
  · exact .refl w

end BuddyTree
