/-
# Releasing a node

A release climbs twice.  The first climb *announces*: it sets the coalescing flag of the child it
comes from in every ancestor, up to the first one that stays occupied through its other child,
because nothing above that one can merge.  The node is then cleared.  The second climb *merges*:
it clears the child's flags in each ancestor, and goes on as long as the ancestor became free.

Others may come in after each merge.  If one of them allocated below, it withdrew the
announcement on its way up; the second climb finds the flag gone and leaves the rest to the block
that is there now.
-/
import BuddyTree.Interference

namespace BuddyTree

variable {d : Nat} {ε : Type}

/-! ## 1. Announcing -/

/-- Set the coalescing flags along a climb, up to the first ancestor whose other child is
occupied and not itself on the way to merge. -/
def Tree.announce (t : Tree d) : List (Node.Rung d) → Tree d
  | [] => t
  | r :: rest =>
    let s := t.get r.node
    let t := t.set r.node (s.announce r.child)
    if s.isOccupied r.child.other && !s.isCoalescing r.child.other then t else t.announce rest

/-! ## 2. Merging -/

/-- Clear the flags along a climb for as long as the announcement stands and the other child is
free.  Each merge but the last is reported before the climb goes on. -/
def merge (obs : Observer d ε) : List (Node.Rung d) → World d ε → World d ε
  | [], w => w
  | r :: rest, w =>
    let s := w.store.tree.get r.node
    if !s.isCoalescing r.child then w
    else
      let s := s.unmark r.child
      let w := w.mapStore (.mapTree (·.set r.node s))
      if rest.isEmpty || s.isOccupied r.child.other then w
      else merge obs rest (obs.react (.coalesced r.node.id) w)

theorem settles_merge (obs : Observer d ε) (path : List (Node.Rung d)) (w : World d ε) :
    obs.Settles w (merge obs path w) := by
  induction path generalizing w with
  | nil => exact .refl w
  | cons r rest ih =>
    unfold merge
    dsimp only
    split
    · exact .refl w
    · split
      · exact Observer.settles_mapTree _ w
      · exact (Observer.settles_mapTree _ w).trans
          ((Observer.settles_react _ _).trans (ih _))

/-! ## 3. The whole release -/

/-- How far the second climb of a release goes.  It ends at level `bound`; a node that is already
above that level merges into its parent only. -/
def mergeHeight (n : Node d) (bound : Nat) : Nat :=
  if n.level = bound then 0 else max 1 (n.level - bound)

theorem mergeHeight_of_le {n : Node d} {bound : Nat} (h : bound ≤ n.level) :
    mergeHeight n bound = n.level - bound := by
  unfold mergeHeight
  split <;> omega

/-- Release node `n`, merging no further than level `bound`; `false` if it was free already. -/
def release (obs : Observer d ε) (n : Node d) (bound : Nat) (w : World d ε) : Bool × World d ε :=
  if (w.store.tree.get n).isFree then (false, w)
  else
    let path := n.climb (n.level - bound)
    let w := w.mapStore (.mapTree fun t => (t.announce path).set n .clear)
    (true, merge obs (n.climb (mergeHeight n bound)) w)

theorem settles_release (obs : Observer d ε) (n : Node d) (bound : Nat) (w : World d ε) :
    obs.Settles w (release obs n bound w).2 := by
  unfold release
  split
  · exact .refl w
  · exact (Observer.settles_mapTree _ w).trans (settles_merge obs _ _)

end BuddyTree
