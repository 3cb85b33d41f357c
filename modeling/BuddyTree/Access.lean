/-
# A pass, one access at a time

A pass over a level goes from node to node: it reads one byte, writes one, and what it read decides
which node is next.  Here it is written down that way, access by access.  Nodes are plain numbers,
each loop goes on for as long as its own test says, and nothing in this module makes a loop end or
keeps a number within the tree.

A pass visits the numbers of a level from the left.  It claims the first node it can have and marks
the claim in one ancestor after the other; if one of them is a block, the claim is given up: its
node is looked at again, announced up the tree, cleared, and merged, and the visits go on behind
what refused it.
-/
import BuddyTree.Metadata

namespace BuddyTree

open NodeId

/-! ## 1. Points -/

/-- What a pass is about to do. -/
inductive Point where
  /-- Look whether node `i` can be had. -/
  | visit (i : Nat)
  /-- Mark the claim of `n` above `reached`. -/
  | mark (n reached : Nat)
  /-- Give up the claim of `n`, which `owner` has refused. -/
  | giveUp (n owner : Nat)
  /-- Announce above `reached` that `n` is given up. -/
  | announce (n owner reached : Nat)
  /-- Clear `n`. -/
  | clear (n owner : Nat)
  /-- Merge what was announced above `reached`. -/
  | merge (n owner reached : Nat)
  /-- Nothing more: `n` is claimed and marked. -/
  | found (n : Nat)
  /-- Nothing more: the level has no further number. -/
  | nothing
  deriving DecidableEq, Repr

namespace Point

/-- The number of the node that is read and written. -/
def node? : Point → Option Nat
  | visit i => some i
  | mark _ reached => some (parent reached)
  | giveUp n _ => some n
  | announce _ _ reached => some (parent reached)
  | clear n _ => some n
  | merge _ _ reached => some (parent reached)
  | found _ => none
  | nothing => none

/-- The candidate that is visited. -/
def candidate? : Point → Option Nat
  | visit i => some i
  | _ => none

/-- A claim that is refused, or is about to be made and may be, and what refuses it.  The visits
go on to the right of that. -/
def refusal? : Point → Option (Nat × Nat)
  | visit i => some (i, i)
  | giveUp n owner => some (n, owner)
  | announce n owner _ => some (n, owner)
  | clear n owner => some (n, owner)
  | merge n owner _ => some (n, owner)
  | _ => none

/-- Where a pass ends that has found a node or none. -/
def ended {d : Nat} : Option (Node d) → Point
  | none => nothing
  | some n => found n.id

/-! ## 2. Where each loop goes on -/

/-- Visits go on below `stop`. -/
def visitFrom (stop i : Nat) : Point :=
  if i < stop then visit i else nothing

/-- Marks go on below level `top`. -/
def markFrom (top n reached : Nat) : Point :=
  if level reached > top then mark n reached else found n

/-- Announcements go on to the level below the node that refused. -/
def announceFrom (n owner reached : Nat) : Point :=
  if level reached > level owner + 1 then announce n owner reached else clear n owner

/-! ## 3. One access -/

/-- What is next when the byte `s` was read.  The pass visits the numbers below `stop` and marks up
to level `top`. -/
def next (top stop : Nat) : Point → Status → Point
  | visit i, s =>
    if !s.isFree then visitFrom stop (i + 1)
    else if s = .clear then markFrom top i i
    else visitFrom stop (skipPast i i)
  | mark n reached, s =>
    if s.has .block then giveUp n (parent reached) else markFrom top n (parent reached)
  | giveUp n owner, s =>
    if s.isFree then visitFrom stop (skipPast n owner) else announceFrom n owner n
  | announce n owner reached, s =>
    let buddy := (side reached).other
    if s.isOccupied buddy && !s.isCoalescing buddy then clear n owner
    else announceFrom n owner (parent reached)
  | clear n owner, _ =>
    if level n = level owner + 1 then visitFrom stop (skipPast n owner) else merge n owner n
  | merge n owner reached, s =>
    if !s.isCoalescing (side reached) || level (parent reached) ≤ level owner + 1 ||
      (s.unmark (side reached)).isOccupied (side reached).other then
      visitFrom stop (skipPast n owner)
    else merge n owner (parent reached)
  | found n, _ => found n
  | nothing, _ => nothing

/-- The byte that is written when `s` was read. -/
def write : Point → Status → Status
  | visit _, s => if s = .clear then .busy else s
  | mark _ reached, s =>
    if s.has .block then s else (s.withdraw (side reached)).mark (side reached)
  | giveUp _ _, s => s
  | announce _ _ reached, s => s.announce (side reached)
  | clear _ _, _ => .clear
  | merge _ _ reached, s =>
    if s.isCoalescing (side reached) then s.unmark (side reached) else s
  | found _, s => s
  | nothing, s => s

variable {d : Nat}

/-- Make one access, if there is one to make and its node is in the tree. -/
def step (top stop : Nat) (p : Point) (t : Tree d) : Option (Point × Tree d) :=
  (p.node?.bind (Node.ofId? d)).map fun x =>
    (p.next top stop (t.get x), t.set x (p.write (t.get x)))

/-- The accesses from point `p` on lead to point `q`, and are made at these points. -/
inductive Leads (top stop : Nat) : Point → Tree d → List Point → Point → Tree d → Prop where
  | refl (p : Point) (t : Tree d) : Leads top stop p t [] p t
  | step {p q r : Point} {t u v : Tree d} {points : List Point} :
      p.step top stop t = some (q, u) → Leads top stop q u points r v →
      Leads top stop p t (p :: points) r v

end Point
end BuddyTree
