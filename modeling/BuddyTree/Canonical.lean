/-
# The metadata of given blocks

Which metadata belongs to a set of live blocks, if nothing is under way: a live block's node is
busy, a node above live blocks is occupied on the sides on which they lie, every other byte is
zero, the index has each block at its first granule, and the counters count.

Nothing here knows how the metadata came about; these are the states that operations have to leave
behind.
-/
import BuddyTree.Blocks

namespace BuddyTree

namespace Block

/-- The half of a block on one side; a single granule has no halves. -/
def half? (b : Block) (side : Side) : Option Block :=
  match b.order, side with
  | 0, _ => none
  | o + 1, .left => some ⟨b.first, o⟩
  | o + 1, .right => some ⟨b.first + 2 ^ o, o⟩

/-- The number of the block's node when the leaves sit at `depth`. -/
def nodeId (depth : Nat) (b : Block) : Nat :=
  (2 ^ depth + b.first) / 2 ^ b.order

end Block

namespace Blocks

/-- Does a live block lie within that half of `b`? -/
def meetsHalf (live : List Block) (b : Block) (side : Side) : Bool :=
  match b.half? side with
  | none => false
  | some h => live.any fun c => decide (c.Within h)

/-- The status of a node when these blocks are live. -/
def status {d : Nat} (baseLevel : Nat) (live : List Block) (n : Node d) : Status :=
  if n.block ∈ live then .busy
  else if n.level < baseLevel then .clear
  else
    let s := if meetsHalf live n.block .left then Status.clear.mark .left else .clear
    if meetsHalf live n.block .right then s.mark .right else s

/-- The tree when these blocks are live. -/
def tree (d baseLevel : Nat) (live : List Block) : Tree d :=
  ⟨Vector.ofFn fun i =>
    if h : 0 < i.val then status baseLevel live ⟨i, h, i.isLt⟩ else .clear⟩

/-- The index entry of a granule when these blocks are live. -/
def entry (d : Nat) (live : List Block) (leaf : Nat) : UInt32 :=
  match live.find? fun b => b.first == leaf with
  | none => 0
  | some b => .ofNat (b.nodeId d)

/-- The metadata when these blocks are live and so many were released. -/
def metadata (d baseLevel : Nat) (live : List Block) (released : UInt64) : Metadata d where
  tree := tree d baseLevel live
  index := Vector.ofFn fun leaf => entry d live leaf
  live := Vector.ofFn fun o => .ofNat (live.countP fun b => b.order == o.val)
  released := released

theorem get_tree {d baseLevel : Nat} (live : List Block) (n : Node d) :
    (tree d baseLevel live).get n = status baseLevel live n := by
  have := n.lt
  simp only [tree, Tree.get, Vector.getElem_ofFn]
  exact dif_pos n.pos

end Blocks
end BuddyTree
