/-
# Counters and maps

What can be read off an allocator without changing it.
-/
import BuddyTree.Allocator

namespace BuddyTree

/-! ## 1. Counters -/

namespace Metadata

variable {d : Nat}

/-- The number of live blocks of an order, as the counter has it; 0 where there is no counter. -/
def liveAt (m : Metadata d) (order : Nat) : UInt64 :=
  m.live[order]?.getD 0

/-- Bytes in live blocks of orders up to `maxOrder`, in 64-bit words. -/
def usedMemory (m : Metadata d) (minSize maxOrder : Nat) : UInt64 :=
  (List.range (maxOrder + 1)).foldl (fun sum o => sum + m.liveAt o * .ofNat (2 ^ o * minSize)) 0

end Metadata

namespace Allocator

/-- Bytes in live blocks. -/
def usedMemory (a : Allocator) : UInt64 :=
  a.store.usedMemory a.region.geometry.minSize a.region.geometry.maxOrder

/-- The number of live blocks of an order, if there are blocks of that order. -/
def usedBlocks? (a : Allocator) (order : Nat) : Option UInt64 :=
  if order ≤ a.region.geometry.maxOrder then some (a.store.liveAt order) else none

/-! ## 2. Occupancy maps -/

/-- The status of every node of an order, leftmost first. -/
def nodesOfOrder {d : Nat} (t : Tree d) (order : Nat) : List Status :=
  let first := NodeId.levelStart (d - order)
  (t.slots.extract first (2 * first)).toList

/-- The status bytes of all nodes of an order, if blocks of that order exist. -/
def orderMap? (a : Allocator) (order : Nat) : Option (List UInt8) :=
  if order > a.region.geometry.maxOrder then none
  else some ((nodesOfOrder a.store.tree order).map Status.byte)

/-- Copy the status bytes of an order to the front of a buffer: how many were written, and the
buffer afterwards.  A buffer that is too short is left as it was. -/
def occupancyMap (a : Allocator) (order : Nat) (buffer : List UInt8) :
    Option Nat × List UInt8 :=
  match a.orderMap? order with
  | none => (none, buffer)
  | some bytes =>
    if bytes.length > buffer.length then (none, buffer)
    else (some bytes.length, bytes ++ buffer.drop bytes.length)

end Allocator
end BuddyTree
