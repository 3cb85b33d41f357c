/-
# Commands to an allocator

Everything that can be done to an allocator, as values, so that a sequence of operations can be
written down, run, and run in between the steps of another operation.  Besides the calls of the
allocator itself there are batches of them, readings, and direct changes of the metadata that put
it into states which only races or corruption create.

`Command.perform` carries out one command while an observer listens.
-/
import BuddyTree.Audit
import BuddyTree.Describe

namespace BuddyTree

/-! ## 1. Commands and answers -/

/-- What to do to an allocator. -/
inductive Command where
  | call (c : Call)
  /-- Allocate for a size and an alignment, which may make no layout. -/
  | allocLayout (size align : Nat)
  /-- Up to `count` allocations, ending with the first that fails. -/
  | allocMany (size count : Nat)
  /-- Free `count` addresses, `stride` apart. -/
  | freeMany (start stride count : Nat)
  /-- Several callers allocate `count` times each. -/
  | raceAlloc (size count callers : Nat)
  /-- Several callers free one address. -/
  | raceFree (address callers : Nat)
  | readOrder (order : Nat)
  | readAll
  /-- Copy an order's status bytes into a buffer of `length` bytes. -/
  | readMap (order length : Nat)
  | check
  | describe
  /-- Overwrite the status of one slot of the tree. -/
  | pokeStatus (slot : Nat) (value : UInt8)
  /-- Overwrite one entry of the leaf index. -/
  | pokeIndex (leaf node : Nat)

/-- The counters of one order; nothing where the order does not exist. -/
structure OrderReading where
  blockSize : Option Nat
  totalBlocks : Option Nat
  usedBlocks : Option UInt64

/-- What came of a command. -/
inductive Answer where
  | replied (reply : Reply)
  /-- The size and alignment make no layout. -/
  | noLayout
  | allocatedMany (addresses : List Nat) (stop : Option AllocError)
  | freedMany (count : Nat) (errors : List FreeError)
  | raceAllocated (addresses : List Nat) (failed : Nat)
  /-- How many callers succeeded, and what the others were told, in alphabetical order. -/
  | raceFreed (count : Nat) (messages : List String)
  | order (reading : OrderReading)
  /-- The allocator with the counters of all its orders and of the next one. -/
  | all (region : Region) (used released : UInt64) (orders : List OrderReading)
  | map (written : Option Nat) (buffer : List UInt8)
  | checked (result : Except Violation Unit)
  | described (onOneLine onLines : String)
  /-- What a direct change replaced; nothing if there is no such place. -/
  | replaced (old : Option Nat)

/-! ## 2. Batches -/

namespace Region

variable {ε : Type}

/-- Allocate up to `count` times and stop at the first failure. -/
def allocMany (r : Region) (obs : Observer r.depth ε) (size : Nat) :
    Nat → Array Nat → World r.depth ε → (Array Nat × Option AllocError) × World r.depth ε
  | 0, addresses, w => ((addresses, none), w)
  | count + 1, addresses, w =>
    match r.alloc obs size w with
    | (.ok address, w) => r.allocMany obs size count (addresses.push address) w
    | (.error e, w) => ((addresses, some e), w)

/-- Allocate `count` times, failures counted. -/
def allocEach (r : Region) (obs : Observer r.depth ε) (size : Nat) :
    Nat → Array Nat → Nat → World r.depth ε → (Array Nat × Nat) × World r.depth ε
  | 0, addresses, failed, w => ((addresses, failed), w)
  | count + 1, addresses, failed, w =>
    match r.alloc obs size w with
    | (.ok address, w) => r.allocEach obs size count (addresses.push address) failed w
    | (.error _, w) => r.allocEach obs size count addresses (failed + 1) w

/-- Free each of the addresses: how many were taken back, and the failures in order. -/
def freeEach (r : Region) (obs : Observer r.depth ε) :
    List Nat → Nat → Array FreeError → World r.depth ε →
      (Nat × Array FreeError) × World r.depth ε
  | [], freed, errors, w => ((freed, errors), w)
  | address :: rest, freed, errors, w =>
    match r.free obs address w with
    | (.ok (), w) => r.freeEach obs rest (freed + 1) errors w
    | (.error e, w) => r.freeEach obs rest freed (errors.push e) w

end Region

/-! ## 3. Readings -/

/-- The counters of one order. -/
def Allocator.readOrder (a : Allocator) (order : Nat) : OrderReading :=
  ⟨a.region.geometry.blockSize? order, a.region.geometry.totalBlocks? order,
    a.usedBlocks? order⟩

/-- The status bytes of all orders, smallest blocks first. -/
def Allocator.maps (a : Allocator) : List (List UInt8) :=
  (List.range (a.region.geometry.maxOrder + 1)).filterMap a.orderMap?

/-! ## 4. Direct changes -/

namespace Metadata

variable {d : Nat}

/-- Overwrite one slot of the tree, the unused slot 0 included. -/
def pokeStatus (m : Metadata d) (slot : Nat) (s : Status) : Option Status × Metadata d :=
  if h : slot < 2 ^ (d + 1) then
    let old := m.tree.slots[slot]
    (some old, m.mapTree fun t => ⟨t.slots.set slot s⟩)
  else (none, m)

/-- Overwrite one entry of the leaf index. -/
def pokeIndex (m : Metadata d) (leaf : Nat) (entry : UInt32) : Option UInt32 × Metadata d :=
  if h : leaf < 2 ^ d then
    let old := m.index[leaf]
    (some old, { m with index := m.index.set leaf entry })
  else (none, m)

end Metadata

/-! ## 5. Carrying out a command -/

namespace Command

variable {ε : Type}

/-- Carry out one command. -/
def perform (command : Command) (r : Region) (obs : Observer r.depth ε) (w : World r.depth ε) :
    Answer × World r.depth ε :=
  match command with
  | call c =>
    let (reply, w) := c.perform r obs w
    (.replied reply, w)
  | allocLayout size align =>
    match Layout.of? size align with
    | none => (.noLayout, w)
    | some layout =>
      let (reply, w) := (Call.allocLayout layout).perform r obs w
      (.replied reply, w)
  | allocMany size count =>
    let ((addresses, stop), w) := r.allocMany obs size count #[] w
    (.allocatedMany addresses.toList stop, w)
  | freeMany start stride count =>
    let addresses := (List.range count).map fun i => (start + i * stride) % addressLimit
    let ((freed, errors), w) := r.freeEach obs addresses 0 #[] w
    (.freedMany freed errors.toList, w)
  | raceAlloc size count callers =>
    let ((addresses, failed), w) := r.allocEach obs size (callers * count) #[] 0 w
    (.raceAllocated (addresses.toList.mergeSort (· ≤ ·)) failed, w)
  | raceFree address callers =>
    let ((freed, errors), w) := r.freeEach obs (List.replicate callers address) 0 #[] w
    let messages := errors.toList.map FreeError.message
    (.raceFreed freed (messages.mergeSort (· ≤ ·)), w)
  | readOrder order =>
    (.order ((⟨r, w.store⟩ : Allocator).readOrder order), w)
  | readAll =>
    let a : Allocator := ⟨r, w.store⟩
    let orders := (List.range (r.geometry.maxOrder + 2)).map a.readOrder
    (.all r a.usedMemory a.store.released orders, w)
  | readMap order length =>
    let (written, buffer) :=
      (⟨r, w.store⟩ : Allocator).occupancyMap order (List.replicate length 0xff)
    (.map written buffer, w)
  | check => (.checked (⟨r, w.store⟩ : Allocator).check, w)
  | describe =>
    let a : Allocator := ⟨r, w.store⟩
    (.described a.describe a.describeLines, w)
  | pokeStatus slot value =>
    let (old, store) := w.store.pokeStatus slot ⟨value⟩
    (.replaced (old.map (·.byte.toNat)), { w with store := store })
  | pokeIndex leaf node =>
    let (old, store) := w.store.pokeIndex leaf (.ofNat node)
    (.replaced (old.map (·.toNat)), { w with store := store })

end Command
end BuddyTree
