/-
# Allocating and freeing in a region

A `Region` is the fixed part of an allocator: where the managed memory begins, and its shape.  The
operations act on a `World` over the region's metadata, so that others may come in between.

A block is handed out as the address of its first byte and comes back as that address alone; the
leaf index tells which block it was.
-/
import BuddyTree.Layout
import BuddyTree.Search

namespace BuddyTree

/-! ## 1. Regions -/

/-- Where the managed memory begins, and its shape. -/
structure Region where
  base : Nat
  geometry : Geometry
  deriving DecidableEq, Repr

namespace Region

/-- The depth of the tree. -/
abbrev depth (r : Region) : Nat := r.geometry.depth

/-- The address of the last managed byte. -/
def last (r : Region) : Nat := r.base + (r.geometry.totalMemory - 1)

/-- The address at which a node's block begins. -/
def addressOf (r : Region) (n : Node r.depth) : Nat :=
  r.base + n.firstLeaf * r.geometry.minSize

/-- The region of `size` bytes at `base`, if it can be managed at all. -/
def of (base size : Nat) (config : Config) : Except InitError Region :=
  if base = 0 then .error .nullBase
  else do
    let g ← Geometry.ofRegion size config
    if base % g.minSize ≠ 0 then .error (.misaligned base g.minSize)
    else if (checkedAdd? base (g.totalMemory - 1)).isNone then .error (.overflow base size)
    else .ok ⟨base, g⟩

/-! ## 2. Allocating -/

variable {ε : Type}

/-- Allocate the smallest block that holds `size` bytes. -/
def alloc (r : Region) (obs : Observer r.depth ε) (size : Nat) (w : World r.depth ε) :
    Except AllocError Nat × World r.depth ε :=
  match r.geometry.orderFor? size with
  | none => (.error (.tooLarge size r.geometry.maxSize), w)
  | some order =>
    match search obs r.geometry.baseLevel order w with
    | (none, w) => (.error (.outOfMemory size), w)
    | (some n, w) =>
      (.ok (r.addressOf n), obs.react (.claimed n.id order n.firstLeaf) (w.mapStore (.enter n)))

/-- Allocate for a layout.  A block is aligned to its size relative to the base, so an alignment
above the granule size holds exactly if the base has it. -/
def allocLayout (r : Region) (obs : Observer r.depth ε) (layout : Layout)
    (w : World r.depth ε) : Except AllocError Nat × World r.depth ε :=
  if layout.align > r.geometry.minSize ∧ r.base % layout.align ≠ 0 then
    (.error (.alignment layout.align), w)
  else r.alloc obs (max layout.size layout.align) w

/-! ## 3. Freeing -/

/-- The leaf in which an address lies. -/
def leafAt (r : Region) (address : Nat) (h : address - r.base < r.geometry.totalMemory) :
    Fin (2 ^ r.depth) :=
  ⟨(address - r.base) / r.geometry.minSize,
    Nat.div_lt_of_lt_mul (by rw [Nat.mul_comm]; exact h)⟩

/-- Take back the block that starts at `address`.  The index entry is taken first, so a block
cannot be taken back twice.  An address of 0 is no block and no error. -/
def free (r : Region) (obs : Observer r.depth ε) (address : Nat) (w : World r.depth ε) :
    Except FreeError Unit × World r.depth ε :=
  if address = 0 then (.ok (), w)
  else if h : r.base ≤ address ∧ address - r.base < r.geometry.totalMemory then
    if (address - r.base) % r.geometry.minSize ≠ 0 then
      (.error (.misaligned address), obs.react (.unalignedFree address) w)
    else
      let leaf := r.leafAt address h.2
      match Node.ofId? r.depth (w.store.entry leaf).toNat with
      | none => (.error (.notAllocated address), obs.react (.unknownFree address) w)
      | some n =>
        match release obs n r.geometry.baseLevel (w.mapStore (.withdraw leaf)) with
        | (false, w) =>
          (.error (.notAllocated address), obs.react (.alreadyFree n.id address) w)
        | (true, w) => (.ok (), w.mapStore (.discharge n))
  else (.error (.outOfRange address), w)

end Region
end BuddyTree
