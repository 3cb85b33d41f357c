/-
# Allocators

An allocator is a region and its metadata.  It is brought up once, with memory for the metadata
from a source: the arguments are checked before anything is requested, and whatever the memory
held before, a new allocator is a fresh one.
-/
import BuddyTree.Call

namespace BuddyTree

/-- A region and its metadata. -/
structure Allocator where
  region : Region
  store : Metadata region.depth

namespace Allocator

/-! ## 1. Bringing one up -/

/-- The allocator of a region in which nothing was ever allocated. -/
def fresh (r : Region) : Allocator :=
  ⟨r, .blank r.depth⟩

/-- What a new allocator reports about itself. -/
def welcome (r : Region) (size : Nat) : List Record :=
  let g := r.geometry
  let tail := if size > g.totalMemory then [.unmanaged (size - g.totalMemory) r.last] else []
  tail ++ [.ready r.base r.last g]

/-- Memory for one part of the metadata. -/
def request {σ : Type} (source : Source σ) (part : Part) (r : Request) (s : σ) :
    Except InitError Grant × σ :=
  match source.supply s r with
  | (some grant, s) => (.ok grant, s)
  | (none, s) => (.error (.backing part r.bytes), s)

/-- Bring up an allocator for `size` bytes at `base`.  Its own memory comes from `source`: first
for the tree, then, if that was granted, for the leaf index. -/
def create {σ : Type} (source : Source σ) (base size : Nat) (config : Config) (s : σ) :
    Except InitError (Allocator × List Record) × σ :=
  match Region.of base size config with
  | .error e => (.error e, s)
  | .ok r =>
    let g := r.geometry
    match request source .tree ⟨g.treeBytes, 1⟩ s with
    | (.error e, s) => (.error e, s)
    | (.ok tree, s) =>
      match request source .index ⟨g.indexBytes, 4⟩ s with
      | (.error e, s) => (.error e, s)
      | (.ok index, s) =>
        let store := .ofGrants r.depth (tree.zeroed g.treeBytes) (index.zeroed g.indexBytes)
        (.ok (⟨r, store⟩, welcome r size), s)

/-! ## 2. Calls -/

/-- Allocate the smallest block that holds `size` bytes. -/
def alloc : Allocator → Nat → Except AllocError Nat × Allocator
  | ⟨r, m⟩, size =>
    let (result, m) := r.alone (fun obs w => r.alloc obs size w) m
    (result, ⟨r, m⟩)

/-- Allocate for a layout. -/
def allocLayout : Allocator → Layout → Except AllocError Nat × Allocator
  | ⟨r, m⟩, layout =>
    let (result, m) := r.alone (fun obs w => r.allocLayout obs layout w) m
    (result, ⟨r, m⟩)

/-- Take back the block that starts at `address`. -/
def free : Allocator → Nat → Except FreeError Unit × Allocator
  | ⟨r, m⟩, address =>
    let (result, m) := r.alone (fun obs w => r.free obs address w) m
    (result, ⟨r, m⟩)

end Allocator
end BuddyTree
