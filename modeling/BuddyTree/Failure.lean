/-
# Why a request is refused

Three kinds of request can fail: bringing an allocator up, allocating a block, and freeing one.
Each kind has its causes as constructors, and one function that words them.
-/
import BuddyTree.Hex

namespace BuddyTree

/-- The two pieces of memory that an allocator needs for itself. -/
inductive Part where
  | tree
  | index
  deriving DecidableEq, Repr

/-- The written name of a part. -/
def Part.name : Part → String
  | tree => "tree"
  | index => "leaf index"

/-- Why an allocator could not be brought up. -/
inductive InitError where
  | nullBase
  | tooSmall (size minSize : Nat)
  | badGranule (minSize : Nat)
  | misaligned (base align : Nat)
  | overflow (base size : Nat)
  | tooLarge (depth : Nat)
  | backing (part : Part) (bytes : Nat)
  | alreadyInitialized
  deriving DecidableEq, Repr

/-- The wording of a failed start. -/
def InitError.message : InitError → String
  | nullBase => "base address is null"
  | tooSmall size minSize =>
    s!"region of {size} bytes is smaller than one {minSize}-byte granule"
  | badGranule minSize => s!"granule size {minSize} is not a power of two"
  | misaligned base align =>
    s!"base address {Hex.ofAddress base} is not aligned to {align} bytes"
  | overflow base size =>
    s!"region of {size} bytes at {Hex.ofAddress base} runs past the end of the address space"
  | tooLarge depth => s!"tree depth {depth} does not fit 32-bit node ids"
  | backing part bytes =>
    s!"backing allocator could not supply {bytes} bytes for the {part.name}"
  | alreadyInitialized => "allocator is already initialized"

/-- Why no block was handed out. -/
inductive AllocError where
  | tooLarge (size maxSize : Nat)
  | outOfMemory (size : Nat)
  | alignment (align : Nat)
  deriving DecidableEq, Repr

/-- The wording of a failed allocation. -/
def AllocError.message : AllocError → String
  | tooLarge size maxSize =>
    s!"request of {size} bytes exceeds the largest block ({maxSize} bytes)"
  | outOfMemory size => s!"no free block for {size} bytes"
  | alignment align =>
    s!"alignment of {align} bytes cannot be honoured from this region"

/-- Why a block was not taken back. -/
inductive FreeError where
  | outOfRange (address : Nat)
  | misaligned (address : Nat)
  | notAllocated (address : Nat)
  deriving DecidableEq, Repr

/-- The wording of a failed release. -/
def FreeError.message : FreeError → String
  | outOfRange address =>
    s!"address {Hex.ofAddress address} is outside the managed region"
  | misaligned address =>
    s!"address {Hex.ofAddress address} is not granule aligned"
  | notAllocated address =>
    s!"address {Hex.ofAddress address} is not the start of a live block"

end BuddyTree
