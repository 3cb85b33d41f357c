/-
# Live blocks

An allocator seen from outside is a set of live blocks.  A block of order `o` has `2 ^ o` granules
and starts at a multiple of that number; an allocation takes the first one of the smallest
sufficient order that is apart from every live block, and a release takes a block away.

Nothing here knows of trees and flags: these are the rules that the tree has to follow.  The main
facts say that `firstFit?` finds the leftmost vacant block and fails only if there is none
(`firstFit?_eq_some_iff`, `firstFit?_eq_none_iff`).
-/
import BuddyTree.Call

namespace BuddyTree

/-! ## 1. Blocks -/

/-- The granules from `first` on, `2 ^ order` of them. -/
structure Block where
  first : Nat
  order : Nat
  deriving DecidableEq, Repr

namespace Block

/-- The first granule after the block. -/
def stop (b : Block) : Nat := b.first + 2 ^ b.order

/-- The blocks have no granule in common. -/
def Apart (a b : Block) : Prop := a.stop ≤ b.first ∨ b.stop ≤ a.first

instance (a b : Block) : Decidable (a.Apart b) :=
  inferInstanceAs (Decidable (_ ∨ _))

theorem Apart.symm {a b : Block} (h : a.Apart b) : b.Apart a :=
  Or.symm h

theorem stop_pos (b : Block) : b.first < b.stop :=
  Nat.lt_add_of_pos_right (Nat.two_pow_pos _)

/-- The `i`-th block of an order, from the left. -/
def nth (order i : Nat) : Block := ⟨i * 2 ^ order, order⟩

/-- The block lies within the other one. -/
def Within (a b : Block) : Prop := b.first ≤ a.first ∧ a.stop ≤ b.stop

instance (a b : Block) : Decidable (a.Within b) :=
  inferInstanceAs (Decidable (_ ∧ _))

end Block

/-- The granules of a node as a block. -/
def Node.block {d : Nat} (n : Node d) : Block := ⟨n.firstLeaf, n.order⟩

/-! ## 2. First fit -/

namespace Blocks

/-- Is the block apart from all live ones? -/
def isVacant (live : List Block) (b : Block) : Bool :=
  live.all fun c => decide (b.Apart c)

theorem isVacant_iff {live : List Block} {b : Block} :
    isVacant live b = true ↔ ∀ c ∈ live, b.Apart c := by
  simp [isVacant]

/-- The leftmost vacant block of an order among `2 ^ depth` granules. -/
def firstFit? (depth order : Nat) (live : List Block) : Option Block :=
  ((List.range (2 ^ (depth - order))).map (Block.nth order)).find? (isVacant live)

/-- **Failure means that nothing fits.** -/
theorem firstFit?_eq_none_iff {depth order : Nat} {live : List Block} :
    firstFit? depth order live = none ↔
      ∀ i < 2 ^ (depth - order), ∃ c ∈ live, ¬ (Block.nth order i).Apart c := by
  simp [firstFit?, isVacant]

/-- **Leftmost.**  The block found is vacant, and no block of its order to the left of it is. -/
theorem firstFit?_eq_some_iff {depth order : Nat} {live : List Block} {b : Block} :
    firstFit? depth order live = some b ↔
      ∃ i < 2 ^ (depth - order), b = Block.nth order i ∧ isVacant live b = true ∧
        ∀ j < i, isVacant live (Block.nth order j) = false := by
  rw [firstFit?, List.find?_map, Option.map_eq_some_iff]
  simp only [List.find?_range_eq_some, Function.comp_apply, List.mem_range, Bool.not_eq_true']
  constructor
  · rintro ⟨i, ⟨hv, hi, hlt⟩, rfl⟩
    exact ⟨i, hi, rfl, hv, hlt⟩
  · rintro ⟨i, hi, rfl, hv, hlt⟩
    exact ⟨i, ⟨hv, hi, hlt⟩, rfl⟩

/-! ## 3. Calls -/

/-- The least order whose block holds `size` bytes, and at least one. -/
def leastOrder? (g : Geometry) (size : Nat) : Option Nat :=
  (List.range (g.maxOrder + 1)).find? fun o => decide (max size 1 ≤ 2 ^ o * g.minSize)

/-- Take the leftmost vacant block of the least order that holds `size` bytes. -/
def alloc (r : Region) (size : Nat) (live : List Block) : Except AllocError Nat × List Block :=
  match leastOrder? r.geometry size with
  | none => (.error (.tooLarge size r.geometry.maxSize), live)
  | some o =>
    match firstFit? r.depth o live with
    | none => (.error (.outOfMemory size), live)
    | some b => (.ok (r.base + b.first * r.geometry.minSize), b :: live)

/-- A layout is served by a block that is as large as its alignment, if the base has the
alignment or it is no larger than a granule. -/
def allocLayout (r : Region) (layout : Layout) (live : List Block) :
    Except AllocError Nat × List Block :=
  if r.geometry.minSize < layout.align ∧ ¬ layout.align ∣ r.base then
    (.error (.alignment layout.align), live)
  else alloc r (max layout.size layout.align) live

/-- Take the block away that starts at `address`. -/
def free (r : Region) (address : Nat) (live : List Block) :
    Except FreeError Unit × List Block :=
  let granule := (address - r.base) / r.geometry.minSize
  if address = 0 then (.ok (), live)
  else if ¬ (r.base ≤ address ∧ address < r.base + r.geometry.totalMemory) then
    (.error (.outOfRange address), live)
  else if ¬ r.geometry.minSize ∣ address - r.base then (.error (.misaligned address), live)
  else
    match live.find? fun b => b.first == granule with
    | none => (.error (.notAllocated address), live)
    | some b => (.ok (), live.erase b)

/-- Make one call. -/
def call (r : Region) (c : Call) (live : List Block) : Reply × List Block :=
  match c with
  | .alloc size =>
    let (result, live) := alloc r size live
    (.allocated result, live)
  | .allocLayout layout =>
    let (result, live) := allocLayout r layout live
    (.allocated result, live)
  | .free address =>
    let (result, live) := free r address live
    (.freed result, live)

/-- Make calls one after the other. -/
def calls (r : Region) : List Call → List Block → List Reply × List Block
  | [], live => ([], live)
  | c :: rest, live =>
    let (reply, live) := call r c live
    let (replies, live) := calls r rest live
    (reply :: replies, live)

end Blocks
end BuddyTree
