/-
# A boot arena

Before there is any allocator, memory comes from a fixed stretch of addresses that is handed out
from one end and never taken back.

The main fact is `take?_eq_some_iff`: a request is granted exactly when the first suitably aligned
address at or above the unused part leaves room for it.  The arithmetic is checked, so a request
that would run past the last address is refused like any other that does not fit.
-/
import BuddyTree.Word

namespace BuddyTree

/-- A stretch of addresses, of which everything below `next` is taken. -/
structure Arena where
  start : Nat
  stop : Nat
  next : Nat
  deriving DecidableEq, Repr

namespace Arena

/-- The untouched arena of `length` bytes at `start`. -/
def ofLength (start length : Nat) : Arena :=
  ⟨start, start + length, start⟩

variable (a : Arena)

/-- Bytes taken so far, padding included. -/
def used : Nat := a.next - a.start

/-- Bytes not yet taken. -/
def remaining : Nat := a.stop - a.next

/-- Take `bytes` bytes at a multiple of `align`: their address, and the arena afterwards. -/
def take? (bytes align : Nat) : Option (Nat × Arena) := do
  let first ← roundUp? a.next align
  let last ← checkedAdd? first bytes
  if last > a.stop then none else some (first, { a with next := last })

variable {a}

/-- **What is granted.**  The address is the least multiple of `align` from `next` on, and the
bytes from there on end inside the arena. -/
theorem take?_eq_some_iff (hstop : a.stop < addressLimit) {bytes align first : Nat} {a' : Arena} :
    a.take? bytes align = some (first, a') ↔
      0 < align ∧ roundUp a.next align + bytes ≤ a.stop ∧
        first = roundUp a.next align ∧ a' = { a with next := first + bytes } := by
  simp only [take?, Option.bind_eq_bind, Option.bind_eq_some_iff, roundUp?_eq_some_iff,
    checkedAdd?_eq_some_iff]
  constructor
  · rintro ⟨_, ⟨hal, -, rfl⟩, _, ⟨-, rfl⟩, h⟩
    split at h
    · cases h
    · next hle =>
      cases h
      exact ⟨hal, by omega, rfl, rfl⟩
  · rintro ⟨hal, hle, rfl, rfl⟩
    refine ⟨_, ⟨hal, by omega, rfl⟩, _, ⟨by omega, rfl⟩, ?_⟩
    rw [if_neg (by omega)]

end Arena
end BuddyTree
