/-
# Arithmetic in a 64-bit address space

Addresses and byte counts are natural numbers, and an address is a number below `addressLimit`.
A sum or a rounded address that leaves the address space is refused here (`none`) and never
reduced, so two different places in memory cannot come out as one number.

The main fact: `roundUp` gives the least multiple that is not below its argument
(`roundUp_le_iff`).
-/
import BuddyTree.PowerOfTwo

namespace BuddyTree

/-! ## 1. The address space -/

/-- The number of addresses: every address is below it. -/
def addressLimit : Nat := 2 ^ (64 : Nat)

/-- The number itself if it is an address. -/
def address? (n : Nat) : Option Nat :=
  if n < addressLimit then some n else none

/-- The sum of two addresses, if it is still one. -/
def checkedAdd? (a b : Nat) : Option Nat :=
  address? (a + b)

theorem address?_eq_some_iff {n m : Nat} : address? n = some m ↔ n < addressLimit ∧ n = m := by
  simp [address?]

theorem checkedAdd?_eq_some_iff {a b c : Nat} :
    checkedAdd? a b = some c ↔ a + b < addressLimit ∧ a + b = c :=
  address?_eq_some_iff

theorem isNone_checkedAdd?_iff {a b : Nat} :
    (checkedAdd? a b).isNone = true ↔ addressLimit ≤ a + b := by
  unfold checkedAdd? address?
  split
  · next h => exact iff_of_false nofun (Nat.not_le.mpr h)
  · next h => exact iff_of_true rfl (Nat.not_lt.mp h)

/-! ## 2. Rounding up to a multiple -/

/-- The least multiple of `align` that is not below `n` (for `align > 0`). -/
def roundUp (n align : Nat) : Nat :=
  (n + (align - 1)) / align * align

/-- The same multiple, refused when it is no address: `align` is zero or the multiple lies past
the end. -/
def roundUp? (n align : Nat) : Option Nat :=
  if align = 0 then none else address? (roundUp n align)

theorem dvd_roundUp (n align : Nat) : align ∣ roundUp n align :=
  Nat.dvd_mul_left _ _

theorem le_roundUp {n align : Nat} (h : 0 < align) : n ≤ roundUp n align := by
  have h1 := Nat.div_add_mod (n + (align - 1)) align
  have h2 := Nat.mod_lt (n + (align - 1)) h
  have h3 : roundUp n align = align * ((n + (align - 1)) / align) := Nat.mul_comm _ _
  omega

/-- **Least among the multiples.**  A multiple is at or above the rounded number exactly when it
is at or above the number itself. -/
theorem roundUp_le_iff {n align m : Nat} (h : 0 < align) (hm : align ∣ m) :
    roundUp n align ≤ m ↔ n ≤ m := by
  refine ⟨fun hle => Nat.le_trans (le_roundUp h) hle, fun hle => ?_⟩
  obtain ⟨k, rfl⟩ := hm
  have h1 : (n + (align - 1)) / align ≤ k := by
    rw [← Nat.lt_succ_iff, Nat.div_lt_iff_lt_mul h, Nat.succ_mul, Nat.mul_comm k align]
    omega
  rw [roundUp, Nat.mul_comm align k]
  exact Nat.mul_le_mul_right align h1

theorem roundUp?_eq_some_iff {n align m : Nat} :
    roundUp? n align = some m ↔
      0 < align ∧ roundUp n align < addressLimit ∧ roundUp n align = m := by
  unfold roundUp?
  split
  · next h => simp [h]
  · next h => simp [address?_eq_some_iff, Nat.pos_of_ne_zero h]

end BuddyTree
