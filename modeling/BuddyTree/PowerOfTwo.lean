/-
# Powers of two

Sizes of blocks, levels of the tree and alignments are all powers of two.

The main facts: a number passes `isPowerOfTwo` exactly when it is a power of two
(`isPowerOfTwo_iff`), and `ceilLog2 n` is the least exponent whose power reaches `n`
(`ceilLog2_le_iff`).
-/

namespace BuddyTree

/- Powers of natural numbers are those of the core library, also in a module where another
instance could supply them: a size means the same wherever it is written. -/
attribute [scoped instance (high)] instPowNat

/-- Is `n` a power of two?  Zero is none. -/
def isPowerOfTwo (n : Nat) : Bool :=
  2 ^ n.log2 == n

theorem isPowerOfTwo_iff {n : Nat} : isPowerOfTwo n = true ↔ ∃ k : Nat, n = 2 ^ k := by
  rw [isPowerOfTwo, beq_iff_eq]
  constructor
  · exact fun h => ⟨n.log2, h.symm⟩
  · rintro ⟨k, rfl⟩
    rw [Nat.log2_two_pow]

theorem isPowerOfTwo_two_pow_mul {n : Nat} (h : isPowerOfTwo n = true) (k : Nat) :
    isPowerOfTwo (2 ^ k * n) = true := by
  obtain ⟨e, rfl⟩ := isPowerOfTwo_iff.mp h
  exact isPowerOfTwo_iff.mpr ⟨k + e, (Nat.pow_add 2 k e).symm⟩

/-- Of two powers of two the smaller divides the larger. -/
theorem dvd_of_isPowerOfTwo {m n : Nat} (hm : isPowerOfTwo m = true) (hn : isPowerOfTwo n = true)
    (h : m ≤ n) : m ∣ n := by
  obtain ⟨j, rfl⟩ := isPowerOfTwo_iff.mp hm
  obtain ⟨k, rfl⟩ := isPowerOfTwo_iff.mp hn
  exact Nat.pow_dvd_pow 2 ((Nat.pow_le_pow_iff_right Nat.one_lt_two).mp h)

/-- The least `k` with `n ≤ 2 ^ k`. -/
def ceilLog2 (n : Nat) : Nat :=
  if n ≤ 1 then 0 else (n - 1).log2 + 1

/-- **Least exponent.**  `2 ^ k` reaches `n` exactly from `k = ceilLog2 n` on. -/
theorem ceilLog2_le_iff {n k : Nat} : ceilLog2 n ≤ k ↔ n ≤ 2 ^ k := by
  unfold ceilLog2
  split
  · next h =>
    have := Nat.two_pow_pos k
    omega
  · next h =>
    have h1 : (n - 1).log2 < k ↔ n - 1 < 2 ^ k := Nat.log2_lt (by omega)
    have := Nat.two_pow_pos k
    omega

end BuddyTree
