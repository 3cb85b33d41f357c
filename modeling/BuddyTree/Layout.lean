/-
# What a caller asks for

A layout is a size together with an alignment.  Alignments are powers of two, and the size rounded
up to the alignment must not exceed the largest signed 64-bit number, so that the distance between
any two of its bytes can be expressed.
-/
import BuddyTree.Word

namespace BuddyTree

/-- The largest signed 64-bit number, which bounds every size. -/
def Layout.maxSize : Nat := 2 ^ (63 : Nat) - 1

/-- A size and an alignment that belong together. -/
structure Layout where
  size : Nat
  align : Nat
  align_pow : isPowerOfTwo align = true
  fits : roundUp size align ≤ Layout.maxSize

namespace Layout

/-- The layout with this size and alignment, if there is one. -/
def of? (size align : Nat) : Option Layout :=
  if h : isPowerOfTwo align = true ∧ roundUp size align ≤ maxSize then
    some ⟨size, align, h.1, h.2⟩
  else none

end Layout
end BuddyTree
