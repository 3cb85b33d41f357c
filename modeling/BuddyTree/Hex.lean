/-
# Hexadecimal text

Addresses and byte strings are written in lower case.  An address has the mark `0x` and no
padding; a byte string has two digits for each byte and no mark.
-/

namespace BuddyTree.Hex

/-- An address is the mark and its digits. -/
def ofAddress (n : Nat) : String :=
  "0x" ++ String.ofList (Nat.toDigits 16 n)

/-- The two digits of one byte, high half first. -/
def ofByte (b : UInt8) : List Char :=
  [Nat.digitChar (b.toNat / 16), Nat.digitChar (b.toNat % 16)]

/-- A byte string, two digits for each byte. -/
def ofBytes (bytes : List UInt8) : String :=
  String.ofList (bytes.flatMap ofByte)

end BuddyTree.Hex
