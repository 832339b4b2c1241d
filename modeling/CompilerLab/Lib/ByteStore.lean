import Mathlib.Data.BitVec

/-!
# Bytes in a memory

A memory of bytes and the history of the writes to it.
-/

namespace CompilerLab.Lib

/-- The number whose digits to the base 256 are the bytes, the lowest one first. -/
def leNat : List (BitVec 8) → Nat
  | [] => 0
  | b :: bytes => b.toNat + 256 * leNat bytes

/-- The lowest bytes of a number, the lowest one first. -/
def leBytes (size n : Nat) : List (BitVec 8) := (List.range size).map fun k => BitVec.ofNat 8 (n / 256 ^ k)

@[simp] theorem length_leBytes (size n : Nat) : (leBytes size n).length = size := by
  simp [leBytes]

/-- Bytes written from an address on. -/
structure ByteWrite where
  address : Nat
  bytes : List (BitVec 8)

/-- The byte last stored at an address, the writes being listed from the last one back. -/
def lastStored (init : Nat → BitVec 8) : List ByteWrite → Nat → BitVec 8
  | [], a => init a
  | w :: ws, a =>
      if w.address ≤ a ∧ a < w.address + w.bytes.length then w.bytes.getD (a - w.address) 0 else lastStored init ws a

/-- The bytes last stored from an address on. -/
def storedBytes (init : Nat → BitVec 8) (ws : List ByteWrite) (a size : Nat) : List (BitVec 8) :=
  (List.range size).map fun k => lastStored init ws (a + k)

theorem toNat_append_byte {n : Nat} (x : BitVec n) (y : BitVec 8) : (x ++ y).toNat = x.toNat * 256 + y.toNat := by
  rw [BitVec.toNat_append, ← Nat.shiftLeft_add_eq_or_of_lt y.isLt, Nat.shiftLeft_eq]

theorem leNat_one (x : BitVec 8) : leNat [x] = x.toNat := by
  simp [leNat]

theorem leNat_two (x y : BitVec 8) : leNat [x, y] = (y ++ x).toNat := by
  simp only [leNat, toNat_append_byte]
  omega

theorem leNat_four (x y z w : BitVec 8) : leNat [x, y, z, w] = (w ++ z ++ y ++ x).toNat := by
  simp only [leNat, toNat_append_byte]
  omega

end CompilerLab.Lib
