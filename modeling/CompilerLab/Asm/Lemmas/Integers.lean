import CompilerLab.Asm.Integers
import CompilerLab.Asm.Runs

/-!
# The doubles that are integers

The bits of an integer are read back as the integer, so the operations on them are exact.
-/

namespace CompilerLab.Asm.Doubles

/-- The fields of the bits of `m`, whose highest bit is at `e`. -/
theorem decode_fields {m e : Nat} (hlow : 2 ^ e ≤ m) (hhigh : m < 2 ^ (e + 1)) (he : e ≤ 52) :
    decode (BitVec.ofNat 64 ((e + 1023) * 2 ^ 52 + (m - 2 ^ e) * 2 ^ (52 - e))) = m := by
  have hsplit : 2 ^ e * 2 ^ (52 - e) = 2 ^ 52 := by rw [← Nat.pow_add, Nat.add_sub_cancel' he]
  have hfraction : (m - 2 ^ e) * 2 ^ (52 - e) < 2 ^ 52 := by
    rw [← hsplit]
    refine Nat.mul_lt_mul_of_pos_right ?_ (Nat.two_pow_pos _)
    rw [Nat.pow_succ] at hhigh
    omega
  have hwhole : 2 ^ 52 + (m - 2 ^ e) * 2 ^ (52 - e) = m * 2 ^ (52 - e) := by
    rw [← hsplit, ← Nat.add_mul, Nat.add_sub_cancel' hlow]
  generalize hfield : (m - 2 ^ e) * 2 ^ (52 - e) = fraction at hfraction hwhole
  have htoNat : (BitVec.ofNat 64 ((e + 1023) * 2 ^ 52 + fraction)).toNat = (e + 1023) * 2 ^ 52 + fraction := by
    rw [BitVec.toNat_ofNat]
    exact Nat.mod_eq_of_lt (by omega)
  have hexponent : ((e + 1023) * 2 ^ 52 + fraction) / 2 ^ 52 % 2 ^ 11 = e + 1023 := by omega
  have hmantissa : ((e + 1023) * 2 ^ 52 + fraction) % 2 ^ 52 = fraction := by omega
  have hshift : 1075 - (e + 1023) = 52 - e := by omega
  unfold decode
  rw [htoNat, hexponent, hmantissa]
  dsimp only
  rw [hshift, hwhole, if_neg (by omega), if_pos (by omega), if_pos (by omega), Nat.mul_div_cancel _ (Nat.two_pow_pos _)]

theorem decode_encode {n : Int} (h : 0 ≤ n) (hn : n < 2 ^ 53) : decode (encode n) = n := by
  obtain ⟨m, rfl⟩ := Int.eq_ofNat_of_zero_le h
  by_cases hzero : m = 0
  · subst hzero
    rfl
  · have hne : (m : Int) ≠ 0 := by exact_mod_cast hzero
    have hlow : 2 ^ m.log2 ≤ m := Nat.log2_self_le hzero
    have hhigh : m < 2 ^ (m.log2 + 1) := Nat.lt_log2_self
    have he : m.log2 ≤ 52 := by
      have hlt : m < 2 ^ 53 := by exact_mod_cast hn
      exact Nat.le_of_lt_succ ((Nat.log2_lt hzero).2 hlt)
    rw [encode, if_neg hne, if_neg (not_lt.2 h), Int.natAbs_natCast]
    dsimp only
    rw [Nat.zero_add]
    exact decode_fields hlow hhigh he

theorem integers_exact : integers.Exact where
  zero := rfl
  toInt_ofInt n h hn := decode_encode h (by omega)
  add m n hm hn h := by
    change encode (decode (encode m) + decode (encode n)) = encode (m + n)
    rw [decode_encode hm (by omega), decode_encode hn (by omega)]
  sub m n hn hmn h := by
    change encode (decode (encode m) - decode (encode n)) = encode (m - n)
    rw [decode_encode (by omega) (by omega), decode_encode hn (by omega)]

end CompilerLab.Asm.Doubles
