import CompilerLab.Lib.Rv32i

/-!
# Immediates of RV32I

The five formats that hold an immediate. Its bits are scattered over the word, with the sign always in the highest bit.
-/

namespace CompilerLab.Lib.Rv32i

inductive Format where
  | I | S | B | U | J
  deriving DecidableEq, Repr

namespace Format

/-- The format of the instructions with an opcode; `0b1110011` is SYSTEM. -/
def ofOpcode? (opcode : BitVec 7) : Option Format :=
  match opcode with
  | 0b0110111#7 => some U
  | 0b0010111#7 => some U
  | 0b1101111#7 => some J
  | 0b1100111#7 => some I
  | 0b1100011#7 => some B
  | 0b0000011#7 => some I
  | 0b0100011#7 => some S
  | 0b0010011#7 => some I
  | 0b1110011#7 => some I
  | _ => none

/-- The immediate in a word: its bits are gathered, and the highest of them is extended. -/
def immediate (f : Format) (w : Word) : Word :=
  match f with
  | I => (w.extractLsb' 20 12).signExtend 32
  | S => (w.extractLsb' 25 7 ++ w.extractLsb' 7 5).signExtend 32
  | B => (w.extractLsb' 31 1 ++ w.extractLsb' 7 1 ++ w.extractLsb' 25 6 ++ w.extractLsb' 8 4 ++ 0#1).signExtend 32
  | U => w.extractLsb' 12 20 ++ 0#12
  | J => (w.extractLsb' 31 1 ++ w.extractLsb' 12 8 ++ w.extractLsb' 20 1 ++ w.extractLsb' 21 10 ++ 0#1).signExtend 32

/-- The word `w` with an immediate put in the place the format has for it. -/
def encode (f : Format) (imm w : Word) : Word :=
  match f with
  | I => imm.extractLsb' 0 12 ++ w.extractLsb' 0 20
  | S => imm.extractLsb' 5 7 ++ w.extractLsb' 12 13 ++ imm.extractLsb' 0 5 ++ w.extractLsb' 0 7
  | B =>
    imm.extractLsb' 12 1 ++ imm.extractLsb' 5 6 ++ w.extractLsb' 12 13 ++ imm.extractLsb' 1 4 ++ imm.extractLsb' 11 1 ++
      w.extractLsb' 0 7
  | U => imm.extractLsb' 12 20 ++ w.extractLsb' 0 12
  | J =>
    imm.extractLsb' 20 1 ++ imm.extractLsb' 1 10 ++ imm.extractLsb' 11 1 ++ imm.extractLsb' 12 8 ++ w.extractLsb' 0 12

/-- The immediates the format has room for: the offsets of branches and jumps are even, and those of `U` are multiples of
4096. -/
def Representable (f : Format) (imm : Word) : Prop :=
  match f with
  | I => -2 ^ 11 ≤ imm.toInt ∧ imm.toInt < 2 ^ 11
  | S => -2 ^ 11 ≤ imm.toInt ∧ imm.toInt < 2 ^ 11
  | B => -2 ^ 12 ≤ imm.toInt ∧ imm.toInt < 2 ^ 12 ∧ imm.toNat % 2 = 0
  | U => imm.toNat % 2 ^ 12 = 0
  | J => -2 ^ 20 ≤ imm.toInt ∧ imm.toInt < 2 ^ 20 ∧ imm.toNat % 2 = 0

instance (f : Format) (imm : Word) : Decidable (f.Representable imm) := by
  cases f <;> unfold Representable <;> infer_instance

/-- An immediate survives when only its lowest bits are kept and it lies in their range. -/
theorem signExtend_low {n : Nat} {imm : Word} (hn : n < 32) (hlo : -2 ^ n ≤ imm.toInt) (hhi : imm.toInt < 2 ^ n) :
    (imm.extractLsb' 0 (n + 1)).signExtend 32 = imm := by
  have hpow : 2 ^ (n + 1) = 2 * 2 ^ n := by rw [Nat.pow_succ, Nat.mul_comm]
  have hcast : ((2 ^ n : Nat) : Int) = 2 ^ n := Int.natCast_pow 2 n
  have hlow : imm.extractLsb' 0 (n + 1) = imm.signExtend (n + 1) := by
    rw [BitVec.signExtend_eq_setWidth_of_le _ (by omega), BitVec.setWidth_eq_extractLsb' (by omega)]
  apply BitVec.eq_of_toInt_eq
  rw [hlow, BitVec.toInt_signExtend_of_le (by omega), BitVec.toInt_signExtend_eq_toInt_bmod_of_le _ (by omega), hpow]
  apply Int.bmod_eq_of_le
  · omega
  · omega

/-- The lowest bits of a multiple are zero. -/
theorem getLsbD_of_mod {n i : Nat} {imm : Word} (h : imm.toNat % 2 ^ n = 0) (hi : i < n) : imm.getLsbD i = false := by
  have hbit := Nat.testBit_mod_two_pow imm.toNat n i
  rw [h, decide_eq_true hi, Bool.true_and, Nat.zero_testBit] at hbit
  exact hbit.symm

/-! ## The bits of an encoded word -/

variable (imm w : Word) (i : Nat)

theorem getLsbD_encode_I : (I.encode imm w).getLsbD i =
    if i < 20 then w.getLsbD i else decide (i < 32) && imm.getLsbD (i - 20) := by
  have h : I.encode imm w = (imm.extractLsb' 0 12 ++ w.extractLsb' 0 20).setWidth 32 := (BitVec.setWidth_eq _).symm
  rw [h]
  simp only [BitVec.getLsbD_append, BitVec.getLsbD_setWidth, BitVec.getLsbD_extractLsb']
  grind

theorem getLsbD_encode_S : (S.encode imm w).getLsbD i =
    if i < 7 then w.getLsbD i else if i < 12 then imm.getLsbD (i - 7) else if i < 25 then w.getLsbD i
    else decide (i < 32) && imm.getLsbD (i - 20) := by
  have h : S.encode imm w = (imm.extractLsb' 5 7 ++ w.extractLsb' 12 13 ++ imm.extractLsb' 0 5 ++
    w.extractLsb' 0 7).setWidth 32 := (BitVec.setWidth_eq _).symm
  rw [h]
  simp only [BitVec.getLsbD_append, BitVec.getLsbD_setWidth, BitVec.getLsbD_extractLsb']
  grind

theorem getLsbD_encode_B : (B.encode imm w).getLsbD i =
    if i < 7 then w.getLsbD i else if i = 7 then imm.getLsbD 11 else if i < 12 then imm.getLsbD (i - 7)
    else if i < 25 then w.getLsbD i else if i < 31 then imm.getLsbD (i - 20) else i == 31 && imm.getLsbD 12 := by
  have h : B.encode imm w = (imm.extractLsb' 12 1 ++ imm.extractLsb' 5 6 ++ w.extractLsb' 12 13 ++ imm.extractLsb' 1 4 ++
    imm.extractLsb' 11 1 ++ w.extractLsb' 0 7).setWidth 32 := (BitVec.setWidth_eq _).symm
  rw [h]
  simp only [BitVec.getLsbD_append, BitVec.getLsbD_setWidth, BitVec.getLsbD_extractLsb']
  grind

theorem getLsbD_encode_U : (U.encode imm w).getLsbD i =
    if i < 12 then w.getLsbD i else decide (i < 32) && imm.getLsbD i := by
  have h : U.encode imm w = (imm.extractLsb' 12 20 ++ w.extractLsb' 0 12).setWidth 32 := (BitVec.setWidth_eq _).symm
  rw [h]
  simp only [BitVec.getLsbD_append, BitVec.getLsbD_setWidth, BitVec.getLsbD_extractLsb']
  grind

theorem getLsbD_encode_J : (J.encode imm w).getLsbD i =
    if i < 12 then w.getLsbD i else if i < 20 then imm.getLsbD i else if i = 20 then imm.getLsbD 11
    else if i < 31 then imm.getLsbD (i - 20) else i == 31 && imm.getLsbD 20 := by
  have h : J.encode imm w = (imm.extractLsb' 20 1 ++ imm.extractLsb' 1 10 ++ imm.extractLsb' 11 1 ++ imm.extractLsb' 12 8 ++
    w.extractLsb' 0 12).setWidth 32 := (BitVec.setWidth_eq _).symm
  rw [h]
  simp only [BitVec.getLsbD_append, BitVec.getLsbD_setWidth, BitVec.getLsbD_extractLsb']
  grind

/-- The opcode of a word stays when an immediate is put in. -/
theorem opcode_encode (f : Format) : opcode (f.encode imm w) = opcode w := by
  apply BitVec.eq_of_getLsbD_eq
  intro i hi
  rw [opcode, opcode, BitVec.getLsbD_extractLsb', BitVec.getLsbD_extractLsb', Nat.zero_add]
  cases f with
  | I => rw [getLsbD_encode_I, if_pos (by omega)]
  | S => rw [getLsbD_encode_S, if_pos hi]
  | B => rw [getLsbD_encode_B, if_pos hi]
  | U => rw [getLsbD_encode_U, if_pos (by omega)]
  | J => rw [getLsbD_encode_J, if_pos (by omega)]

variable {imm}

/-- An immediate that has been put in is got out again. -/
theorem immediate_encode {f : Format} (h : f.Representable imm) : f.immediate (f.encode imm w) = imm := by
  cases f with
  | I =>
      refine Eq.trans (congrArg (BitVec.signExtend 32) ?_) (signExtend_low (by decide) h.1 h.2)
      apply BitVec.eq_of_getLsbD_eq
      intro i hi
      simp only [BitVec.getLsbD_extractLsb', getLsbD_encode_I]
      grind
  | S =>
      refine Eq.trans (congrArg (BitVec.signExtend 32) ?_) (signExtend_low (by decide) h.1 h.2)
      apply BitVec.eq_of_getLsbD_eq
      intro i hi
      simp only [BitVec.getLsbD_append, BitVec.getLsbD_extractLsb', getLsbD_encode_S]
      grind
  | B =>
      refine Eq.trans (congrArg (BitVec.signExtend 32) ?_) (signExtend_low (by decide) h.1 h.2.1)
      have hzero : imm.getLsbD 0 = false := getLsbD_of_mod (n := 1) h.2.2 (by decide)
      apply BitVec.eq_of_getLsbD_eq
      intro i hi
      simp only [BitVec.getLsbD_append, BitVec.getLsbD_extractLsb', getLsbD_encode_B]
      grind
  | U =>
      have hzero : ∀ i < 12, imm.getLsbD i = false := fun i hi => getLsbD_of_mod h hi
      have himm : U.immediate (U.encode imm w) = ((U.encode imm w).extractLsb' 12 20 ++ 0#12).setWidth 32 :=
        (BitVec.setWidth_eq _).symm
      rw [himm]
      apply BitVec.eq_of_getLsbD_eq
      intro i hi
      simp only [BitVec.getLsbD_append, BitVec.getLsbD_setWidth, BitVec.getLsbD_extractLsb', getLsbD_encode_U]
      grind
  | J =>
      refine Eq.trans (congrArg (BitVec.signExtend 32) ?_) (signExtend_low (by decide) h.1 h.2.1)
      have hzero : imm.getLsbD 0 = false := getLsbD_of_mod (n := 1) h.2.2 (by decide)
      apply BitVec.eq_of_getLsbD_eq
      intro i hi
      simp only [BitVec.getLsbD_append, BitVec.getLsbD_extractLsb', getLsbD_encode_J]
      grind

end Format

end CompilerLab.Lib.Rv32i
