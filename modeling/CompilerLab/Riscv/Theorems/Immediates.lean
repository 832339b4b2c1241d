import CompilerLab.Lib.Rv32iImmediate
import CompilerLab.Riscv.Theorems.Semantics

/-!
# Results on immediates

The extension block returns the immediate of RV32I in every format.
-/

namespace CompilerLab.Riscv

open CompilerLab.Lib

open Rv32i (Format)

def typeOfFormat : Format → InstructionType
  | .I => .IType
  | .S => .SType
  | .B => .BType
  | .U => .UType
  | .J => .JType

theorem getInstructionType_of : ∀ op : BitVec 7, ∀ f ∈ Format.ofOpcode? op,
    getInstructionType (op.setWidth 8) = typeOfFormat f := by decide +kernel

theorem immediateExtensionBlock_eq {w : Word} {f : Format} (h : Format.ofOpcode? (Rv32i.opcode w) = some f) :
    immediateExtensionBlock w = f.immediate w := by
  have htype : getInstructionType (getOpcode w) = typeOfFormat f := by
    rw [getOpcode_eq]
    exact getInstructionType_of _ f h
  cases f with
  | I =>
      have hblock : immediateExtensionBlock w =
          ((w.extractLsb' 31 1).signExtend 20 ++ w.extractLsb' 20 12).setWidth 32 := by
        simp only [immediateExtensionBlock, htype, typeOfFormat]
        exact (BitVec.setWidth_eq _).symm
      rw [hblock]
      apply BitVec.eq_of_getLsbD_eq
      intro i hi
      simp only [Format.immediate, BitVec.getLsbD_append, BitVec.getLsbD_setWidth, BitVec.getLsbD_signExtend,
        BitVec.getLsbD_extractLsb', BitVec.msb_eq_getLsbD_last]
      grind
  | S =>
      have hblock : immediateExtensionBlock w =
          ((w.extractLsb' 31 1).signExtend 20 ++ w.extractLsb' 25 7 ++ w.extractLsb' 7 5).setWidth 32 := by
        simp only [immediateExtensionBlock, htype, typeOfFormat]
        exact (BitVec.setWidth_eq _).symm
      rw [hblock]
      apply BitVec.eq_of_getLsbD_eq
      intro i hi
      simp only [Format.immediate, BitVec.getLsbD_append, BitVec.getLsbD_setWidth, BitVec.getLsbD_signExtend,
        BitVec.getLsbD_extractLsb', BitVec.msb_eq_getLsbD_last]
      grind
  | B =>
      have hblock : immediateExtensionBlock w =
          ((w.extractLsb' 31 1).signExtend 20 ++ w.extractLsb' 7 1 ++ w.extractLsb' 25 6 ++ w.extractLsb' 8 4 ++ 0#1).setWidth 32 := by
        simp only [immediateExtensionBlock, htype, typeOfFormat]
        exact (BitVec.setWidth_eq _).symm
      rw [hblock]
      apply BitVec.eq_of_getLsbD_eq
      intro i hi
      simp only [Format.immediate, BitVec.getLsbD_append, BitVec.getLsbD_setWidth, BitVec.getLsbD_signExtend,
        BitVec.getLsbD_extractLsb', BitVec.msb_eq_getLsbD_last]
      grind
  | U => simp only [immediateExtensionBlock, htype, typeOfFormat, Format.immediate]
  | J =>
      have hblock : immediateExtensionBlock w =
          ((w.extractLsb' 31 1).signExtend 12 ++ w.extractLsb' 12 8 ++ w.extractLsb' 20 1 ++ w.extractLsb' 21 10 ++
            0#1).setWidth 32 := by
        simp only [immediateExtensionBlock, htype, typeOfFormat]
        exact (BitVec.setWidth_eq _).symm
      rw [hblock]
      apply BitVec.eq_of_getLsbD_eq
      intro i hi
      simp only [Format.immediate, BitVec.getLsbD_append, BitVec.getLsbD_setWidth, BitVec.getLsbD_signExtend,
        BitVec.getLsbD_extractLsb', BitVec.msb_eq_getLsbD_last]
      grind

/-- For every word of each of the formats the extension block returns the immediate RV32I defines, and it returns every
immediate the format can represent when that is put into the word. -/
theorem immediateExtensionBlock_exact {w : Word} {f : Format} (h : Format.ofOpcode? (Rv32i.opcode w) = some f) :
    immediateExtensionBlock w = f.immediate w ∧
    ∀ imm, f.Representable imm → immediateExtensionBlock (f.encode imm w) = imm := by
  refine ⟨immediateExtensionBlock_eq h, fun imm himm => ?_⟩
  have hencode : Format.ofOpcode? (Rv32i.opcode (f.encode imm w)) = some f := by
    rw [Format.opcode_encode]
    exact h
  rw [immediateExtensionBlock_eq hencode, Format.immediate_encode w himm]

/-- A branch back by eight bytes. -/
theorem immediateExtensionBlock_exact_branch : immediateExtensionBlock 0xfe208ce3 = Format.immediate .B 0xfe208ce3 ∧
    immediateExtensionBlock (Format.encode .B (-8) 0x00208063) = -8 :=
  ⟨(immediateExtensionBlock_exact (w := 0xfe208ce3) (f := .B) rfl).1,
    (immediateExtensionBlock_exact (w := 0x00208063) (f := .B) rfl).2 (-8) (by decide)⟩

end CompilerLab.Riscv
