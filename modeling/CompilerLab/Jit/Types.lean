import Mathlib.Data.BitVec
import Mathlib.Tactic.Common

/-!
# Operand types and the words they are stored in

Constants and immediates are kept as 64-bit words whatever their type (`ImmediateMixin<uint64_t>`).
The value a word stands for is read at the declared width and signedness.
-/

namespace CompilerLab.Jit

/-- `OperandType`. -/
inductive OperandType where
  | VOID | I8 | I16 | I32 | I64 | U8 | U16 | U32 | U64 | REF | INVALID
  deriving DecidableEq, Repr

/-- A stored immediate, `uint64_t`. -/
abbrev Word := BitVec 64

/-- `GetTypeBitSize`; `none` is the `UNREACHABLE` of its default case. -/
def getTypeBitSize : OperandType → Option Nat
  | .I8 | .U8 => some 8
  | .I16 | .U16 => some 16
  | .I32 | .U32 => some 32
  | .I64 | .U64 => some 64
  | _ => none

/-- `ToSigned`: only the unsigned types are narrowed, the others keep all 64 bits. -/
def toSigned (value : Word) : OperandType → Word
  | .U8 => (value.setWidth 8).signExtend 64
  | .U16 => (value.setWidth 16).signExtend 64
  | .U32 => (value.setWidth 32).signExtend 64
  | .U64 => value
  | _ => value

/-- `GetMaxValue`, with the entries of `maxValues`; `none` is the `ASSERT` on `INVALID`. -/
def getMaxValue : OperandType → Option Word
  | .VOID => some 0
  | .I8 => some 0x7f
  | .I16 => some 0x7fff
  | .I32 => some 0x7fffffff
  | .I64 => some 0x7fffffffffffffff
  | .U8 => some 0xff
  | .U16 => some 0xffff
  | .U32 => some 0xffffffff
  | .U64 => some 0xffffffffffffffff
  | .REF => some 0
  | .INVALID => none

/-- `IsIntegerType`: the range `I8 ≤ t ≤ U64` of the enumeration. -/
def isIntegerType : OperandType → Bool
  | .VOID | .REF | .INVALID => false
  | _ => true

/-! ## The value of a word at a type -/

namespace OperandType

/-- The signed integer types. -/
def isSigned : OperandType → Bool
  | .I8 | .I16 | .I32 | .I64 => true
  | _ => false

/-- Bits a value of the type has at run time; references are whole words. -/
def width : OperandType → Nat
  | .I8 | .U8 => 8
  | .I16 | .U16 => 16
  | .I32 | .U32 => 32
  | .I64 | .U64 | .REF => 64
  | .VOID | .INVALID => 0

/-- The value of type `t` a stored word stands for: its low `t.width` bits. -/
def trunc (t : OperandType) (w : Word) : BitVec t.width := w.setWidth t.width

/-- The number a value of type `t` denotes. -/
def toInt (t : OperandType) (v : BitVec t.width) : Int := if t.isSigned then v.toInt else v.toNat

theorem width_le (t : OperandType) : t.width ≤ 64 := by
  cases t <;> decide

theorem getTypeBitSize_eq {t : OperandType} (h : isIntegerType t) : getTypeBitSize t = some t.width := by
  cases t <;> first | rfl | cases h

/-- Two values of a type denote the same number only when they are the same bits. -/
theorem toInt_inj {t : OperandType} {v w : BitVec t.width} : t.toInt v = t.toInt w ↔ v = w := by
  unfold toInt
  split
  · exact BitVec.toInt_inj
  · rw [Int.ofNat_inj, BitVec.toNat_inj]

end OperandType

end CompilerLab.Jit
