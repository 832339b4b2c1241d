import Mathlib.Data.BitVec
import Mathlib.Data.Finset.Basic
import Mathlib.Data.Finset.Card
import CompilerLab.Jit.Ir

/-!
# The register bitmap

`RegMap`. A free register is a 1-bit of a 64-bit word. The masks are made by shifting an `int`, which has 32 bits and is
sign-extended: shifting it by 32 or more is undefined, and `(1 << 31) - 1` wraps around.
-/

namespace CompilerLab.Jit

/-- `1 << n` on `int`. -/
def intBit (n : Nat) : Option (BitVec 32) := if n < 32 then some (1#32 <<< n) else none

/-- `__builtin_ffsll(x) - 1`; `none` is the result for zero. -/
def lowestSetBit (x : BitVec 64) : Option Nat := (List.range 64).find? (x.getLsbD ·)

structure RegMap where
  regsCount : Nat
  map : BitVec 64
  fullMap : BitVec 64
  deriving DecidableEq, Repr

namespace RegMap

/-- `MAX_REGS_COUNT`. -/
def MAX_REGS_COUNT : Nat := 64

/-- The constructor. -/
def make (regsCount : Nat) : Option RegMap := do
  let fullMap ← if MAX_REGS_COUNT ≤ regsCount then some 0
    else (intBit regsCount).map fun bit => (~~~(bit - 1)).signExtend 64
  ASSERT (regsCount ≤ MAX_REGS_COUNT)
  return { regsCount, map := 0 - 1, fullMap }

/-- `IsFull`. -/
def isFull (m : RegMap) : Bool := m.map = m.fullMap

/-- `AcquireReg`: the register, `none` for a negative one, and the map after it. -/
def acquireReg (m : RegMap) : Option (Option Nat × RegMap) :=
  match lowestSetBit m.map with
  | none => some (none, m)
  | some reg =>
      if reg < m.regsCount then do
        let bit ← intBit reg
        return (some reg, { m with map := m.map &&& (~~~bit).signExtend 64 })
      else some (some reg, m)

/-- `ReleaseReg`. -/
def releaseReg (m : RegMap) (reg : Nat) : Option RegMap := do
  ASSERT (reg < m.regsCount)
  let bit ← intBit reg
  return { m with map := m.map ||| bit.signExtend 64 }

/-! ## The registers a map stands for -/

/-- The registers the map can tell apart: bit 31 of an `int` mask reaches all bits above it. -/
def capacity (regsCount : Nat) : Nat := min regsCount 32

/-- The map holds exactly the registers `held`. -/
def Holds (m : RegMap) (held : Finset Nat) : Prop := ∀ i < 64, m.map.getLsbD i = decide (min i 31 ∉ held)

theorem getLsbD_intBit {n : Nat} {bit : BitVec 32} (h : intBit n = some bit) {i : Nat} (hi : i < 64) :
    n < 32 ∧ (bit.signExtend 64).getLsbD i = decide (min i 31 = n) := by
  unfold intBit at h
  split at h
  · rename_i hn
    cases h
    refine ⟨hn, ?_⟩
    -- above the bits of an `int` stands its sign
    have sign : (((1#32 <<< n).signExtend 64).getLsbD i) = (1#32 <<< n).getLsbD (min i 31) := by
      rw [BitVec.getLsbD_signExtend]
      by_cases h32 : i < 32
      · simp [h32, hi, Nat.min_eq_left (Nat.le_of_lt_succ h32)]
      · simp [h32, hi, BitVec.msb_eq_getLsbD_last, Nat.min_eq_right (by omega : 31 ≤ i)]
    rw [sign, BitVec.getLsbD_shiftLeft, BitVec.getLsbD_one]
    grind
  · cases h

theorem getLsbD_not_intBit {n : Nat} {bit : BitVec 32} (h : intBit n = some bit) {i : Nat} (hi : i < 64) :
    ((~~~bit).signExtend 64).getLsbD i = decide (min i 31 ≠ n) := by
  have hbit := (getLsbD_intBit h hi).2
  rw [BitVec.getLsbD_signExtend] at hbit ⊢
  by_cases h32 : i < 32
  · simp_all
  · simp_all [BitVec.msb_eq_getLsbD_last]

/-! ## Making a map -/

/-- The register counts whose masks are defined. -/
def Supported (regsCount : Nat) : Prop := regsCount ≤ 31 ∨ regsCount = 64

/-- The map was made for `regsCount` registers. -/
structure For (regsCount : Nat) (m : RegMap) : Prop where
  supported : Supported regsCount
  count : m.regsCount = regsCount
  full : ∀ i < 64, m.fullMap.getLsbD i = decide (min i 31 ∉ Finset.range (capacity regsCount))

theorem fullMask : ∀ n < 32, ∀ i < 64,
    ((~~~(1#32 <<< n - 1)).signExtend 64).getLsbD i = decide (min i 31 ∉ Finset.range n) := by
  decide +kernel

theorem make_eq_some {regsCount : Nat} (h : Supported regsCount) :
    ∃ m, make regsCount = some m ∧ m.For regsCount ∧ m.Holds ∅ := by
  have ones : ∀ i < 64, ((0 : BitVec 64) - 1).getLsbD i = true := by decide
  rcases h with h | rfl
  · have hlt : regsCount < 32 := by omega
    have hnot : ¬ MAX_REGS_COUNT ≤ regsCount := by unfold MAX_REGS_COUNT; omega
    have hle : regsCount ≤ MAX_REGS_COUNT := by unfold MAX_REGS_COUNT; omega
    refine ⟨{ regsCount, map := 0 - 1, fullMap := (~~~(1#32 <<< regsCount - 1)).signExtend 64 }, ?_,
      ⟨.inl h, rfl, fun i hi => ?_⟩, fun i hi => ?_⟩
    · simp only [make, hnot, if_false, intBit, hlt, if_true, Option.map_some, Option.bind_eq_bind, Option.bind_some,
        ASSERT_of hle, Option.pure_def]
    · rw [fullMask regsCount hlt i hi, capacity, Nat.min_eq_left hlt.le]
    · simp only [ones i hi, Finset.notMem_empty, not_false_eq_true, decide_true]
  · refine ⟨{ regsCount := 64, map := 0 - 1, fullMap := 0 }, rfl, ⟨.inr rfl, rfl, fun i hi => ?_⟩, fun i hi => ?_⟩
    · simp [capacity]
    · simp only [ones i hi, Finset.notMem_empty, not_false_eq_true, decide_true]

theorem make_eq_none {regsCount : Nat} (h : ¬ Supported regsCount) : make regsCount = none := by
  unfold Supported at h
  by_cases h64 : MAX_REGS_COUNT ≤ regsCount
  · have hno : ¬ regsCount ≤ MAX_REGS_COUNT := by unfold MAX_REGS_COUNT at *; omega
    simp [make, h64, ASSERT, hno]
  · have h32 : ¬ regsCount < 32 := by unfold MAX_REGS_COUNT at *; omega
    simp [make, h64, intBit, h32]

/-! ## The operations on the registers held -/

variable {m m' : RegMap} {held : Finset Nat} {regsCount : Nat}

theorem lowestSetBit_eq_some {x : BitVec 64} {r : Nat} (h : lowestSetBit x = some r) :
    r < 64 ∧ x.getLsbD r = true ∧ ∀ i < r, x.getLsbD i = false := by
  unfold lowestSetBit at h
  obtain ⟨hr, n, hn, rfl, hmin⟩ := List.find?_eq_some_iff_getElem.1 h
  simp only [List.length_range] at hn
  simp only [List.getElem_range, Bool.not_eq_eq_eq_not, Bool.not_true] at hr hmin ⊢
  exact ⟨hn, hr, hmin⟩

theorem lowestSetBit_eq_none {x : BitVec 64} (h : lowestSetBit x = none) : ∀ i < 64, x.getLsbD i = false := by
  intro i hi
  have := List.find?_eq_none.1 h i (List.mem_range.2 hi)
  simpa using this

theorem isFull_iff (hf : m.For regsCount) (h : m.Holds held) (hs : held ⊆ Finset.range (capacity regsCount)) :
    m.isFull = true ↔ held = Finset.range (capacity regsCount) := by
  have hcap : capacity regsCount ≤ 32 := Nat.min_le_right _ _
  rw [isFull, decide_eq_true_eq]
  constructor
  · intro heq
    refine Finset.Subset.antisymm hs fun r hr => ?_
    have hlt := Finset.mem_range.1 hr
    have hbit := h r (by omega)
    rw [heq, hf.full r (by omega), Nat.min_eq_left (by omega)] at hbit
    simpa [hlt] using hbit
  · rintro rfl
    refine BitVec.eq_of_getLsbD_eq fun i hi => ?_
    rw [h i hi, hf.full i hi]

/-- A map that is not full gives a register that was not held. -/
theorem acquireReg_eq_some (hf : m.For regsCount) (h : m.Holds held)
    (hs : held ⊂ Finset.range (capacity regsCount)) : ∃ r m', m.acquireReg = some (some r, m') ∧
      r < capacity regsCount ∧ r ∉ held ∧ m'.For regsCount ∧ m'.Holds (insert r held) := by
  have hcap : capacity regsCount ≤ 32 := Nat.min_le_right _ _
  obtain ⟨q, hq, hqh⟩ := Finset.exists_of_ssubset hs
  have hqlt := Finset.mem_range.1 hq
  have hqbit : m.map.getLsbD q = true := by
    rw [h q (by omega), Nat.min_eq_left (by omega)]
    simpa using hqh
  cases hl : lowestSetBit m.map with
  | none =>
      rw [lowestSetBit_eq_none hl q (by omega)] at hqbit
      cases hqbit
  | some r =>
      obtain ⟨hr64, hrbit, hmin⟩ := lowestSetBit_eq_some hl
      have hrq : r ≤ q := by
        by_contra hlt
        rw [hmin q (by omega)] at hqbit
        cases hqbit
      have hr32 : r < 32 := by omega
      have hrh : r ∉ held := by
        rw [h r hr64, Nat.min_eq_left (by omega)] at hrbit
        simpa using hrbit
      have hrc : r < m.regsCount := by
        have := hf.count
        unfold capacity at hqlt
        omega
      have hbit : intBit r = some (1#32 <<< r) := if_pos hr32
      refine ⟨r, { m with map := m.map &&& (~~~(1#32 <<< r)).signExtend 64 }, ?_, by omega, hrh,
        ⟨hf.supported, hf.count, hf.full⟩, fun i hi => ?_⟩
      · simp [acquireReg, hl, hrc, hbit]
      · rw [BitVec.getLsbD_and, h i hi, getLsbD_not_intBit hbit hi]
        by_cases hir : min i 31 = r <;> simp [hir]

theorem releaseReg_eq_some (hf : m.For regsCount) (h : m.Holds held) {r : Nat}
    (hr : r < capacity regsCount) : ∃ m', m.releaseReg r = some m' ∧ m'.For regsCount ∧ m'.Holds (held.erase r) := by
  have hr32 : r < 32 := hr.trans_le (Nat.min_le_right _ _)
  have hrc : r < m.regsCount := hf.count ▸ hr.trans_le (Nat.min_le_left _ _)
  have hbit : intBit r = some (1#32 <<< r) := if_pos hr32
  refine ⟨{ m with map := m.map ||| (1#32 <<< r).signExtend 64 }, ?_, ⟨hf.supported, hf.count, hf.full⟩,
    fun i hi => ?_⟩
  · simp [releaseReg, hrc, hbit, ASSERT_of]
  · rw [BitVec.getLsbD_or, h i hi, (getLsbD_intBit hbit hi).2]
    by_cases hir : min i 31 = r <;> simp [hir]

end RegMap

end CompilerLab.Jit
