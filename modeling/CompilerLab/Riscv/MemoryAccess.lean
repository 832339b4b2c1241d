import CompilerLab.Lib.ByteStore
import CompilerLab.Riscv.Pipeline

/-!
# Accesses to the memory units

The units of the processor on their own, in the way `doMemory` and `doFetch` use them, and what is to be expected of them.
-/

namespace CompilerLab.Riscv

open CompilerLab.Lib

structure MemoryUnits where
  dataMemUnit : DataMemUnit
  instrMemUnit : InstrMemUnit

/-- A use of the units; `mode` is the field `funct3` of the instruction. -/
inductive Access where
  | load (mode : Byte) (address : Word)
  | store (mode : Byte) (address data : Word)
  | fetch (address : Word)

/-- The number of bytes of a mode. -/
def modeSize (mode : Byte) : Nat :=
  match mode.toNat with
  | 0 | 4 => 1
  | 1 | 5 => 2
  | 2 => 4
  | _ => 0

/-- The data memory with the signals of a load. -/
def DataMemUnit.forLoad (m : DataMemUnit) (mode : Byte) (address : Word) : DataMemUnit :=
  { m with storeMode := mode, writeEnable := false, address }

/-- The data memory with the signals of a store. -/
def DataMemUnit.forStore (m : DataMemUnit) (mode : Byte) (address data : Word) : DataMemUnit :=
  { m with storeMode := mode, writeEnable := true, address, writeData := data }

section
variable (m : DataMemUnit) (mode : Byte) (address data : Word)

@[simp] theorem DataMemUnit.forLoad_storeMode : (m.forLoad mode address).storeMode = mode := rfl
@[simp] theorem DataMemUnit.forLoad_address : (m.forLoad mode address).address = address := rfl
@[simp] theorem DataMemUnit.forLoad_memory : (m.forLoad mode address).memory = m.memory := rfl
@[simp] theorem DataMemUnit.forStore_storeMode : (m.forStore mode address data).storeMode = mode := rfl
@[simp] theorem DataMemUnit.forStore_address : (m.forStore mode address data).address = address := rfl
@[simp] theorem DataMemUnit.forStore_memory : (m.forStore mode address data).memory = m.memory := rfl
@[simp] theorem DataMemUnit.forStore_writeData : (m.forStore mode address data).writeData = data := rfl

end

namespace MemoryUnits

/-- The part of `doMemory` that uses the data memory: what has been written stays when reading throws. -/
def useDataMemory (m : DataMemUnit) : DataMemUnit × Except Exception Word :=
  match m.tick with
  | .error e => (m, .error e)
  | .ok m' => (m', m'.getData)

def perform (s : MemoryUnits) : Access → MemoryUnits × Except Exception Word
  | .load mode address =>
      let (dataMemUnit, result) := useDataMemory (s.dataMemUnit.forLoad mode address)
      ({ s with dataMemUnit }, result)
  | .store mode address data =>
      let (dataMemUnit, result) := useDataMemory (s.dataMemUnit.forStore mode address data)
      ({ s with dataMemUnit }, result)
  | .fetch address =>
      let instrMemUnit := { s.instrMemUnit with address }
      ({ s with instrMemUnit }, instrMemUnit.getData)

end MemoryUnits

/-! ## What is expected -/

/-- A value of the bytes `bytes`, in a load of the given mode. -/
def extended (mode : Byte) (bytes : List Byte) : Word :=
  if mode.toNat < 2 then BitVec.ofInt 32 (Int.bmod (leNat bytes) (2 ^ (8 * bytes.length))) else BitVec.ofNat 32 (leNat bytes)

namespace Access

/-- The bytes of the access lie in the array. -/
def Inside : Access → Prop
  | load mode address => address.toNat + modeSize mode ≤ DataMemUnit.capacity * 4
  | store mode address _ => address.toNat + modeSize mode ≤ DataMemUnit.capacity * 4
  | fetch address => address.toNat + 4 ≤ InstrMemUnit.capacity * 4

/-- The bytes the access writes when it is not rejected. -/
def written : Access → List ByteWrite
  | store mode address data =>
      if mode.toNat ≤ 2 then [{ address := address.toNat, bytes := leBytes (modeSize mode) data.toNat }] else []
  | _ => []

/-- The history of the data memory after an access. -/
def history (access : Access) (ws : List ByteWrite) : Except Exception Word → List ByteWrite
  | .ok _ => access.written ++ ws
  | .error _ => ws

/-- The value the access is to return. -/
def value (init : Nat → Byte) (ws : List ByteWrite) (instrMemory : Nat → Word) : Access → Word → Prop
  | load mode address, v => v = extended mode (storedBytes init ws address.toNat (modeSize mode))
  | store _ _ _, _ => True
  | fetch address, v => address.toNat % 4 = 0 → v = instrMemory (address.toNat / 4)

/-- The access lies in its array and returns its value, unless it is rejected with an exception. -/
def Returns (init : Nat → Byte) (ws : List ByteWrite) (instrMemory : Nat → Word) (access : Access) :
    Except Exception Word → Prop
  | .ok v => access.Inside ∧ access.value init ws instrMemory v
  | .error e => e ≠ .outsideArray

end Access

namespace MemoryUnits

/-- After the writes `ws` to a memory that was `init`, the access returns what it is to return, and no byte has changed but
those it writes. -/
def Exact (init : Nat → Byte) (ws : List ByteWrite) (s : MemoryUnits) (access : Access) : Prop :=
  (s.perform access).1.dataMemUnit.memory = lastStored init (access.history ws (s.perform access).2) ∧
    access.Returns init ws s.instrMemUnit.memory (s.perform access).2

/-- Each access of a sequence is exact. -/
def AllExact (init : Nat → Byte) : List ByteWrite → MemoryUnits → List Access → Prop
  | _, _, [] => True
  | ws, s, access :: rest =>
      s.Exact init ws access ∧ AllExact init (access.history ws (s.perform access).2) (s.perform access).1 rest

end MemoryUnits

end CompilerLab.Riscv
