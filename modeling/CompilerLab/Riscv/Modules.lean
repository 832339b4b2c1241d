import Mathlib.Logic.Function.Basic
import Mathlib.Tactic.Common

/-!
# The units of the processor

A word is four bytes, the one with the lowest address in its lowest bits. What reads or writes outside an array has no
defined result; it stops the model with `Exception.outsideArray`.
-/

namespace CompilerLab.Riscv

/-- `byte_`. -/
abbrev Byte := BitVec 8

/-- `byte2_`. -/
abbrev Byte2 := BitVec 16

/-- `word_`. -/
abbrev Word := BitVec 32

/-- What the simulator throws, and an access outside an array. -/
inductive Exception where
  | InvalidAddressException (what : String)
  | AlignmentException (what : String)
  | UnsupportedException (what : String)
  | EbreakException
  | invalid_argument (what : String)
  | logic_error (what : String)
  | out_of_range
  | outsideArray
  deriving DecidableEq, Repr

/-- What comes before a step that is taken has not thrown. -/
theorem bind_eq_ok {α β : Type} {x : Except Exception α} {f : α → Except Exception β} {b : β} :
    x >>= f = .ok b ↔ ∃ a, x = .ok a ∧ f a = .ok b := by
  cases x with
  | error e =>
      constructor
      · nofun
      · rintro ⟨_, h, -⟩
        cases h
  | ok a =>
      constructor
      · exact fun h => ⟨a, rfl, h⟩
      · rintro ⟨_, h, hf⟩
        cases h
        exact hf

def signExtendFromByte (target : Byte) : Word := target.signExtend 32

def signExtendFromByte2 (target : Byte2) : Word := target.signExtend 32

/-! ## Gates -/

/-- `Multiplexer2`. -/
def multiplexer2 {α : Type} (control : Bool) (src1 src2 : α) : α := if control then src2 else src1

/-! ## ALU and comparator -/

inductive ALUControl where
  | NOP | ADD | SUB | SLL | SLT | SLTU | XOR | SRL | SRA | OR | AND
  deriving DecidableEq, Repr

/-- `ALU`; shifts use the least-significant 5 bits only. -/
def ALU (controlSignal : ALUControl) (srcA srcB : Word) : Word :=
  match controlSignal with
  | .NOP => 0
  | .ADD => srcA + srcB
  | .SUB => srcA - srcB
  | .AND => srcA &&& srcB
  | .OR => srcA ||| srcB
  | .XOR => srcA ^^^ srcB
  | .SLL => srcA <<< (srcB &&& 0x1f#32)
  | .SRL => srcA >>> (srcB &&& 0x1f#32)
  | .SRA => srcA.sshiftRight (srcB &&& 0x1f#32).toNat
  | .SLT => if srcA.slt srcB then 1 else 0
  | .SLTU => if srcA.ult srcB then 1 else 0

inductive CmpControl where
  | NOP | EQ | NE | LT | GE | LTU | GEU
  deriving DecidableEq, Repr

/-- `Cmp<word_>`; words are unsigned. -/
def Cmp (control : CmpControl) (lhs rhs : Word) : Bool :=
  match control with
  | .NOP => false
  | .EQ => lhs == rhs
  | .NE => lhs != rhs
  | .LT => lhs.ult rhs
  | .LTU => lhs.ult rhs
  | .GE => !lhs.ult rhs
  | .GEU => !lhs.ult rhs

/-! ## Registers -/

/-- `Register`. -/
structure Register (α : Type) where
  enableFlag : Bool := true
  next : α
  current : α

namespace Register

variable {α : Type}

def tick (r : Register α) : Register α := if r.enableFlag then { r with current := r.next } else r

def clear (zero : α) (r : Register α) : Register α := { r with current := zero, next := zero }

end Register

/-- `RegFile`. -/
structure RegFile where
  address1 : Byte := 0
  address2 : Byte := 0
  address3 : Byte := 0
  writeEnable3 : Bool := false
  writeData3 : Word := 0
  regs : Byte → Word := fun _ => 0
  readData1 : Word := 0
  readData2 : Word := 0

namespace RegFile

/-- `regs.at`. -/
def at' (f : RegFile) (address : Byte) : Except Exception Word :=
  if address.toNat < 32 then .ok (f.regs address) else .error .out_of_range

def setNewSignals (f : RegFile) (addr1 addr2 addr3 : Byte) (we3 : Bool) (wd3 : Word) : RegFile :=
  { f with address1 := addr1, address2 := addr2, address3 := addr3, writeEnable3 := we3, writeData3 := wd3 }

/-- The write of `RegFile::tick`. -/
def write (f : RegFile) : Except Exception RegFile :=
  if f.writeEnable3 && f.address3 != 0 then do
    let _ ← f.at' f.address3
    return { f with regs := Function.update f.regs f.address3 f.writeData3 }
  else .ok f

def tick (f : RegFile) : Except Exception RegFile := do
  let f ← f.write
  let readData1 ← f.at' f.address1
  let readData2 ← f.at' f.address2
  return { f with readData1, readData2 }

end RegFile

/-! ## Memories -/

/-- The bytes of `size` from `address` on lie in an array of `bytes` bytes. -/
def inArray (bytes address size : Nat) : Except Exception Unit :=
  if address + size ≤ bytes then .ok () else .error .outsideArray

/-- `DataMemUnit`. -/
structure DataMemUnit where
  storeMode : Byte := 0
  writeEnable : Bool := false
  address : Word := 0
  writeData : Word := 0
  memory : Nat → Byte := fun _ => 0
  readData : Word := 0

namespace DataMemUnit

/-- `capacity`, in words. -/
def capacity : Nat := 4096

/-- `InvalidAddressException` for an address past the end of the memory, in an access of the given kind. -/
def checkAddress (address : Word) (access : String) : Except Exception Unit :=
  if address.toNat > capacity * 4 then
    .error (.InvalidAddressException ("data " ++ access ++ " overflow - address=" ++ toString address.toNat))
  else .ok ()

/-- The low `size` bytes of a word are written from the byte `a` on. -/
def writeBytes (memory : Nat → Byte) (a size : Nat) (w : Word) : Nat → Byte := fun i =>
  if a ≤ i ∧ i < a + size then w.extractLsb' (8 * (i - a)) 8 else memory i

/-- `storeValue`; a mode that is none of `StoreMode` stores nothing. -/
def storeValue (storeMode : Byte) (address writeData : Word) (memory : Nat → Byte) : Except Exception (Nat → Byte) :=
  let a := address.toNat
  match storeMode.toNat with
  | 0 => do
      inArray (capacity * 4) a 1
      return writeBytes memory a 1 writeData
  | 1 => do
      inArray (capacity * 4) a 2
      return writeBytes memory a 2 writeData
  | 2 => do
      inArray (capacity * 4) a 4
      return writeBytes memory a 4 writeData
  | _ => .ok memory

/-- `loadValue`. -/
def loadValue (storeMode : Byte) (address : Word) (memory : Nat → Byte) : Except Exception Word :=
  let a := address.toNat
  match storeMode.toNat with
  | 0 => do
      inArray (capacity * 4) a 1
      return signExtendFromByte (memory a)
  | 1 => do
      inArray (capacity * 4) a 2
      return signExtendFromByte2 (memory (a + 1) ++ memory a)
  | 2 => do
      inArray (capacity * 4) a 4
      return memory (a + 3) ++ memory (a + 2) ++ memory (a + 1) ++ memory a
  | 4 => do
      inArray (capacity * 4) a 1
      return (memory a).setWidth 32
  | 5 => do
      inArray (capacity * 4) a 2
      return (memory (a + 1) ++ memory a).setWidth 32
  | _ => .error (.logic_error ("invalid funct3: " ++ toString storeMode.toNat))

def getData (m : DataMemUnit) : Except Exception Word := do
  checkAddress m.address "read"
  loadValue m.storeMode m.address m.memory

def tick (m : DataMemUnit) : Except Exception DataMemUnit :=
  if m.writeEnable then do
    checkAddress m.address "write"
    return { m with memory := ← storeValue m.storeMode m.address m.writeData m.memory }
  else do
    return { m with readData := ← m.getData }

/-- A tick that the pipeline may leave out. -/
def tickIf (m : DataMemUnit) (p : Bool) : Except Exception DataMemUnit := if p then m.tick else .ok m

end DataMemUnit

/-- `InstrMemUnit`; `memory` holds words. -/
structure InstrMemUnit where
  address : Word := 0
  memory : Nat → Word := fun _ => 0
  startOfSection : Word := 0
  endOfSection : Word := 0

namespace InstrMemUnit

/-- `capacity`, in words. -/
def capacity : Nat := 1024

/-- The unit that holds `instructions` from `startAddress` on. -/
def new (instructions : List Word) (startAddress : Word) : Except Exception InstrMemUnit := do
  if startAddress.toNat % 4 ≠ 0 then
    .error (.AlignmentException ("start_address: " ++ toString startAddress.toNat ++ " % 4 != 0"))
  else do
    inArray capacity (startAddress.toNat / 4) instructions.length
    return {
      memory := fun i => if i < startAddress.toNat / 4 then 0 else instructions.getD (i - startAddress.toNat / 4) 0
      startOfSection := startAddress
      endOfSection := startAddress + BitVec.ofNat 32 (instructions.length * 4) }

/-- `getData`; a word that is not aligned has its bytes in two words of the array. -/
def getData (m : InstrMemUnit) : Except Exception Word := do
  let a := m.address.toNat
  inArray (capacity * 4) a 4
  return (m.memory (a / 4 + 1) ++ m.memory (a / 4)).extractLsb' (8 * (a % 4)) 32

def isPcOutOfSection (m : InstrMemUnit) (pc : Word) : Bool := pc.ult m.startOfSection || !pc.ult m.endOfSection

end InstrMemUnit

end CompilerLab.Riscv
