import CompilerLab.Riscv.Pipeline

/-!
# Instructions executed one at a time

The units of the pipeline, used for one instruction after the other. This is what the pipeline is to be compared with.
-/

namespace CompilerLab.Riscv

/-- The registers after a write-back. -/
def writeBack (we : Bool) (a : Byte) (d : Word) (regs : Byte → Word) : Byte → Word :=
  if we && a != 0 then Function.update regs a d else regs

/-- The memory access of an executed instruction, and the value it writes back. -/
def access (mem : MemoryState) (memory : Nat → Byte) : Except Exception ((Nat → Byte) × Word) := do
  let unit ← (DataMemUnit.setSignals { memory } mem).tickIf mem.memWe
  if mem.memToReg then return (unit.memory, mem.aluRes)
  else return (unit.memory, ← unit.getData)

/-- The word at an address of the instruction memory. -/
def InstrMemUnit.fetch (unit : InstrMemUnit) (pc : Word) : Except Exception Word := { unit with address := pc }.getData

structure Machine where
  pc : Word
  regs : Byte → Word
  memory : Nat → Byte

namespace Machine

/-- The instruction at the program counter with the values of its registers. -/
def decode (unit : InstrMemUnit) (m : Machine) : Except Exception ExecuteState := do
  let instr ← unit.fetch m.pc
  let cu ← ControlUnit.tick (getOpcode instr) (getFunct3 instr) (getFunct7 instr)
  return decoded cu (m.regs (getRs1 instr)) (m.regs (getRs2 instr)) m.pc instr false

/-- One instruction. -/
def step (unit : InstrMemUnit) (m : Machine) : Except Exception Machine := do
  let e ← m.decode unit
  let mem := e.executed e.data1 e.data2
  let (memory, value) ← access mem m.memory
  return {
    pc := if e.redirects e.data1 e.data2 then m.pc + e.pcDisp e.data1 e.data2 else m.pc + 4
    regs := writeBack mem.wbWe mem.wbA value m.regs
    memory }

/-- The first `k` instructions. -/
def run (unit : InstrMemUnit) : Nat → Machine → Except Exception Machine
  | 0, m => .ok m
  | k + 1, m => do (← run unit k m).step unit

end Machine

/-! ## Runs of the pipeline -/

/-- A pipeline that is to execute the instructions from `pc` on. -/
def Pipeline.initial (unit : InstrMemUnit) (m : Machine) : Pipeline :=
  Pipeline.setProgramCounter
    { instrMemUnit := unit, dataMemUnit := { memory := m.memory }, regFile := { regs := m.regs } } m.pc

/-- The state after the given number of ticks. -/
inductive Pipeline.Ticks (s : Pipeline) : Nat → Pipeline → Prop where
  | zero : Ticks s 0 s
  | succ {n : Nat} {t u : Pipeline} : Ticks s n t → t.tick = .ok u → Ticks s (n + 1) u

end CompilerLab.Riscv
