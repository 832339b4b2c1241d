import CompilerLab.Riscv.ControlUnit

/-!
# The pipeline

`pipeline.cpp`. A tick runs the stages from the last one to the first one, then the registers between them, then the hazard
unit.
-/

namespace CompilerLab.Riscv

inductive BypassOptionsEncoding where
  | REG | MEM | WB
  deriving DecidableEq, Repr

/-! ## The registers between the stages -/

structure DecodeState where
  vDe : Bool := false
  pcDe : Word := 0
  instr : Word := 0
  deriving DecidableEq

structure ExecuteState where
  funct3 : Byte := 0
  isJalr : Bool := false
  aluOp : ALUControl := .NOP
  aluSrc2 : Bool := false
  memToReg : Bool := false
  wbWe : Bool := false
  memWe : Bool := false
  cmpControl : CmpControl := .NOP
  brnCond : Bool := false
  jmpCond : Bool := false
  vDe : Bool := false
  data1 : Word := 0
  data2 : Word := 0
  pcDe : Word := 0
  instr : Word := 0
  deriving DecidableEq

structure MemoryState where
  memWe : Bool := false
  memToReg : Bool := false
  wbWe : Bool := false
  jmpCond : Bool := false
  storeMode : Byte := 0
  writeData : Word := 0
  aluRes : Word := 0
  wbA : Byte := 0
  deriving DecidableEq

structure WriteBackState where
  wbWe : Bool := false
  wbD : Word := 0
  wbA : Byte := 0
  deriving DecidableEq

structure Pipeline where
  ticksCounter : Nat := 0
  lastInstructionsCounter : Nat := 0
  lastInstructionsFlag : Bool := false
  bpMem : Word := 0
  pcDisp : Word := 0
  pcR : Bool := false
  huRs1 : BypassOptionsEncoding := .REG
  huRs2 : BypassOptionsEncoding := .REG
  instrMemUnit : InstrMemUnit := {}
  dataMemUnit : DataMemUnit := {}
  regFile : RegFile := {}
  controlUnit : ControlUnit := {}
  programCounter : Register Word := { next := 0, current := 0 }
  decodeRegister : Register DecodeState := { next := {}, current := {} }
  executeRegister : Register ExecuteState := { next := {}, current := {} }
  memoryRegister : Register MemoryState := { next := {}, current := {} }
  writeBackRegister : Register WriteBackState := { next := {}, current := {} }

/-- The choice between a value read in decode, the one of the memory stage and the one of the write-back stage. -/
def BypassOptionsEncoding.select (control : BypassOptionsEncoding) (reg mem wb : Word) : Word :=
  match control with
  | .REG => reg
  | .MEM => mem
  | .WB => wb

/-! ## What the stages compute -/

/-- The decoded instruction with what has been read from its registers; `AUIPC` has its address as its first operand and
`LUI` has zero. -/
def decoded (cu : ControlUnit) (readData1 readData2 pcDe instr : Word) (vDe : Bool) : ExecuteState where
  aluOp := cu.aluOp
  aluSrc2 := cu.aluSrc2
  isJalr := cu.isJalr
  wbWe := cu.wbWe
  memWe := cu.memWe
  memToReg := cu.memToReg
  brnCond := cu.brnCond
  jmpCond := cu.jmpCond
  cmpControl := cu.cmpControl
  funct3 := cu.funct3
  data1 := multiplexer2 (cu.opcode == 0b0110111#8) (multiplexer2 (cu.opcode == 0b0010111#8) readData1 pcDe) 0
  data2 := readData2
  pcDe := pcDe
  instr := instr
  vDe := vDe

/-- Whether an instruction with the given operands redirects the program counter. -/
def ExecuteState.redirects (e : ExecuteState) (srcA rs2v : Word) : Bool :=
  e.jmpCond || Cmp e.cmpControl srcA rs2v && e.brnCond

/-- The result of the ALU. -/
def ExecuteState.aluRes (e : ExecuteState) (srcA rs2v : Word) : Word :=
  ALU e.aluOp srcA (multiplexer2 e.aluSrc2 rs2v (immediateExtensionBlock e.instr))

/-- The displacement of the program counter. -/
def ExecuteState.pcDisp (e : ExecuteState) (srcA rs2v : Word) : Word :=
  if e.isJalr then e.aluRes srcA rs2v &&& 0xfffffffe#32 else immediateExtensionBlock e.instr

/-- What is handed to the memory stage; `JAL` and `JALR` write the address of the next instruction. -/
def ExecuteState.executed (e : ExecuteState) (srcA rs2v : Word) : MemoryState where
  storeMode := e.funct3
  memWe := e.memWe && !e.vDe
  memToReg := e.memToReg
  wbWe := e.wbWe && !e.vDe
  jmpCond := e.jmpCond
  writeData := rs2v
  aluRes := if e.jmpCond then e.pcDe + 4 else e.aluRes srcA rs2v
  wbA := getRd e.instr

/-- The data memory with the signals of an instruction that reads or writes it. -/
def DataMemUnit.setSignals (m : DataMemUnit) (mem : MemoryState) : DataMemUnit :=
  { m with storeMode := mem.storeMode, writeEnable := mem.memWe, address := mem.aluRes, writeData := mem.writeData }

namespace Pipeline

/-! ## The stages -/

/-- The values the bypasses select for the instruction in the execute stage. -/
def srcA (s : Pipeline) : Word :=
  s.huRs1.select s.executeRegister.current.data1 s.bpMem s.writeBackRegister.current.wbD

def rs2v (s : Pipeline) : Word :=
  s.huRs2.select s.executeRegister.current.data2 s.bpMem s.writeBackRegister.current.wbD

def doMemory (s : Pipeline) : Except Exception Pipeline := do
  let memRegCur := s.memoryRegister.current
  let used := !memRegCur.memToReg || memRegCur.memWe
  let dataMemUnit ← (if used then s.dataMemUnit.setSignals memRegCur else s.dataMemUnit).tickIf used
  let data ← dataMemUnit.getData
  return { s with
    dataMemUnit
    writeBackRegister := { s.writeBackRegister with
      next := { wbWe := memRegCur.wbWe, wbD := multiplexer2 memRegCur.memToReg data memRegCur.aluRes, wbA := memRegCur.wbA } }
    bpMem := memRegCur.aluRes }

def doExecute (s : Pipeline) : Pipeline :=
  let execRegCur := s.executeRegister.current
  { s with
    pcDisp := execRegCur.pcDisp s.srcA s.rs2v
    pcR := execRegCur.redirects s.srcA s.rs2v
    memoryRegister := { s.memoryRegister with next := execRegCur.executed s.srcA s.rs2v }
    decodeRegister := { s.decodeRegister with
      next := { s.decodeRegister.next with vDe := execRegCur.redirects s.srcA s.rs2v } } }

def doDecode (s : Pipeline) : Except Exception Pipeline := do
  let decodeStageInstr := s.decodeRegister.current
  let writeBack := s.writeBackRegister.current
  let regFile ← (s.regFile.setNewSignals (getRs1 decodeStageInstr.instr) (getRs2 decodeStageInstr.instr) writeBack.wbA
    writeBack.wbWe writeBack.wbD).tick
  let controlUnit ← ControlUnit.tick (getOpcode decodeStageInstr.instr) (getFunct3 decodeStageInstr.instr)
    (getFunct7 decodeStageInstr.instr)
  return { s with
    regFile, controlUnit
    executeRegister := { s.executeRegister with
      next := decoded controlUnit regFile.readData1 regFile.readData2 decodeStageInstr.pcDe decodeStageInstr.instr
        (s.pcR || decodeStageInstr.vDe) } }

/-- The part of `doFetch` that ends the run when the program counter is out of the instructions section. -/
def leaveSection (s : Pipeline) : Except Exception Pipeline :=
  if !s.lastInstructionsFlag && s.instrMemUnit.isPcOutOfSection s.programCounter.current &&
      !(s.executeRegister.next.jmpCond || s.executeRegister.next.brnCond) then
    if s.memoryRegister.current.jmpCond then
      .ok { s with
        lastInstructionsFlag := true
        lastInstructionsCounter := 1
        programCounter := { s.programCounter with enableFlag := false }
        decodeRegister := { s.decodeRegister with enableFlag := false }
        executeRegister := { s.executeRegister with enableFlag := false }
        memoryRegister := { s.memoryRegister with enableFlag := false } }
    else if !s.pcR then
      .ok { s with
        lastInstructionsFlag := true
        lastInstructionsCounter := 3
        programCounter := { s.programCounter with enableFlag := false }
        decodeRegister := { enableFlag := false, next := {}, current := {} } }
    else .error (.logic_error "out_of_instr_section")
  else .ok s

def doFetch (s : Pipeline) : Except Exception Pipeline := do
  let s ← s.leaveSection
  let pc := s.programCounter.current
  let summand1 := multiplexer2 s.pcR pc s.executeRegister.current.pcDe
  let summand2 := multiplexer2 s.pcR 4 s.pcDisp
  let next := summand1 + summand2
  if next.toNat % 4 ≠ 0 then
    .error (.AlignmentException ("pc is not aligned: pc_next == " ++ toString next.toNat))
  else do
    let instrMemUnit := { s.instrMemUnit with address := pc }
    let instr ← instrMemUnit.getData
    let s := { s with
      instrMemUnit
      programCounter := { s.programCounter with next }
      decodeRegister := { s.decodeRegister with next := { s.decodeRegister.next with instr, pcDe := pc } } }
    if s.lastInstructionsFlag then
      if s.lastInstructionsCounter ≠ 0 then
        return { s with lastInstructionsCounter := s.lastInstructionsCounter - 1 }
      else .error (.logic_error "out_of_instr_section")
    else return s

/-! ## The hazard unit -/

def haltPipeline (s : Pipeline) : Pipeline := { s with
  programCounter := { s.programCounter with enableFlag := false }
  decodeRegister := { s.decodeRegister with enableFlag := false }
  executeRegister := { s.executeRegister with enableFlag := false } }

def restartPipeline (s : Pipeline) : Pipeline := { s with
  programCounter := { s.programCounter with enableFlag := true }
  decodeRegister := { s.decodeRegister with enableFlag := true }
  executeRegister := { s.executeRegister with enableFlag := true } }

/-- Where the value of a source register is taken from. -/
def bypass (s : Pipeline) (has : Bool) (rs : Byte) : BypassOptionsEncoding :=
  if has && rs != 0 then
    if rs = s.memoryRegister.current.wbA then .MEM
    else if rs = s.writeBackRegister.current.wbA then .WB
    else .REG
  else .REG

/-- The load conflict of a source register. -/
def loadConflict (s : Pipeline) (has : Bool) (rs : Byte) : Bool :=
  has && rs != 0 && rs == s.memoryRegister.current.wbA && !s.memoryRegister.current.memToReg

def hazardUnitTick (s : Pipeline) : Pipeline :=
  if s.pcR then
    { s with decodeRegister := s.decodeRegister.clear {}, executeRegister := s.executeRegister.clear {} }
  else
    let instr := s.executeRegister.current.instr
    let has1 := hasRs1 s.controlUnit.instrType
    let has2 := hasRs2 s.controlUnit.instrType
    let wasHalted := s.loadConflict has1 (getRs1 instr) || s.loadConflict has2 (getRs2 instr)
    let s := { s with huRs1 := s.bypass has1 (getRs1 instr), huRs2 := s.bypass has2 (getRs2 instr) }
    if wasHalted then s.haltPipeline else s.restartPipeline

/-! ## A tick -/

def tickStateRegisters (s : Pipeline) : Pipeline := { s with
  decodeRegister := s.decodeRegister.tick
  executeRegister := s.executeRegister.tick
  memoryRegister := s.memoryRegister.tick
  writeBackRegister := s.writeBackRegister.tick }

/-- The end of a tick: the registers take over what the stages have computed. The memory stage is left empty when the
pipeline stalls. -/
def latch (s : Pipeline) : Pipeline :=
  let s := if s.programCounter.enableFlag then s else { s with memoryRegister := s.memoryRegister.clear {} }
  let s := s.tickStateRegisters
  { s with programCounter := s.programCounter.tick }

/-- `Pipeline::tick`. -/
def tick (s : Pipeline) : Except Exception Pipeline := do
  let s ← s.doMemory
  let s := s.doExecute
  let s ← s.doDecode
  let s ← s.doFetch
  let s := s.latch.hazardUnitTick
  return { s with ticksCounter := s.ticksCounter + 1 }

/-- `setProgramCounter`. -/
def setProgramCounter (s : Pipeline) (pc : Word) : Pipeline :=
  { s with programCounter := { s.programCounter with next := pc }.tick }

end Pipeline

end CompilerLab.Riscv
