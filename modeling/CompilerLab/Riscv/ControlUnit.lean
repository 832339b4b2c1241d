import CompilerLab.Riscv.Modules

/-!
# Instructions and the control unit

`instruction.h` and `control_unit.h`.
-/

namespace CompilerLab.Riscv

/-! ## Fields of an instruction -/

inductive InstructionType where
  | UNKNOWN | RType | IType | SType | BType | UType | JType
  deriving DecidableEq, Repr

def getFunct7 (instruction : Word) : Byte := ((instruction >>> 25) &&& 0x7f#32).setWidth 8
def getRs2 (instruction : Word) : Byte := ((instruction >>> 20) &&& 0x1f#32).setWidth 8
def getRs1 (instruction : Word) : Byte := ((instruction >>> 15) &&& 0x1f#32).setWidth 8
def getFunct3 (instruction : Word) : Byte := ((instruction >>> 12) &&& 0x7#32).setWidth 8
def getRd (instruction : Word) : Byte := ((instruction >>> 7) &&& 0x1f#32).setWidth 8
def getOpcode (instruction : Word) : Byte := (instruction &&& 0x7f#32).setWidth 8

def getInstructionType (opcode : Byte) : InstructionType :=
  if opcode = 0b0110011#8 then .RType
  else if opcode = 0b0100011#8 then .SType
  else if opcode = 0b1100011#8 then .BType
  else if opcode = 0b0000011#8 ∨ opcode = 0b0010011#8 ∨ opcode = 0b1110011#8 ∨ opcode = 0b1100111#8 then .IType
  else if opcode = 0b0110111#8 ∨ opcode = 0b0010111#8 then .UType
  else if opcode = 0b1101111#8 then .JType
  else .UNKNOWN

def hasRs1 (type : InstructionType) : Bool := type != .UType && type != .JType

def hasRs2 (type : InstructionType) : Bool := type == .RType || type == .IType || type == .SType || type == .BType

/-- `ImmediateExtensionBlock`; a negative immediate has the bits above it set. -/
def immediateExtensionBlock (instr : Word) : Word :=
  let sign := instr.extractLsb' 31 1
  match getInstructionType (getOpcode instr) with
  | .UNKNOWN => 0
  | .RType => 0
  | .IType => sign.signExtend 20 ++ instr.extractLsb' 20 12
  | .SType => sign.signExtend 20 ++ instr.extractLsb' 25 7 ++ instr.extractLsb' 7 5
  | .BType => sign.signExtend 20 ++ instr.extractLsb' 7 1 ++ instr.extractLsb' 25 6 ++ instr.extractLsb' 8 4 ++ 0#1
  | .UType => instr.extractLsb' 12 20 ++ 0#12
  | .JType =>
    sign.signExtend 12 ++ instr.extractLsb' 12 8 ++ instr.extractLsb' 20 1 ++ instr.extractLsb' 21 10 ++ 0#1

/-! ## The control unit -/

/-- What the control unit finds out about an instruction. -/
structure ControlUnit where
  opcode : Byte := 0
  funct3 : Byte := 0
  funct7 : Byte := 0
  isJalr : Bool := false
  wbWe : Bool := false
  memWe : Bool := false
  memToReg : Bool := false
  brnCond : Bool := false
  jmpCond : Bool := false
  cmpControl : CmpControl := .NOP
  aluSrc2 : Bool := false
  aluOp : ALUControl := .NOP
  instrType : InstructionType := .UNKNOWN
  deriving DecidableEq

namespace ControlUnit

/-- The operation of an instruction with two source registers. -/
def registerOp (funct3 funct7 : Byte) : Except Exception ALUControl :=
  match funct3.toNat with
  | 0b000 =>
    if funct7 = 0 then .ok .ADD
    else if funct7 = 0b0100000#8 then .ok .SUB
    else .error (.invalid_argument ("invalid funct7 for ADD/SUB with funct3 == 0: " ++ toString funct7.toNat))
  | 0b001 => .ok .SLL
  | 0b010 => .ok .SLT
  | 0b011 => .ok .SLTU
  | 0b100 => .ok .XOR
  | 0b101 =>
    if funct7 = 0 then .ok .SRL
    else if funct7 = 0b0100000#8 then .ok .SRA
    else .error (.invalid_argument ("invalid funct7 for SRL/SRA with funct3 == 0: " ++ toString funct7.toNat))
  | 0b110 => .ok .OR
  | 0b111 => .ok .AND
  | _ => .error (.invalid_argument ("invalid funct3: " ++ toString funct3.toNat))

/-- The operation of an instruction with a source register and an immediate. -/
def immediateOp (funct3 funct7 : Byte) : Except Exception ALUControl :=
  match funct3.toNat with
  | 0b000 => .ok .ADD
  | 0b010 => .ok .SLT
  | 0b011 => .ok .SLTU
  | 0b100 => .ok .XOR
  | 0b110 => .ok .OR
  | 0b111 => .ok .AND
  | 0b001 =>
    if funct7 = 0 then .ok .SLL
    else .error (.invalid_argument ("invalid funct7 for SLLI op: " ++ toString funct7.toNat))
  | 0b101 =>
    if funct7 = 0 then .ok .SRL
    else if funct7 = 0b0100000#8 then .ok .SRA
    else .error (.invalid_argument ("invalid funct7 for SRLI/SRAI op: " ++ toString funct7.toNat))
  | _ => .error (.invalid_argument ("invalid funct3: " ++ toString funct3.toNat))

/-- The comparison of a branch. -/
def branchCmp (opcode funct3 : Byte) : Except Exception CmpControl :=
  if opcode = 0b1100011#8 then
    match funct3.toNat with
    | 0 => .ok .EQ
    | 0b001 => .ok .NE
    | 0b100 => .ok .LT
    | 0b101 => .ok .GE
    | 0b110 => .ok .LTU
    | 0b111 => .ok .GEU
    | _ => .error (.logic_error ("invalid funct3 for b instruction: " ++ toString funct3.toNat))
  else .ok .NOP

/-- The operation of the ALU; addition is used for `LUI`, `AUIPC`, `JALR`, loads and stores. -/
def aluControl (opcode funct3 funct7 : Byte) : Except Exception ALUControl :=
  if opcode = 0b0110011#8 then registerOp funct3 funct7
  else if opcode = 0b0010011#8 then immediateOp funct3 funct7
  else if getInstructionType opcode = .UType ∨ opcode = 0b1100111#8 ∨ opcode = 0b0000011#8 ∨ opcode = 0b0100011#8 then .ok .ADD
  else .ok .NOP

/-- `ControlUnit::tick`. -/
def tick (opcode funct3 funct7 : Byte) : Except Exception ControlUnit :=
  if opcode = 0b0001111#8 ∨ opcode = 0b1110011#8 ∧ funct3 ≠ 0 then
    .error (.UnsupportedException ("unsupported instruction: opcode == " ++ toString opcode.toNat))
  else if opcode = 0b1110011#8 then .error .EbreakException
  else do
    let instrType := getInstructionType opcode
    let aluOp ← aluControl opcode funct3 funct7
    let cmpControl ← branchCmp opcode funct3
    return {
      opcode, funct3, funct7
      isJalr := opcode == 0b1100111#8
      wbWe := !(opcode == 0b0100011#8 || opcode == 0b1100011#8 || opcode == 0b1110011#8)
      memWe := opcode == 0b0100011#8
      memToReg := opcode != 0b0000011#8
      brnCond := opcode == 0b1100011#8
      jmpCond := opcode == 0b1101111#8 || opcode == 0b1100111#8
      cmpControl
      aluSrc2 := instrType == .IType || instrType == .SType || instrType == .UType
      aluOp, instrType }

end ControlUnit

end CompilerLab.Riscv
