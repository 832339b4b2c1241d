import Mathlib.Data.BitVec

/-!
# RV32I

The instructions of the base integer set but FENCE, ECALL and EBREAK: which words encode them, and what they do to the program
counter, a register and the memory. Immediates are not decoded here.
-/

namespace CompilerLab.Lib.Rv32i

abbrev Word := BitVec 32

inductive Arith where
  | add | sub | sll | slt | sltu | xor | srl | sra | or | and
  deriving DecidableEq, Repr

inductive Condition where
  | eq | ne | lt | ge | ltu | geu
  deriving DecidableEq, Repr

inductive LoadWidth where
  | byte | half | word | byteU | halfU
  deriving DecidableEq, Repr

inductive StoreWidth where
  | byte | half | word
  deriving DecidableEq, Repr

/-- An instruction without its registers and its immediate. -/
inductive Instruction where
  | lui
  | auipc
  | jal
  | jalr
  | branch (c : Condition)
  | load (w : LoadWidth)
  | store (w : StoreWidth)
  | opImm (o : Arith)
  | op (o : Arith)
  deriving DecidableEq, Repr

/-! ## Encoding -/

namespace Condition

def ofFunct3? (funct3 : BitVec 3) : Option Condition :=
  match funct3 with
  | 0b000#3 => some eq
  | 0b001#3 => some ne
  | 0b100#3 => some lt
  | 0b101#3 => some ge
  | 0b110#3 => some ltu
  | 0b111#3 => some geu
  | _ => none

end Condition

namespace LoadWidth

def ofFunct3? (funct3 : BitVec 3) : Option LoadWidth :=
  match funct3 with
  | 0b000#3 => some byte
  | 0b001#3 => some half
  | 0b010#3 => some word
  | 0b100#3 => some byteU
  | 0b101#3 => some halfU
  | _ => none

/-- The field `funct3` of a load. -/
def funct3 : LoadWidth → BitVec 3
  | byte => 0
  | half => 1
  | word => 2
  | byteU => 4
  | halfU => 5

end LoadWidth

namespace StoreWidth

def ofFunct3? (funct3 : BitVec 3) : Option StoreWidth :=
  match funct3 with
  | 0b000#3 => some byte
  | 0b001#3 => some half
  | 0b010#3 => some word
  | _ => none

/-- The field `funct3` of a store. -/
def funct3 : StoreWidth → BitVec 3
  | byte => 0
  | half => 1
  | word => 2

end StoreWidth

namespace Arith

/-- The operation on two registers. -/
def ofFuncts? (funct3 : BitVec 3) (funct7 : BitVec 7) : Option Arith :=
  if funct7 = 0 then
    match funct3 with
    | 0b000#3 => some add
    | 0b001#3 => some sll
    | 0b010#3 => some slt
    | 0b011#3 => some sltu
    | 0b100#3 => some xor
    | 0b101#3 => some srl
    | 0b110#3 => some or
    | _ => some and
  else if funct7 = 0b0100000#7 then
    match funct3 with
    | 0b000#3 => some sub
    | 0b101#3 => some sra
    | _ => none
  else none

/-- The operation on a register and an immediate; only shifts look at `funct7`. -/
def ofFunctsImm? (funct3 : BitVec 3) (funct7 : BitVec 7) : Option Arith :=
  match funct3 with
  | 0b000#3 => some add
  | 0b001#3 => if funct7 = 0 then some sll else none
  | 0b010#3 => some slt
  | 0b011#3 => some sltu
  | 0b100#3 => some xor
  | 0b101#3 => if funct7 = 0 then some srl else if funct7 = 0b0100000#7 then some sra else none
  | 0b110#3 => some or
  | _ => some and

end Arith

def opcode (w : Word) : BitVec 7 := w.extractLsb' 0 7
def funct3 (w : Word) : BitVec 3 := w.extractLsb' 12 3
def funct7 (w : Word) : BitVec 7 := w.extractLsb' 25 7
def rd (w : Word) : BitVec 5 := w.extractLsb' 7 5

/-- The instruction with the given fields. -/
def Instruction.ofFields? (opcode : BitVec 7) (funct3 : BitVec 3) (funct7 : BitVec 7) : Option Instruction :=
  match opcode with
  | 0b0110111#7 => some lui
  | 0b0010111#7 => some auipc
  | 0b1101111#7 => some jal
  | 0b1100111#7 => if funct3 = 0 then some jalr else none
  | 0b1100011#7 => (Condition.ofFunct3? funct3).map branch
  | 0b0000011#7 => (LoadWidth.ofFunct3? funct3).map load
  | 0b0100011#7 => (StoreWidth.ofFunct3? funct3).map store
  | 0b0010011#7 => (Arith.ofFunctsImm? funct3 funct7).map opImm
  | 0b0110011#7 => (Arith.ofFuncts? funct3 funct7).map op
  | _ => none

/-- The instruction a word encodes. -/
def Instruction.ofWord? (w : Word) : Option Instruction := ofFields? (opcode w) (funct3 w) (funct7 w)

/-! ## Meaning -/

/-- The result of an operation; shifts are by the lowest five bits of the second operand. -/
def Arith.apply (o : Arith) (x y : Word) : Word :=
  match o with
  | add => x + y
  | sub => x - y
  | sll => x <<< (y.toNat % 32)
  | slt => if x.toInt < y.toInt then 1 else 0
  | sltu => if x.toNat < y.toNat then 1 else 0
  | xor => x ^^^ y
  | srl => x >>> (y.toNat % 32)
  | sra => x.sshiftRight (y.toNat % 32)
  | or => x ||| y
  | and => x &&& y

/-- Whether a branch with the given operands is taken. -/
def Condition.holds (c : Condition) (x y : Word) : Bool :=
  match c with
  | eq => x == y
  | ne => x != y
  | lt => x.toInt < y.toInt
  | ge => y.toInt ≤ x.toInt
  | ltu => x.toNat < y.toNat
  | geu => y.toNat ≤ x.toNat

/-- What is written to the register `rd`. -/
inductive WriteBack where
  | nothing
  | value (v : Word)
  | loaded (w : LoadWidth) (address : Word)
  deriving DecidableEq, Repr

/-- What an instruction does: the address it goes on at when that is not the next one, what it writes to its register, and what
it stores. -/
structure Outcome where
  target : Option Word := none
  writeBack : WriteBack := .nothing
  store : Option (StoreWidth × Word × Word) := none
  deriving DecidableEq, Repr

/-- What the instruction at `pc` does with the immediate `imm` and the source registers `x` and `y`. -/
def Instruction.outcome (i : Instruction) (imm pc x y : Word) : Outcome :=
  match i with
  | lui => { writeBack := .value imm }
  | auipc => { writeBack := .value (pc + imm) }
  | jal => { target := some (pc + imm), writeBack := .value (pc + 4) }
  | jalr => { target := some ((x + imm) &&& ~~~1#32), writeBack := .value (pc + 4) }
  | branch c => { target := if c.holds x y then some (pc + imm) else none }
  | load w => { writeBack := .loaded w (x + imm) }
  | store w => { store := some (w, x + imm, y) }
  | opImm o => { writeBack := .value (o.apply x imm) }
  | op o => { writeBack := .value (o.apply x y) }

end CompilerLab.Lib.Rv32i
