import CompilerLab.Leech.LeechFile

/-!
# The frontend

`parser.y`, from the tree of a program text on: the actions of the grammar are run over the tree in the order of the text.
-/

namespace CompilerLab.Leech

/-- An `int`. -/
abbrev CInt := BitVec 32

/-! ## Program texts -/

inductive PrimitiveTy where
  | IDENTIFIER (name : Str)
  | INTEGER (value : CInt)
  deriving DecidableEq

/-- The `leechObj` of an entry of a `.cpool` block. -/
inductive ConstEntry where
  | primitiveTy (value : PrimitiveTy)
  | tupple (first : PrimitiveTy) (rest : List PrimitiveTy)
  deriving DecidableEq

/-- What follows the name of an opcode. -/
inductive Operand where
  | empty
  | INTEGER (value : CInt)
  | IDENTIFIER (label : Str)
  deriving DecidableEq

/-- An entry of a `.code` block. The name of an opcode is given by what `OpcodeConv::fromName` finds for it. -/
inductive CodeEntry where
  | LABEL (name : Str)
  | instruction (opcode : Option Opcodes) (operand : Operand)
  deriving DecidableEq

/-- A `func`. -/
structure FuncText where
  name : Str
  argNum : CInt
  cpool : List ConstEntry := []
  names : List Str := []
  code : List CodeEntry := []

/-- A `funcList`. -/
abbrev ProgramText := List FuncText

/-! ## The driver -/

structure Driver where
  leechFile : LeechFile := {}
  labels : Str → Option Nat := fun _ => none
  forwardBranches : Str → Option Nat := fun _ => none
  tupleArgs : List LeechObj := []
  currentFunc : Str := []
  instrCount : Nat := 0
  globalInstrCount : Nat := 0

namespace Driver

/-- A change of `funcs[name]`. -/
def updateFunc (driver : Driver) (name : Str) (f : FuncMeta → FuncMeta) : Driver :=
  let funcs := driver.leechFile.fileMeta.funcs
  { driver with
    leechFile := { driver.leechFile with fileMeta := { funcs := funcs.insert name (f ((funcs.lookup name).getD {})) } } }

def funcHeader (driver : Driver) (name : Str) (argNum : CInt) : Driver :=
  { (driver.updateFunc name fun fm =>
      { fm with addr := BitVec.ofNat 64 driver.globalInstrCount, argNum := argNum.signExtend 64 }) with
    currentFunc := name
    instrCount := 0
    labels := fun _ => none
    forwardBranches := fun _ => none }

def primitiveTy : PrimitiveTy → LeechObj
  | .IDENTIFIER name => .StringObj name
  | .INTEGER value => .IntObj (value.signExtend 64)

/-- The object of an entry; the arguments of a tuple are collected in `tupleArgs`. -/
def leechObj (driver : Driver) : ConstEntry → Driver × LeechObj
  | .primitiveTy value => (driver, primitiveTy value)
  | .tupple first rest =>
      let args := driver.tupleArgs ++ (first :: rest).map primitiveTy
      ({ driver with tupleArgs := [] }, .TupleObj args)

def leechObjEntry (driver : Driver) (entry : ConstEntry) : Driver :=
  let (driver, obj) := driver.leechObj entry
  driver.updateFunc driver.currentFunc fun fm => { fm with cstPool := fm.cstPool ++ [obj] }

def nameEntry (driver : Driver) (name : Str) : Driver :=
  driver.updateFunc driver.currentFunc fun fm => { fm with names := fm.names ++ [name] }

/-- `code[idx].setArg(arg)`. -/
def setArg (code : List Instruction) (idx arg : Nat) : List Instruction :=
  code.modify idx fun inst => { inst with arg := BitVec.ofNat 8 arg }

/-- The declaration of a label. -/
def label (driver : Driver) (name : Str) : Driver :=
  { driver with
    leechFile := { driver.leechFile with
      code := match driver.forwardBranches name with
        | some idx => setArg driver.leechFile.code idx driver.instrCount
        | none => driver.leechFile.code }
    labels := Function.update driver.labels name (some driver.instrCount) }

/-- The argument of an instruction. -/
def argument (driver : Driver) : Operand → Byte
  | .empty => 0
  | .INTEGER value => value.setWidth 8
  | .IDENTIFIER label => BitVec.ofNat 8 ((driver.labels label).getD 0)

/-- The references that are pending after an instruction. -/
def pending (driver : Driver) : Operand → Str → Option Nat
  | .IDENTIFIER label =>
      match driver.labels label with
      | some _ => driver.forwardBranches
      | none => Function.update driver.forwardBranches label (some driver.globalInstrCount)
  | _ => driver.forwardBranches

/-- The rule of an instruction and the code entry made of it. -/
def instruction (driver : Driver) (opcode : Opcodes) (operand : Operand) : Driver :=
  { driver with
    leechFile := { driver.leechFile with
      code := driver.leechFile.code ++ [{ opcode, arg := driver.argument operand }] }
    forwardBranches := driver.pending operand
    instrCount := driver.instrCount + 1
    globalInstrCount := driver.globalInstrCount + 1 }

def codeEntry (driver : Driver) : CodeEntry → Except Error Driver
  | .LABEL name => .ok (driver.label name)
  | .instruction (some opcode) operand => .ok (driver.instruction opcode operand)
  | .instruction none _ => .error .bad_optional_access

def func (driver : Driver) (f : FuncText) : Except Error Driver :=
  let driver := driver.funcHeader f.name f.argNum
  let driver := f.cpool.foldl leechObjEntry driver
  let driver := f.names.foldl nameEntry driver
  f.code.foldlM codeEntry driver

end Driver

/-- The file made of a program text. -/
def ProgramText.parse (program : ProgramText) : Except Error LeechFile := do
  let driver ← program.foldlM Driver.func {}
  return driver.leechFile

end CompilerLab.Leech
