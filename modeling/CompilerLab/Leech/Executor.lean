import CompilerLab.Leech.LeechFile

/-!
# The executor

`executor.cc` and `callbacks.cc`.
-/

namespace CompilerLab.Leech

open LeechObj

/-- A stack frame; `none` is for a name that is not a variable of the function, `some nullptr` for a variable that is not set.
The top of the data stack is its first element. -/
structure StackFrame where
  pmeta : FuncMeta
  dataStack : List LeechObj := []
  retAddr : BitVec 64 := 0
  vars : Str → Option LeechObj

structure State where
  funcStack : List StackFrame
  pc : BitVec 64
  nextPC : Option (BitVec 64) := none
  heap : Heap := []
  /-- What has been printed, with the class objects at that time. -/
  output : List (LeechObj × Heap) := []

abbrev Exec := StateT State (Except Error)

/-- `std::map::at`. -/
def getAt {α : Type} (a : Option α) : Except Error α :=
  match a with
  | some a => .ok a
  | none => .error .out_of_range

/-! ## Stack frames -/

namespace StackFrame

/-- The constructor of `StackFrame`. -/
def new (pmeta : FuncMeta) : StackFrame where
  pmeta := pmeta
  vars := fun name => if name ∈ pmeta.names then some .nullptr else none

def setVar (frame : StackFrame) (name : Str) (obj : LeechObj) : Except Error StackFrame := do
  let _ ← getAt (frame.vars name)
  return { frame with vars := Function.update frame.vars name (some obj) }

def getVar (frame : StackFrame) (name : Str) : Except Error LeechObj := getAt (frame.vars name)

def getConst (frame : StackFrame) (idx : Byte) : Except Error LeechObj := getAt frame.pmeta.cstPool[idx.toNat]?

def getName (frame : StackFrame) (idx : Byte) : Except Error Str := getAt frame.pmeta.names[idx.toNat]?

/-- The loop of `fillArgs`. -/
def fillNames (frame : StackFrame) : List Str → List LeechObj → Except Error StackFrame
  | name :: names, arg :: args => do fillNames (← frame.setVar name arg) names args
  | _, _ => .ok frame

def fillArgs (frame : StackFrame) (args : List LeechObj) : Except Error StackFrame :=
  frame.fillNames frame.pmeta.names args

def push (frame : StackFrame) (obj : LeechObj) : Except Error StackFrame :=
  match obj with
  | .nullptr => .error (.invalid_argument "Trying to push nullptr into stackframe")
  | _ => .ok { frame with dataStack := obj :: frame.dataStack }

def top (frame : StackFrame) : Except Error LeechObj :=
  match frame.dataStack with
  | obj :: _ => .ok obj
  | [] => .error (.runtime_error "Trying to top from empty stack!")

def pop (frame : StackFrame) : Except Error StackFrame :=
  match frame.dataStack with
  | _ :: dataStack => .ok { frame with dataStack }
  | [] => .error (.runtime_error "Trying to pop from empty stack!")

end StackFrame

/-! ## The current frame -/

def getCurFrame : Exec StackFrame := do
  match (← get).funcStack with
  | frame :: _ => return frame
  | [] => throw .nullDereference

def setCurFrame (frame : StackFrame) : Exec Unit :=
  modify fun s => { s with funcStack := frame :: s.funcStack.tail }

def onHeap {α : Type} (x : OnHeap α) : Exec α := do
  let (a, heap) ← x.run (← get).heap
  modify fun s => { s with heap }
  return a

def push (obj : LeechObj) : Exec Unit := do setCurFrame (← (← getCurFrame).push obj)

def pop : Exec Unit := do setCurFrame (← (← getCurFrame).pop)

def top : Exec LeechObj := do (← getCurFrame).top

def popGetTos : Exec LeechObj := do
  let tos ← onHeap (← top).clone
  pop
  return tos

/-- `std::generate` of the arguments of a call. -/
def popArgs : Nat → Exec (List LeechObj)
  | 0 => return []
  | n + 1 => return (← popGetTos) :: (← popArgs n)

def setVar (name : Str) (obj : LeechObj) : Exec Unit := do setCurFrame (← (← getCurFrame).setVar name obj)

def getName (idx : Byte) : Exec Str := do (← getCurFrame).getName idx

def setNextPC (pc : BitVec 64) : Exec Unit := modify fun s => { s with nextPC := some pc }

/-! ## Class objects -/

def safeConvertToClass (pLeech : LeechObj) (funcName : String) : Except Error Nat :=
  match pLeech with
  | .ClassObj addr => .ok addr
  | .nullptr => .error .nullDereference
  | _ => .error (.runtime_error (funcName ++ " Trying to convert class from invalid leechObj"))

def getClass (addr : Nat) : Exec ClassData := do
  match (← get).heap[addr]? with
  | some data => return data
  | none => throw .nullDereference

def setClass (addr : Nat) (data : ClassData) : Exec Unit := modify fun s => { s with heap := s.heap.set addr data }

/-- `std::make_shared<ClassObj>()`. -/
def makeClass : Exec LeechObj := do
  let addr := (← get).heap.length
  modify fun s => { s with heap := s.heap ++ [{}] }
  return .ClassObj addr

/-- A name as it is written in a message. -/
def nameText (name : Str) : String := String.ofList (name.map fun b => Char.ofNat b.toNat)

def updateField (addr : Nat) (name : Str) (obj : LeechObj) : Exec Unit := do
  let data ← getClass addr
  setClass addr { data with fields := Function.update data.fields name (some obj) }

def getField (addr : Nat) (name : Str) : Exec LeechObj := do
  match (← getClass addr).fields name with
  | some obj => return obj
  | none => throw (.runtime_error ("Invalid field name: " ++ nameText name))

def registerMethod (addr : Nat) (name : Str) : Exec Unit := do
  let data ← getClass addr
  if name ∈ data.methods then throw (.logic_error "Trying to register method 2nd time")
  else setClass addr { data with methods := name :: data.methods }

def checkMethod (addr : Nat) (name : Str) : Exec Unit := do
  let data ← getClass addr
  if name ∈ data.methods then return ()
  else throw (.logic_error ("There is no method named " ++ nameText name))

/-! ## The callbacks -/

section Callbacks

variable (ops : FloatOps) (file : LeechFile) (inst : Instruction)

/-- `meta.funcs.at`. -/
def funcAt (name : Str) : Exec FuncMeta := getAt (file.fileMeta.funcs.lookup name)

/-- The operations on the two topmost objects, of which the upper one is given first. -/
def binary (op : LeechObj → LeechObj → Except Error LeechObj) : Exec Unit := do
  let tos1 ← popGetTos
  let tos2 ← popGetTos
  push (← op tos1 tos2)

def execute_POP_TOP : Exec Unit := pop

def execute_BINARY_ADD : Exec Unit := binary fun tos1 tos2 => tos1.add ops tos2

def execute_BINARY_SUBTRACT : Exec Unit := binary fun tos1 tos2 => tos2.sub ops tos1

def execute_BINARY_SUBSCR : Exec Unit := binary fun idx tuple => tuple.subscript idx

def execute_BINARY_TRUE_DIVIDE : Exec Unit := binary fun two one => one.div ops two

def execute_RETURN_VALUE : Exec Unit := do
  let tos ← popGetTos
  modify fun s => { s with funcStack := s.funcStack.tail }
  if (← get).funcStack.isEmpty then return ()
  else do
    setNextPC (← getCurFrame).retAddr
    push tos

def execute_LOAD_CONST : Exec Unit := do push (← (← getCurFrame).getConst inst.arg)

def execute_COMPARE_OP : Exec Unit := binary fun tos1 tos2 => do
  let res ← tos2.compare tos1 inst.arg
  return .IntObj (if res then 1 else 0)

/-- The conditional jumps: the top of the stack is compared with zero. -/
def popJump (whenZero : Bool) : Exec Unit := do
  let tos ← popGetTos
  let res ← tos.compare (.IntObj 0) (BitVec.ofNat 8 CmpOp.EQ.ctorIdx)
  if res = whenZero then setNextPC (inst.arg.setWidth 64) else return ()

def execute_POP_JUMP_IF_FALSE : Exec Unit := popJump inst true

def execute_POP_JUMP_IF_TRUE : Exec Unit := popJump inst false

def execute_LOAD_FAST : Exec Unit := do
  let name ← getName inst.arg
  push (← (← getCurFrame).getVar name)

def execute_STORE_FAST : Exec Unit := do
  let name ← getName inst.arg
  setVar name (← top)

/-- The end of a call: the return address is kept in the frame of the caller, and the frame of the callee is entered. -/
def enterFrame (frame : StackFrame) (args : List LeechObj) : Exec Unit := do
  let pc := (← get).pc
  let curFrame ← getCurFrame
  setCurFrame { curFrame with retAddr := pc + 1 }
  let frame ← frame.fillArgs args
  modify fun s => { s with funcStack := frame :: s.funcStack }

def execute_CALL_FUNCTION : Exec Unit := do
  let fName ← getName inst.arg
  let fMeta ← funcAt file fName
  setNextPC fMeta.addr
  let args ← popArgs (← getCurFrame).dataStack.length
  enterFrame (StackFrame.new fMeta) args

def execute_PRINT : Exec Unit := do
  let tos ← popGetTos
  modify fun s => { s with output := s.output ++ [(tos, s.heap)] }

def execute_LOAD_BUILD_CLASS : Exec Unit := do push (← makeClass)

def execute_STORE_BUILD_CLASS : Exec Unit := do
  let name ← getName inst.arg
  let addr ← safeConvertToClass (← popGetTos) "StoreBuildClass"
  setVar name (.ClassObj addr)

def execute_STORE_ATTR : Exec Unit := do
  let name ← getName inst.arg
  let attr ← popGetTos
  let addr ← safeConvertToClass (← top) "StoreAttr"
  updateField addr name attr

def execute_LOAD_ATTR : Exec Unit := do
  let name ← getName inst.arg
  let addr ← safeConvertToClass (← top) "StoreBuildClass"
  push (← getField addr name)

def execute_INSTANCE_CLASS : Exec Unit := do
  let name ← getName inst.arg
  let addr ← safeConvertToClass (← (← getCurFrame).getVar name) "StoreBuildClass"
  push (← onHeap (LeechObj.ClassObj addr).clone)

def execute_REGISTER_METHOD : Exec Unit := do
  let fName ← getName inst.arg
  let addr ← safeConvertToClass (← top) "REGISTER_METHOD"
  registerMethod addr fName

def execute_CALL_METHOD : Exec Unit := do
  let fName ← getName inst.arg
  let fMeta ← funcAt file fName
  setNextPC fMeta.addr
  let args ← popArgs fMeta.argNum.toNat
  let addr ← safeConvertToClass (← top) "CallMethod"
  checkMethod addr fName
  enterFrame { StackFrame.new fMeta with dataStack := [.ClassObj addr] } args

/-- `Instruction::execute`. All callbacks that are not above throw. -/
def execute : Exec Unit :=
  match inst.opcode with
  | .POP_TOP => execute_POP_TOP
  | .BINARY_ADD => execute_BINARY_ADD ops
  | .BINARY_SUBTRACT => execute_BINARY_SUBTRACT ops
  | .BINARY_SUBSCR => execute_BINARY_SUBSCR
  | .BINARY_TRUE_DIVIDE => execute_BINARY_TRUE_DIVIDE ops
  | .RETURN_VALUE => execute_RETURN_VALUE
  | .LOAD_CONST => execute_LOAD_CONST inst
  | .COMPARE_OP => execute_COMPARE_OP inst
  | .POP_JUMP_IF_FALSE => execute_POP_JUMP_IF_FALSE inst
  | .POP_JUMP_IF_TRUE => execute_POP_JUMP_IF_TRUE inst
  | .LOAD_FAST => execute_LOAD_FAST inst
  | .STORE_FAST => execute_STORE_FAST inst
  | .CALL_FUNCTION => execute_CALL_FUNCTION file inst
  | .PRINT => execute_PRINT
  | .LOAD_BUILD_CLASS => execute_LOAD_BUILD_CLASS
  | .STORE_BUILD_CLASS => execute_STORE_BUILD_CLASS inst
  | .STORE_ATTR => execute_STORE_ATTR inst
  | .LOAD_ATTR => execute_LOAD_ATTR inst
  | .INSTANCE_CLASS => execute_INSTANCE_CLASS inst
  | .REGISTER_METHOD => execute_REGISTER_METHOD inst
  | .CALL_METHOD => execute_CALL_METHOD file inst
  | .UNKNOWN => throw .nullDereference
  | _ => throw (.logic_error "Function is not implemented yet")

end Callbacks

/-! ## Runs -/

/-- `"main"`. -/
def kMainFuncName : Str := [0x6d, 0x61, 0x69, 0x6e]

/-- The constructor of `State`. -/
def State.initial (file : LeechFile) : Except Error State := do
  let mainFrame ← getAt (file.fileMeta.funcs.lookup kMainFuncName)
  return { pc := mainFrame.addr, funcStack := [StackFrame.new mainFrame] }

/-- One round of the loop of `Executor::execute`. -/
def Executor.step (ops : FloatOps) (file : LeechFile) (s : State) : Except Error State := do
  let curInst ← getAt file.code[s.pc.toNat]?
  let ((), s) ← (execute ops file curInst).run { s with nextPC := none }
  return { s with pc := s.nextPC.getD (s.pc + 1) }

/-- At most `n` rounds of the loop of `Executor::execute`. -/
def Executor.run (ops : FloatOps) (file : LeechFile) : Nat → State → Except Error State
  | 0, s => .ok s
  | n + 1, s => if s.funcStack.isEmpty then .ok s else Executor.step ops file s >>= Executor.run ops file n

/-- `Executor::execute` from the start of the program. -/
def Executor.execute (ops : FloatOps) (file : LeechFile) (n : Nat) : Except Error State :=
  State.initial file >>= Executor.run ops file n

end CompilerLab.Leech
