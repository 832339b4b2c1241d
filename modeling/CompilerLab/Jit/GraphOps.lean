import CompilerLab.Jit.BasicBlock

/-!
# Operations on a graph

The operations of `Graph` on its blocks and edges, and the instructions `InstructionBuilder` makes.
-/

namespace CompilerLab.Jit.Graph

/-! ## Validity of analyses -/

def setAnalysisValid (g : Graph) (flag : AnalysisFlag) (isValid : Bool) : Graph :=
  { g with valid := Function.update g.valid flag isValid }

/-- `invalidateAfterChangedCFG`. -/
def invalidateAfterChangedCFG (g : Graph) : Graph := { g with valid := fun _ => false }

def setFirstBasicBlock (g : Graph) (b : Nat) : Graph :=
  { g with firstBlock := some b }.invalidateAfterChangedCFG

def setLastBasicBlock (g : Graph) (b : Nat) : Graph :=
  { g with lastBlock := some b }.invalidateAfterChangedCFG

/-! ## Blocks -/

/-- The blocks `ForEachBasicBlock` visits, in order. -/
def blocks (g : Graph) : List Nat := g.bblocks.filterMap id

/-- `GetBasicBlocksCount`. -/
def getBasicBlocksCount (g : Graph) : Nat := g.bblocks.length - g.unlinkedInstructionsCounter

/-- `IsEmpty`. -/
def isEmpty (g : Graph) : Bool := g.getBasicBlocksCount == 0

/-- `AddBasicBlock`. -/
def addBasicBlock (g : Graph) (b : Nat) : Graph :=
  let g := g.modifyBlock b fun x => { x with id := g.bblocks.length, inGraph := true }
  { g with bblocks := g.bblocks ++ [some b] }.invalidateAfterChangedCFG

/-- `New<BasicBlock>` followed by `AddBasicBlock`: `CreateEmptyBasicBlock(false)`. -/
def newBasicBlock (g : Graph) : Graph × Nat :=
  let b := g.blockCount
  (({ g with block := Function.update g.block b {}, blockCount := b + 1 }).addBasicBlock b, b)

theorem newBasicBlock_block (g : Graph) (c : Nat) : g.newBasicBlock.1.block c =
    if c = g.blockCount then { id := g.bblocks.length, inGraph := true } else g.block c := by
  simp only [newBasicBlock, addBasicBlock, invalidateAfterChangedCFG, modifyBlock_block, Function.update_self]
  split_ifs with h
  · rfl
  · rw [Function.update_of_ne h]

/-- `ConnectBasicBlocks`. -/
def connectBasicBlocks (g : Graph) (lhs rhs : Nat) : Option Graph := do
  let g ← g.addSuccessor lhs rhs
  let g ← g.addPredecessor rhs lhs
  return g.invalidateAfterChangedCFG

/-- `CreateEmptyBasicBlock`. -/
def createEmptyBasicBlock (g : Graph) (isTerminal : Bool) : Option (Graph × Nat) :=
  let (g, b) := g.newBasicBlock
  if isTerminal then do
    let g := match g.lastBlock with
      | some _ => g
      | none =>
          let (g, last) := g.newBasicBlock
          g.setLastBasicBlock last
    let g ← g.connectBasicBlocks b (← g.lastBlock)
    return (g, b)
  else some (g, b)

/-- `InsertBetween`. -/
def insertBetween (g : Graph) (bblock pred succ : Nat) : Option Graph := do
  let g ← g.replaceSuccessor pred succ bblock
  let g ← g.addPredecessor bblock pred
  let g ← g.replacePredecessor succ pred bblock
  let g ← g.addSuccessor bblock succ
  match (g.block succ).firstPhi with
  | none => return g
  | some firstPhi => do
      ASSERT (1 < (g.block succ).preds.length)
      forPhi id (fun g phi => g.replaceSourceBasicBlock phi pred bblock) g.instrCount g (some firstPhi)

/-- The body of `FixPHIAfterDisconnect` for a phi of a block with two predecessors. -/
def fixPhiOfTwo (phiSource phiTarget : Nat) (g : Graph) (phi : Nat) : Option Graph := do
  ASSERT ((g.instr phi).inputs.length = 2)
  let idx := g.indexOf phi phiSource
  ASSERT (idx ≤ 1)
  let remainingInput ← g.getInput phi (1 - idx)
  let g ← g.replaceInputInUsers phi remainingInput
  g.unlinkInstruction phiTarget phi

/-- `FixPHIAfterDisconnect`. -/
def fixPHIAfterDisconnect (g : Graph) (phiSource phiTarget : Nat) : Option Graph := do
  ASSERT (g.hasPredecessor phiTarget phiSource = true)
  let predsCount := (g.block phiTarget).preds.length
  if predsCount = 2 then
    forPhi id (fixPhiOfTwo phiSource phiTarget) g.instrCount g (g.block phiTarget).firstPhi
  else if predsCount > 2 then
    forPhi id (fun g phi => g.removePhiInput phi phiSource) g.instrCount g (g.block phiTarget).firstPhi
  else some g

/-- `DisconnectBasicBlocks`. -/
def disconnectBasicBlocks (g : Graph) (lhs rhs : Nat) : Option Graph := do
  let g ← g.fixPHIAfterDisconnect lhs rhs
  let g ← g.removeSuccessor lhs rhs
  let g ← g.removePredecessor rhs lhs
  return g.invalidateAfterChangedCFG

/-- `BasicBlock::INVALID_ID`. -/
def INVALID_ID : Nat := 2 ^ 64 - 1

/-- `UnlinkBasicBlockRaw`: the edges of the block are left as they were. -/
def unlinkBasicBlockRaw (g : Graph) (bblock : Nat) : Option Graph := do
  ASSERT ((g.block bblock).inGraph = true)
  let id := (g.block bblock).id
  ASSERT (g.bblocks[id]? = some (some bblock))
  let g := { g with bblocks := g.bblocks.set id none }
  let g := g.modifyBlock bblock fun x => { x with id := INVALID_ID, inGraph := false }
  return { g with unlinkedInstructionsCounter := g.unlinkedInstructionsCounter + 1 }.invalidateAfterChangedCFG

/-! ## Making instructions -/

/-- `New<T>` by the instruction builder: the constructor registers the instruction with its non-null inputs. -/
def createInst (g : Graph) (x : Instruction) : Graph × Nat :=
  let i := g.instrCount
  let g := { g with instr := Function.update g.instr i x, instrCount := i + 1 }
  (x.inputs.foldl (fun g input => g.addUserOf input i) g, i)

/-- `ARITHM`. -/
def ARITHM : InstrProps := .ARITH ||| .INPUT
/-- `INPUT_SIDE_EFFECTS`. -/
def INPUT_SIDE_EFFECTS : InstrProps := .INPUT ||| .SIDE_EFFECTS
/-- The property of the jump classes. -/
def CF_SIDE_EFFECTS : InstrProps := .CF ||| .SIDE_EFFECTS

def createAND (g : Graph) (type : OperandType) (in1 in2 : Nat) : Graph × Nat :=
  g.createInst { opcode := .AND, type, properties := ARITHM ||| .COMMUTABLE, inputs := [some in1, some in2] }

def createOR (g : Graph) (type : OperandType) (in1 in2 : Nat) : Graph × Nat :=
  g.createInst { opcode := .OR, type, properties := ARITHM ||| .COMMUTABLE, inputs := [some in1, some in2] }

def createADD (g : Graph) (type : OperandType) (in1 in2 : Nat) : Graph × Nat :=
  g.createInst { opcode := .ADD, type, properties := ARITHM ||| .COMMUTABLE, inputs := [some in1, some in2] }

def createSUB (g : Graph) (type : OperandType) (in1 in2 : Nat) : Graph × Nat :=
  g.createInst { opcode := .SUB, type, properties := ARITHM, inputs := [some in1, some in2] }

def createSRA (g : Graph) (type : OperandType) (in1 in2 : Nat) : Graph × Nat :=
  g.createInst { opcode := .SRA, type, properties := ARITHM, inputs := [some in1, some in2] }

def createADDI (g : Graph) (type : OperandType) (input : Nat) (imm : Word) : Graph × Nat :=
  g.createInst { opcode := .ADDI, type, properties := ARITHM, inputs := [some input], value := imm }

def createNOT (g : Graph) (type : OperandType) (input : Nat) : Graph × Nat :=
  g.createInst { opcode := .NOT, type, properties := ARITHM, inputs := [some input] }

def createNEG (g : Graph) (type : OperandType) (input : Nat) : Graph × Nat :=
  g.createInst { opcode := .NEG, type, properties := ARITHM, inputs := [some input] }

def createCONST (g : Graph) (type : OperandType) (imm : Word) : Graph × Nat :=
  g.createInst { opcode := .CONST, type, value := imm }

def createARG (g : Graph) (type : OperandType) : Graph × Nat :=
  g.createInst { opcode := .ARG, type }

def createCMP (g : Graph) (type : OperandType) (ccode : CondCode) (in1 in2 : Nat) : Graph × Nat :=
  g.createInst
    { opcode := .CMP, type, properties := INPUT_SIDE_EFFECTS, ccode, inputs := [some in1, some in2] }

def createJCMP (g : Graph) : Graph × Nat :=
  g.createInst { opcode := .JCMP, type := .I64, properties := CF_SIDE_EFFECTS }

def createJMP (g : Graph) : Graph × Nat :=
  g.createInst { opcode := .JMP, type := .I64, properties := CF_SIDE_EFFECTS }

def createRET (g : Graph) (type : OperandType) (input : Nat) : Graph × Nat :=
  g.createInst
    { opcode := .RET, type, properties := .CF ||| .INPUT ||| .SIDE_EFFECTS, inputs := [some input] }

def createPHI (g : Graph) (type : OperandType) (inputs : List Nat) (sources : List Nat) :
    Option (Graph × Nat) := do
  ASSERT (inputs.length = sources.length)
  return g.createInst
    { opcode := .PHI, type, properties := .INPUT, inputs := inputs.map some, sourceBBlocks := sources }

/-- `CreateMOVE`: the type is the type of the input. -/
def createMOVE (g : Graph) (input : Nat) : Graph × Nat :=
  g.createInst
    { opcode := .MOVE, type := (g.instr input).type, properties := .INPUT, inputs := [some input] }

end CompilerLab.Jit.Graph
