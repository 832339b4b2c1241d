import CompilerLab.Jit.Types
import Mathlib.Data.List.GetD
import Mathlib.Logic.Function.Basic

/-!
# The intermediate representation

A graph is a store of instructions, basic blocks and loops addressed by numbers, as the source addresses them by
pointers. The number of an instruction is the one `InstructionBuilder` gives it. A failed `ASSERT`, a null
dereference and a read past the end of a vector are `none`.
-/

namespace CompilerLab.Jit

/-- `Opcode`. -/
inductive Opcode where
  | DIV | DIVI | MOD | MODI | CALL | CMP | JCMP | JMP | RET | RETVOID | CONST
  | NOT | AND | OR | XOR | NEG | ADD | SUB | MUL | SRA | SLA | SLL
  | ANDI | ORI | XORI | ADDI | SUBI | MULI | SRAI | SLAI | SLLI
  | CAST | PHI | ARG | LEN | NEW_ARRAY | NEW_ARRAY_IMM | NEW_OBJECT
  | LOAD_ARRAY | LOAD_ARRAY_IMM | LOAD_OBJECT | STORE_ARRAY | STORE_ARRAY_IMM | STORE_OBJECT
  | NULL_CHECK | ZERO_CHECK | NEGATIVE_CHECK | BOUNDS_CHECK | MOVE | INVALID
  deriving DecidableEq, Repr

/-- `CondCode`. -/
inductive CondCode where
  | EQ | NE | LT | LE | GE | GT
  deriving DecidableEq, Repr

/-- `inverseCondCode`, entry by entry of `inversedCodes`. -/
def inverseCondCode : CondCode → CondCode
  | .EQ => .NE
  | .NE => .EQ
  | .LT => .GT
  | .LE => .GE
  | .GE => .LE
  | .GT => .LT

/-- `InstrProp`, the bits of `InstructionPropT`. -/
abbrev InstrProps := BitVec 8

namespace InstrProps
def ARITH : InstrProps := 0b1
def MEM : InstrProps := 0b10
def COMMUTABLE : InstrProps := 0b100
def CF : InstrProps := 0b1000
def INPUT : InstrProps := 0b10000
def SIDE_EFFECTS : InstrProps := 0b100000
end InstrProps

/-- One instruction object. The fields of all instruction classes are laid side by side: `inputs` holds the input
slots (empty for classes without inputs, `none` for a null input), `value` the immediate, `ccode` the condition of a
CMP, `toType` the target of a CAST, `sourceBBlocks` the sources of a PHI, `callTarget` the callee of a CALL. -/
structure Instruction where
  opcode : Opcode
  type : OperandType
  prev : Option Nat := none
  next : Option Nat := none
  parent : Option Nat := none
  properties : InstrProps := 0
  users : List Nat := []
  inputs : List (Option Nat) := []
  value : Word := 0
  ccode : CondCode := .EQ
  toType : OperandType := .INVALID
  sourceBBlocks : List Nat := []
  callTarget : Nat := 0
  typeId : Nat := 0
  deriving DecidableEq, Repr

namespace Instruction

/-- `SatisfiesProperty`. -/
def satisfiesProperty (i : Instruction) (p : InstrProps) : Bool := i.properties &&& p != 0
def hasInputs (i : Instruction) : Bool := i.satisfiesProperty .INPUT
def hasSideEffects (i : Instruction) : Bool := i.satisfiesProperty .SIDE_EFFECTS
def isPhi (i : Instruction) : Bool := i.opcode == .PHI
def isConst (i : Instruction) : Bool := i.opcode == .CONST
def isCall (i : Instruction) : Bool := i.opcode == .CALL
def isBranch (i : Instruction) : Bool := i.opcode == .JCMP

end Instruction

/-- One basic block object. For conditional branches the first successor is the true branch. -/
structure BasicBlock where
  id : Nat := 0
  preds : List Nat := []
  succs : List Nat := []
  instrsCount : Nat := 0
  firstPhi : Option Nat := none
  lastPhi : Option Nat := none
  firstInst : Option Nat := none
  lastInst : Option Nat := none
  dominator : Option Nat := none
  dominated : List Nat := []
  loop : Option Nat := none
  inGraph : Bool := true
  deriving DecidableEq, Repr

/-- One loop object. -/
structure Loop where
  id : Nat := 0
  header : Option Nat
  backEdges : List Nat := []
  basicBlocks : List Nat := []
  outerLoop : Option Nat := none
  innerLoops : List Nat := []
  isIrreducible : Bool
  isRoot : Bool := false
  deriving DecidableEq, Repr

/-- `AnalysisFlag`. -/
inductive AnalysisFlag where
  | DOM_TREE | LOOP_ANALYSIS | RPO | LINEAR_ORDERING
  deriving DecidableEq, Repr

/-- `Graph` with the objects it owns. `instrCount` is the builder's `currentId`; `blockCount` and `loopCount` are the
next free references. A null entry of `bblocks` is an unlinked block. -/
structure Graph where
  instr : Nat → Instruction
  block : Nat → BasicBlock
  loop : Nat → Loop := fun _ => { header := none, isIrreducible := false }
  instrCount : Nat
  blockCount : Nat
  loopCount : Nat := 0
  firstBlock : Option Nat := none
  lastBlock : Option Nat := none
  bblocks : List (Option Nat) := []
  unlinkedInstructionsCounter : Nat := 0
  rpoBlocks : List Nat := []
  loopTreeRoot : Option Nat := none
  valid : AnalysisFlag → Bool := fun _ => false

/-- The graph with the given objects, numbered in order; the first block is the block 0. -/
def Graph.ofLists (instrs : List Instruction) (blocks : List BasicBlock) (loops : List Loop) : Graph where
  instr i := instrs.getD i { opcode := .INVALID, type := .INVALID }
  block b := blocks.getD b {}
  loop l := loops.getD l { header := none, isIrreducible := false }
  instrCount := instrs.length
  blockCount := blocks.length
  loopCount := loops.length
  firstBlock := some 0
  bblocks := (List.range blocks.length).map some

theorem Graph.ofLists_block_ge {instrs blocks loops} {c : Nat} (h : blocks.length ≤ c) :
    (Graph.ofLists instrs blocks loops).block c = {} :=
  List.getD_eq_default _ _ h

/-- A debug assertion; the program stops when it fails. -/
def ASSERT (p : Prop) [Decidable p] : Option Unit := if p then some () else none

@[simp] theorem ASSERT_bind {α : Type*} {p : Prop} [Decidable p] {f : Unit → Option α} {a : α} :
    (ASSERT p).bind f = some a ↔ p ∧ f () = some a := by
  unfold ASSERT
  split <;> simp_all

@[simp] theorem ASSERT_eq_some {p : Prop} [Decidable p] {u : Unit} : ASSERT p = some u ↔ p := by
  unfold ASSERT
  split <;> simp_all

theorem ASSERT_of {p : Prop} [Decidable p] (h : p) : ASSERT p = some () := if_pos h

namespace Graph

/-! ## Writing to an object -/

def modifyInstr (g : Graph) (i : Nat) (f : Instruction → Instruction) : Graph :=
  { g with instr := Function.update g.instr i (f (g.instr i)) }

def modifyBlock (g : Graph) (b : Nat) (f : BasicBlock → BasicBlock) : Graph :=
  { g with block := Function.update g.block b (f (g.block b)) }

def modifyLoop (g : Graph) (l : Nat) (f : Loop → Loop) : Graph :=
  { g with loop := Function.update g.loop l (f (g.loop l)) }

section
variable (g : Graph) (i j : Nat) (b c : Nat) (l : Nat)
  (f : Instruction → Instruction) (k : BasicBlock → BasicBlock) (m : Loop → Loop)

theorem modifyInstr_instr :
    (g.modifyInstr i f).instr j = if j = i then f (g.instr i) else g.instr j := by
  simp [modifyInstr, Function.update_apply]

theorem modifyBlock_block :
    (g.modifyBlock b k).block c = if c = b then k (g.block b) else g.block c := by
  simp [modifyBlock, Function.update_apply]

@[simp] theorem modifyInstr_instr_self : (g.modifyInstr i f).instr i = f (g.instr i) := by
  simp [modifyInstr]

@[simp] theorem modifyBlock_block_self : (g.modifyBlock b k).block b = k (g.block b) := by
  simp [modifyBlock]

@[simp] theorem modifyInstr_instr_ne {i j : Nat} (h : j ≠ i) :
    (g.modifyInstr i f).instr j = g.instr j := by
  simp [modifyInstr, h]

@[simp] theorem modifyBlock_block_ne {b c : Nat} (h : c ≠ b) :
    (g.modifyBlock b k).block c = g.block c := by
  simp [modifyBlock, h]

@[simp] theorem modifyInstr_block : (g.modifyInstr i f).block = g.block := rfl
@[simp] theorem modifyInstr_loop : (g.modifyInstr i f).loop = g.loop := rfl
@[simp] theorem modifyInstr_instrCount : (g.modifyInstr i f).instrCount = g.instrCount := rfl
@[simp] theorem modifyInstr_blockCount : (g.modifyInstr i f).blockCount = g.blockCount := rfl
@[simp] theorem modifyInstr_firstBlock : (g.modifyInstr i f).firstBlock = g.firstBlock := rfl
@[simp] theorem modifyInstr_lastBlock : (g.modifyInstr i f).lastBlock = g.lastBlock := rfl
@[simp] theorem modifyInstr_bblocks : (g.modifyInstr i f).bblocks = g.bblocks := rfl
@[simp] theorem modifyBlock_instr : (g.modifyBlock b k).instr = g.instr := rfl
@[simp] theorem modifyBlock_loop : (g.modifyBlock b k).loop = g.loop := rfl
@[simp] theorem modifyBlock_instrCount : (g.modifyBlock b k).instrCount = g.instrCount := rfl
@[simp] theorem modifyBlock_blockCount : (g.modifyBlock b k).blockCount = g.blockCount := rfl
@[simp] theorem modifyBlock_firstBlock : (g.modifyBlock b k).firstBlock = g.firstBlock := rfl
@[simp] theorem modifyBlock_lastBlock : (g.modifyBlock b k).lastBlock = g.lastBlock := rfl
@[simp] theorem modifyBlock_bblocks : (g.modifyBlock b k).bblocks = g.bblocks := rfl
@[simp] theorem modifyLoop_instr : (g.modifyLoop l m).instr = g.instr := rfl
@[simp] theorem modifyLoop_block : (g.modifyLoop l m).block = g.block := rfl
@[simp] theorem modifyLoop_instrCount : (g.modifyLoop l m).instrCount = g.instrCount := rfl
@[simp] theorem modifyLoop_blockCount : (g.modifyLoop l m).blockCount = g.blockCount := rfl
@[simp] theorem modifyLoop_firstBlock : (g.modifyLoop l m).firstBlock = g.firstBlock := rfl
@[simp] theorem modifyLoop_lastBlock : (g.modifyLoop l m).lastBlock = g.lastBlock := rfl
@[simp] theorem modifyLoop_bblocks : (g.modifyLoop l m).bblocks = g.bblocks := rfl
end

end Graph

end CompilerLab.Jit
