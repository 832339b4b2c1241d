import CompilerLab.Jit.Ir
import CompilerLab.Lib.Vector

/-!
# Users lists and input slots

`Users` and the input operations of `InputsInstruction`, `VariableInputsInstruction` and `PhiInstruction`.
Only the constructors, `setInput` and `addInput` touch both sides of a def-use edge.
-/

namespace CompilerLab.Jit.Graph

open CompilerLab.Lib

/-! ## Users -/

/-- `AddUser`. -/
def addUser (g : Graph) (i user : Nat) : Graph :=
  g.modifyInstr i fun x => { x with users := x.users ++ [user] }

/-- `AddUsers`. -/
def addUsers (g : Graph) (i : Nat) (instrs : List Nat) : Graph :=
  g.modifyInstr i fun x => { x with users := x.users ++ instrs }

/-- `RemoveUser`. -/
def removeUser (g : Graph) (i user : Nat) : Option Graph := do
  ASSERT (user ∈ (g.instr i).users)
  return g.modifyInstr i fun x => { x with users := swapErase x.users user }

/-- `ReplaceUser`. -/
def replaceUser (g : Graph) (i oldInstr newInstr : Nat) : Option Graph := do
  ASSERT (oldInstr ∈ (g.instr i).users)
  return g.modifyInstr i fun x => { x with users := x.users.replace oldInstr newInstr }

/-! ## Inputs -/

/-- `GetInput(idx)` dereferenced. -/
def getInput (g : Graph) (i : Nat) (idx : Nat) : Option Nat := ((g.instr i).inputs[idx]?).join

/-- `AddUser` on a non-null input. -/
def addUserOf (g : Graph) (input : Option Nat) (user : Nat) : Graph :=
  match input with
  | some j => g.addUser j user
  | none => g

/-- `SetInput`: the previous input of the slot keeps its user. -/
def setInput (g : Graph) (i : Nat) (newInput : Option Nat) (idx : Nat) : Option Graph := do
  ASSERT (idx < (g.instr i).inputs.length)
  return (g.modifyInstr i fun x => { x with inputs := x.inputs.set idx newInput }).addUserOf newInput i

/-- `ReplaceInput`: the first slot holding `oldInput`; users lists are not touched. -/
def replaceInput (g : Graph) (i oldInput newInput : Nat) : Option Graph := do
  ASSERT (some oldInput ∈ (g.instr i).inputs)
  return g.modifyInstr i fun x => { x with inputs := x.inputs.replace (some oldInput) (some newInput) }

/-- `AddInput` of the instructions with a variable number of inputs. -/
def addInput (g : Graph) (i : Nat) (newInput : Option Nat) : Graph :=
  (g.modifyInstr i fun x => { x with inputs := x.inputs ++ [newInput] }).addUserOf newInput i

/-- `RemoveUserFromInputs`. -/
def removeUserFromInputs (g : Graph) (i : Nat) : Option Graph :=
  (g.instr i).inputs.foldlM (fun g input => do g.removeUser (← input) i) g

/-- The loop of `ReplaceInputInUsers` over the users. -/
def replaceInputIn (g : Graph) (i newInput : Nat) (users : List Nat) : Option Graph :=
  users.foldlM (fun g user => do
    ASSERT ((g.instr user).hasInputs = true)
    g.replaceInput user i newInput) g

/-- `ReplaceInputInUsers`: `i` itself keeps its users list. -/
def replaceInputInUsers (g : Graph) (i newInput : Nat) : Option Graph :=
  let g := g.addUsers newInput (g.instr i).users
  g.replaceInputIn i newInput (g.instr i).users

/-! ## Phis -/

/-- `PhiInstruction::IndexOf`; the length of the sources when absent. -/
def indexOf (g : Graph) (phi : Nat) (inputSource : Nat) : Nat :=
  (g.instr phi).sourceBBlocks.idxOf inputSource

/-- `ResolveInput`. -/
def resolveInput (g : Graph) (phi : Nat) (inputSource : Nat) : Option Nat :=
  g.getInput phi (g.indexOf phi inputSource)

/-- `ReplaceSourceBasicBlock`; writing past the end of the sources is undefined. -/
def replaceSourceBasicBlock (g : Graph) (phi : Nat) (inputSource newSource : Nat) : Option Graph := do
  ASSERT (inputSource ∈ (g.instr phi).sourceBBlocks)
  return g.modifyInstr phi fun x => { x with sourceBBlocks := x.sourceBBlocks.replace inputSource newSource }

/-- `AddPhiInput`. -/
def addPhiInput (g : Graph) (phi : Nat) (newInput : Option Nat) (inputSource : Nat) : Graph :=
  (g.addInput phi newInput).modifyInstr phi fun x =>
    { x with sourceBBlocks := x.sourceBBlocks ++ [inputSource] }

/-- `v[idx] = v.back(); v.pop_back()`. -/
def popInto {α : Type*} (l : List α) (idx : Nat) : List α :=
  match l.getLast? with
  | none => []
  | some b => (l.set idx b).dropLast

/-- `RemovePhiInput`: the removed input keeps the phi among its users. -/
def removePhiInput (g : Graph) (phi : Nat) (bblock : Nat) : Option Graph := do
  let idx := g.indexOf phi bblock
  ASSERT (idx < (g.instr phi).sourceBBlocks.length)
  return g.modifyInstr phi fun x =>
    { x with sourceBBlocks := popInto x.sourceBBlocks idx, inputs := popInto x.inputs idx }

/-! ## What a completed operation did -/

section
variable {g g' : Graph} {i j k : Nat} {b c : Nat}

theorem removeUser_eq_some : g.removeUser i j = some g' ↔
    j ∈ (g.instr i).users ∧ g.modifyInstr i (fun x => { x with users := swapErase x.users j }) = g' := by
  simp only [removeUser, Option.bind_eq_bind, ASSERT_bind, Option.pure_def, Option.some.injEq]

theorem replaceUser_eq_some : g.replaceUser i j k = some g' ↔
    j ∈ (g.instr i).users ∧ g.modifyInstr i (fun x => { x with users := x.users.replace j k }) = g' := by
  simp only [replaceUser, Option.bind_eq_bind, ASSERT_bind, Option.pure_def, Option.some.injEq]

theorem setInput_eq_some {input : Option Nat} {idx : Nat} : g.setInput i input idx = some g' ↔
    idx < (g.instr i).inputs.length ∧
      (g.modifyInstr i fun x => { x with inputs := x.inputs.set idx input }).addUserOf input i = g' := by
  simp only [setInput, Option.bind_eq_bind, ASSERT_bind, Option.pure_def, Option.some.injEq]

theorem replaceInput_eq_some : g.replaceInput i j k = some g' ↔
    some j ∈ (g.instr i).inputs ∧
      g.modifyInstr i (fun x => { x with inputs := x.inputs.replace (some j) (some k) }) = g' := by
  simp only [replaceInput, Option.bind_eq_bind, ASSERT_bind, Option.pure_def, Option.some.injEq]

theorem replaceSourceBasicBlock_eq_some : g.replaceSourceBasicBlock i b c = some g' ↔
    b ∈ (g.instr i).sourceBBlocks ∧
      g.modifyInstr i (fun x => { x with sourceBBlocks := x.sourceBBlocks.replace b c }) = g' := by
  simp only [replaceSourceBasicBlock, Option.bind_eq_bind, ASSERT_bind, Option.pure_def, Option.some.injEq]

theorem removePhiInput_eq_some : g.removePhiInput i b = some g' ↔
    g.indexOf i b < (g.instr i).sourceBBlocks.length ∧
      g.modifyInstr i (fun x => { x with
        sourceBBlocks := popInto x.sourceBBlocks (g.indexOf i b), inputs := popInto x.inputs (g.indexOf i b) }) =
        g' := by
  simp only [removePhiInput, Option.bind_eq_bind, ASSERT_bind, Option.pure_def, Option.some.injEq]

end

end CompilerLab.Jit.Graph
