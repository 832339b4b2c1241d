import CompilerLab.Jit.GraphOps
import CompilerLab.Lib.Run

/-!
# Peephole optimisation

`PeepholePass` with the `ConstantFolding` it calls. The result of a rule is `none` when the program stops, `some none`
when the rule does not apply, and `some (some g)` when it has made the graph `g`.
-/

namespace CompilerLab.Jit

/-- What a rule returns, with the graph it leaves. -/
abbrev RuleResult := Option (Option Graph)

/-- Rules are tried in order until one applies. -/
def firstApplied : List RuleResult → RuleResult
  | [] => some none
  | r :: rs => do
      match ← r with
      | some g => some (some g)
      | none => firstApplied rs

namespace ConstantFolding

open Graph

/-- `ReplaceWithConst`. -/
def replaceWithConst (g : Graph) (instr targetConst : Nat) : Option Graph := do
  let g ← g.replaceInputInUsers instr targetConst
  let bblock ← (g.instr instr).parent
  let g ← g.unlinkInstruction bblock instr
  let firstBlock ← g.firstBlock
  g.pushBackInstruction firstBlock targetConst

/-- `ProcessAND`, `ProcessSRA` and `ProcessSUB` up to the operation on the stored words. -/
def foldBinary (fold : OperandType → Word → Word → Option Word) (g : Graph) (instr : Nat) : RuleResult := do
  let input1 ← g.getInput instr 0
  let input2 ← g.getInput instr 1
  if (g.instr input1).isConst && (g.instr input2).isConst then
    let type := (g.instr instr).type
    let value ← fold type (g.instr input1).value (g.instr input2).value
    let (g, newInstr) := g.createCONST type value
    let g ← g.removeUser input1 instr
    let g ← g.removeUser input2 instr
    let g ← replaceWithConst g instr newInstr
    return some g
  return none

/-- `ProcessAND`. -/
def processAND : Graph → Nat → RuleResult := foldBinary fun _ x y => some (x &&& y)

/-- `ProcessSRA`: shifting a 64-bit number by 64 or more is undefined. -/
def processSRA : Graph → Nat → RuleResult :=
  foldBinary fun type x y => if y.toNat < 64 then some ((toSigned x type).sshiftRight y.toNat) else none

/-- `ProcessSUB`. -/
def processSUB : Graph → Nat → RuleResult := foldBinary fun _ x y => some (x - y)

end ConstantFolding

namespace Peephole

open Graph ConstantFolding

/-- `replaceWithoutNewInstr`. -/
def replaceWithoutNewInstr (g : Graph) (instr replacedInstr : Nat) : Option Graph := do
  let g ← g.replaceInputInUsers instr replacedInstr
  let bblock ← (g.instr instr).parent
  let g ← g.unlinkInstruction bblock instr
  let input1 ← g.getInput instr 0
  let g ← g.removeUser input1 instr
  let input2 ← g.getInput instr 1
  g.removeUser input2 instr

/-! ## AND -/

/-- `tryConstantAND`. -/
def tryConstantAND (g : Graph) (instr : Nat) (checked second : Option Nat) : RuleResult := do
  let checked ← checked
  if (g.instr checked).isConst then
    ASSERT ((g.instr checked).type = (g.instr instr).type)
    if (g.instr checked).value = 0 then
      return some (← replaceWithoutNewInstr g instr checked)
    let maxValue ← getMaxValue (g.instr instr).type
    if (g.instr checked).value = maxValue then
      let second ← second
      return some (← replaceWithoutNewInstr g instr second)
  return none

/-- `tryANDAfterNOT`: the negations are looked for in the block of the AND. -/
def tryANDAfterNOT (g : Graph) (instr : Nat) : RuleResult := do
  let input1 ← g.getInput instr 0
  let input2 ← g.getInput instr 1
  if (g.instr input1).opcode = .NOT ∧ (g.instr input2).opcode = .NOT ∧
      (g.instr input1).users.length = 1 ∧ (g.instr input2).users.length = 1 then
    let type := (g.instr instr).type
    let not1Arg ← g.getInput input1 0
    let not2Arg ← g.getInput input2 0
    let (g, orInstr) := g.createOR type not1Arg not2Arg
    let g ← g.replaceUser not1Arg input1 orInstr
    let g ← g.replaceUser not2Arg input2 orInstr
    let bblock ← (g.instr instr).parent
    let g ← g.unlinkInstruction bblock input1
    let g ← g.unlinkInstruction bblock input2
    let g ← g.insertBefore bblock instr orInstr
    let (g, notInstr) := g.createNOT type orInstr
    let g := g.addUser orInstr notInstr
    let g ← g.removeUser input1 instr
    let g ← g.removeUser input2 instr
    let g ← g.replaceInstruction bblock instr notInstr
    return some g
  return none

/-- `tryANDRepeatedArgs`. -/
def tryANDRepeatedArgs (g : Graph) (instr : Nat) : RuleResult := do
  let input1 ← g.getInput instr 0
  let input2 ← g.getInput instr 1
  if input1 = input2 then
    return some (← replaceWithoutNewInstr g instr input1)
  return none

/-! ## SRA -/

/-- `trySRAZero`. -/
def trySRAZero (g : Graph) (instr : Nat) : RuleResult := do
  let input1 ← g.getInput instr 0
  let input2 ← g.getInput instr 1
  if (g.instr input1).isConst ∧ (g.instr input1).value = 0 then
    return some (← replaceWithoutNewInstr g instr input1)
  if (g.instr input2).isConst ∧ (g.instr input2).value = 0 then
    return some (← replaceWithoutNewInstr g instr input1)
  return none

/-! ## SUB -/

/-- `trySUBAfterNEG`: the constructor and the rule both register the new instruction. -/
def trySUBAfterNEG (g : Graph) (instr : Nat) (checked second : Option Nat) : RuleResult := do
  let checked ← checked
  if (g.instr checked).opcode = .NEG then
    let second ← second
    let positiveValueInput ← g.getInput checked 0
    let (g, newInstr) := g.createADD (g.instr instr).type positiveValueInput second
    let g := g.addUser positiveValueInput newInstr
    let bblock ← (g.instr instr).parent
    let g ← g.replaceInstruction bblock instr newInstr
    let g ← g.removeUser checked instr
    let g ← g.replaceUser second instr newInstr
    return some g
  return none

/-- Of the two operands of an addition, the one that stays when `operand` is taken off. -/
def otherOperand (g : Graph) (add operand : Nat) : Option (Option Nat) := do
  let input1 ← g.getInput add 0
  let input2 ← g.getInput add 1
  if operand = input1 then
    return some input2
  if operand = input2 then
    return some input1
  return none

/-- `trySUBAfterADD` on `(v1 + v0) - v0`. -/
def trySUBOfADD (g : Graph) (instr instrInput1 instrInput2 : Nat) : RuleResult := do
  if (g.instr instrInput1).opcode = .ADD then
    match ← otherOperand g instrInput1 instrInput2 with
    | some newInstr => return some (← replaceWithoutNewInstr g instr newInstr)
    | none => return none
  if (g.instr instrInput1).opcode = .ADDI then
    let input1 ← g.getInput instrInput1 0
    if input1 = instrInput2 then
      let (g', constInstr) := g.createCONST (g.instr instr).type (g.instr instrInput1).value
      let g' ← g'.removeUser instrInput1 instr
      return some (← replaceWithConst g' instr constInstr)
  return none

/-- `trySUBAfterADD` on `v0 - (v1 + v0)`. -/
def trySUBByADD (g : Graph) (instr instrInput1 instrInput2 : Nat) : RuleResult := do
  if (g.instr instrInput2).opcode = .ADD then
    match ← otherOperand g instrInput2 instrInput1 with
    | some userInstr =>
        let (g, negInstr) := g.createNEG (g.instr instr).type userInstr
        let g := g.addUser userInstr negInstr
        let g ← g.removeUser instrInput1 instr
        let g ← g.removeUser instrInput2 instr
        let bblock ← (g.instr instr).parent
        return some (← g.replaceInstruction bblock instr negInstr)
    | none => return none
  if (g.instr instrInput2).opcode = .ADDI then
    let input1 ← g.getInput instrInput2 0
    if input1 = instrInput1 then
      let (g', constInstr) := g.createCONST (g.instr instr).type (-(g.instr instrInput2).value)
      let g' ← g'.removeUser instrInput2 instr
      return some (← replaceWithConst g' instr constInstr)
  return none

/-- `trySUBAfterADD`. -/
def trySUBAfterADD (g : Graph) (instr : Nat) : RuleResult := do
  let instrInput1 ← g.getInput instr 0
  let instrInput2 ← g.getInput instr 1
  firstApplied [trySUBOfADD g instr instrInput1 instrInput2, trySUBByADD g instr instrInput1 instrInput2]

/-- `trySUBZero`. -/
def trySUBZero (g : Graph) (instr : Nat) : RuleResult := do
  let input1 ← g.getInput instr 0
  let input2 ← g.getInput instr 1
  if (g.instr input1).isConst ∧ (g.instr input1).value = 0 then
    let (g, negInstr) := g.createNEG (g.instr input2).type input2
    let g ← g.removeUser input1 instr
    let g ← g.replaceUser input2 instr negInstr
    let bblock ← (g.instr instr).parent
    return some (← g.replaceInstruction bblock instr negInstr)
  if (g.instr input2).isConst ∧ (g.instr input2).value = 0 then
    return some (← replaceWithoutNewInstr g instr input1)
  return none

/-- `trySUBRepeatedArgs`: the operand keeps the instruction among its users. -/
def trySUBRepeatedArgs (g : Graph) (instr : Nat) : RuleResult := do
  let input1 ← g.getInput instr 0
  let input2 ← g.getInput instr 1
  if input1 = input2 then
    let (g, constZero) := g.createCONST (g.instr instr).type 0
    return some (← replaceWithConst g instr constZero)
  return none

/-! ## The pass -/

/-- `ProcessAND`. -/
def processAND (g : Graph) (instr : Nat) : RuleResult :=
  firstApplied [ConstantFolding.processAND g instr, tryANDRepeatedArgs g instr, tryANDAfterNOT g instr,
    tryConstantAND g instr (g.getInput instr 0) (g.getInput instr 1),
    tryConstantAND g instr (g.getInput instr 1) (g.getInput instr 0)]

/-- `ProcessSRA`. -/
def processSRA (g : Graph) (instr : Nat) : RuleResult :=
  firstApplied [ConstantFolding.processSRA g instr, trySRAZero g instr]

/-- `ProcessSUB`. -/
def processSUB (g : Graph) (instr : Nat) : RuleResult :=
  firstApplied [ConstantFolding.processSUB g instr, trySUBRepeatedArgs g instr, trySUBZero g instr,
    trySUBAfterADD g instr, trySUBAfterNEG g instr (g.getInput instr 1) (g.getInput instr 0)]

/-- The body of the loop over the instructions of a block. -/
def processInstr (g : Graph) (instr : Nat) : Option Graph := do
  let applied ← match (g.instr instr).opcode with
    | .AND => processAND g instr
    | .SRA => processSRA g instr
    | .SUB => processSUB g instr
    | _ => some none
  return applied.getD g

/-- `for (auto *instr : *bblock)` from `cur` on: an instruction that has been unlinked has no next one. -/
def processFrom : Nat → Graph → Option Nat → Option Graph
  | _, g, none => some g
  | 0, _, some _ => none
  | n + 1, g, some instr => do
      let g ← processInstr g instr
      processFrom n g (g.instr instr).next

/-- `Run`, after the reverse post order has been computed. -/
def run (g : Graph) : Option Graph :=
  g.rpoBlocks.foldlM (fun g bblock => processFrom g.instrCount g (g.beginInstr bblock)) g

/-- The pass visits an instruction. -/
def Step (g : Graph) (instr : Nat) (g' : Graph) : Prop := processInstr g instr = some g'

end Peephole

end CompilerLab.Jit
