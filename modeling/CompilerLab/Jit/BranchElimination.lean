import CompilerLab.Jit.Branch
import CompilerLab.Jit.GraphChecker

/-!
# Branch elimination

`BranchElimination` removes the edges that are never taken, then the blocks that cannot be reached any more. The live
marker is the list of the blocks it is set on.
-/

namespace CompilerLab.Jit

/-- `CmpResult`. -/
inductive CmpResult where
  | FALSE | TRUE | UNDEFINED
  deriving DecidableEq, Repr

namespace CmpResult

def ofBool (r : Bool) : CmpResult := if r then .TRUE else .FALSE
/-- `static_cast<bool>`. -/
def toBool (r : CmpResult) : Bool := r != .FALSE

@[simp] theorem toBool_ofBool (r : Bool) : (ofBool r).toBool = r := by cases r <;> rfl
@[simp] theorem ofBool_ne (r : Bool) : ofBool r ≠ .UNDEFINED := by cases r <;> simp [ofBool]

end CmpResult

/-- `compare` on stored words; `none` is its `UNREACHABLE`. -/
def compare (cc : CondCode) (lhs rhs : Word) : Option Bool :=
  match cc with
  | .EQ => some (lhs = rhs)
  | .NE => some (lhs ≠ rhs)
  | .LT => some (lhs < rhs)
  | .GE => some (rhs ≤ lhs)
  | _ => none

namespace Graph

/-- `evaluateComparison`. -/
def evaluateComparison (g : Graph) (instr : Nat) : Option CmpResult := do
  let condCode := (g.instr instr).ccode
  let input0 ← (g.instr instr).inputs[0]?
  let input1 ← (g.instr instr).inputs[1]?
  if input0 = input1 then
    return CmpResult.ofBool (condCode = .GE ∨ condCode = .EQ)
  let i0 ← input0
  let i1 ← input1
  if (g.instr i0).isConst ∧ (g.instr i1).isConst then
    return CmpResult.ofBool (← compare condCode (g.instr i0).value (g.instr i1).value)
  return .UNDEFINED

/-- `removeEdge`. -/
def removeEdge (g : Graph) (instr : Nat) (cmpRes : Bool) : Option Graph := do
  let jcmp ← (g.instr instr).next
  ASSERT ((g.instr jcmp).opcode = .JCMP)
  let bblock ← (g.instr jcmp).parent
  ASSERT ((g.block bblock).succs.length = 2)
  let removeBlock ← g.destination bblock !cmpRes
  ASSERT (0 < (g.block removeBlock).preds.length)
  let g ← g.unlinkInstruction bblock jcmp
  let g ← g.unlinkInstruction bblock instr
  g.disconnectBasicBlocks bblock removeBlock

/-- The body of the loop of `propagateConstsInCond`, with its flag. -/
def propagateConstInCond (s : Graph × Bool) (bblock : Nat) : Option (Graph × Bool) := do
  let (g, removed) := s
  match ← g.endsWithConditionalJump bblock with
  | none => return (g, removed)
  | some cmp =>
      let eval ← g.evaluateComparison cmp
      if eval ≠ .UNDEFINED then
        return (← g.removeEdge cmp eval.toBool, true)
      else return (g, removed)

/-- `propagateConstsInCond`. -/
def propagateConstsInCond (g : Graph) : Option (Graph × Bool) := g.blocks.foldlM propagateConstInCond (g, false)

/-! ## The blocks that cannot be reached -/

/-- `doMarkPhase`: the graph with its new RPO, and the live blocks. -/
def doMarkPhase (g : Graph) : Option (Graph × List Nat) := do
  let rpo ← g.traverse false
  ASSERT (rpo.length < g.getBasicBlocksCount)
  return ({ g with rpoBlocks := rpo.reverse }, rpo)

/-- The body of the loop of `removeUnreachable` over the successors. -/
def disconnectLive (live : List Nat) (bblock : Nat) (g : Graph) (succ : Nat) : Option Graph :=
  if succ ∈ live then g.disconnectBasicBlocks bblock succ else some g

/-- The part of `removeUnreachable` that mends the dominator tree. -/
def fixDominated (g : Graph) (live : List Nat) (bblock : Nat) : Option Graph := do
  let dominator ← (g.block bblock).dominator
  if dominator ∈ live then g.removeDominatedBlock dominator bblock else some g

/-- `removeUnreachable`: the loop runs over the successors there are at its start, since the removal of one does not
overwrite the last. -/
def removeUnreachable (g : Graph) (bblock : Nat) (live : List Nat) (fixDomTree : Bool) : Option Graph := do
  ASSERT (∀ b ∈ (g.block bblock).preds, b ∉ live)
  let g ← (g.block bblock).succs.foldlM (disconnectLive live bblock) g
  let g ← if fixDomTree then g.fixDominated live bblock else some g
  g.unlinkBasicBlockRaw bblock

/-- The body of the loop of `BranchElimination::Run`. -/
def removeNotMarked (live : List Nat) (domTreeValid : Bool) (g : Graph) (b : Nat) : Option Graph :=
  if b ∈ live then some g else g.removeUnreachable b live domTreeValid

/-- `postElimination`. -/
def postElimination (g : Graph) (domTreeValid : Bool) : Option Graph := do
  g.runGraphChecker
  let g := g.setAnalysisValid .LOOP_ANALYSIS false
  let g := g.setAnalysisValid .DOM_TREE domTreeValid
  return g.setAnalysisValid .RPO true

/-- `PassManager::Run<BranchElimination>`. -/
def runBranchElimination (g : Graph) : Option (Graph × Bool) := do
  let domTreeValid := g.valid .DOM_TREE
  let (g, removed) ← g.propagateConstsInCond
  if removed = false then return (g, false)
  let (g, live) ← g.doMarkPhase
  let g ← g.blocks.foldlM (removeNotMarked live domTreeValid) g
  let g ← g.postElimination domTreeValid
  return (g, true)

end Graph

end CompilerLab.Jit
