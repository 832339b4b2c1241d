import CompilerLab.Jit.EdgeOps

/-!
# Removal of empty blocks

`EmptyBlocksRemoval` takes every block without instructions out of the graph, and gives its predecessors to its successor.
-/

namespace CompilerLab.Jit.Graph

/-- `IsEmpty` of a block that is neither the first nor the last of the graph. -/
def isRemovable (g : Graph) (bblock : Nat) : Bool :=
  (g.block bblock).instrsCount == 0 && g.firstBlock != some bblock && g.lastBlock != some bblock

/-- The part of `RemoveIfEmpty` before the loop over the predecessors: `successorToSet` loses the block, and its phis get the only
predecessor as a source. -/
def leaveForSuccessor (g : Graph) (bblock : Nat) : Option (Graph × Option Nat) := do
  if (g.block bblock).succs = [] then return (g, none)
  ASSERT ((g.block bblock).succs.length = 1)
  let successorToSet ← (g.block bblock).succs[0]?
  let g ← g.removePredecessor successorToSet bblock
  match (g.block successorToSet).firstPhi with
  | none => return (g, some successorToSet)
  | some firstPhi => do
      ASSERT ((g.block bblock).preds.length = 1)
      let pred ← (g.block bblock).preds[0]?
      let g ← forPhi id (fun g phi => g.replaceSourceBasicBlock phi bblock pred) g.instrCount g (some firstPhi)
      return (g, some successorToSet)

/-- The part of the loop that removes the branch to a block without successors. -/
def removeBranch (g : Graph) (pred : Nat) : Option Graph := do
  let jcmp ← (g.block pred).lastInst
  ASSERT ((g.instr jcmp).isBranch = true)
  let cmp ← (g.instr jcmp).prev
  ASSERT ((g.instr cmp).opcode = .CMP)
  let g ← g.unlinkInstruction pred jcmp
  g.unlinkInstruction pred cmp

/-- The body of the loop of `RemoveIfEmpty`. -/
def passOnPredecessor (bblock : Nat) (successorToSet : Option Nat) (g : Graph) (pred : Nat) : Option Graph := do
  let succs := (g.block pred).succs
  ASSERT (succs ≠ [] ∧ succs.length ≤ 2)
  match successorToSet with
  | none => do
      let g ← if succs.length = 2 then g.removeBranch pred else some g
      g.removeSuccessor pred bblock
  | some successorToSet => do
      let g ← g.addPredecessor successorToSet pred
      g.replaceSuccessor pred bblock successorToSet

/-- `RemoveIfEmpty`. The loop runs over the predecessors at its start: only a block that follows itself gets new ones, and the
first of them is one it has. -/
def removeIfEmpty (g : Graph) (bblock : Nat) : Option (Graph × Bool) := do
  if g.isRemovable bblock = false then return (g, false)
  let (g, successorToSet) ← g.leaveForSuccessor bblock
  let g ← (g.block bblock).preds.foldlM (passOnPredecessor bblock successorToSet) g
  let g := g.modifyBlock bblock fun x => { x with preds := [], succs := [] }
  let g ← g.unlinkBasicBlock bblock
  return (g, true)

/-- The callback of `Run`. -/
def removeCallback (s : Graph × Bool) (bblock : Nat) : Option (Graph × Bool) := do
  let (g, removed) ← s.1.removeIfEmpty bblock
  return (g, s.2 || removed)

/-- `postRemoval`. -/
def postRemoval (g : Graph) : Graph :=
  ((g.setAnalysisValid .DOM_TREE false).setAnalysisValid .LOOP_ANALYSIS false).setAnalysisValid .RPO false

/-- `PassManager::Run<EmptyBlocksRemoval>`. -/
def runEmptyBlocksRemoval (g : Graph) : Option (Graph × Bool) := do
  let (g, wasRemoved) ← g.blocks.foldlM removeCallback (g, false)
  return (if wasRemoved then g.postRemoval else g, wasRemoved)

end CompilerLab.Jit.Graph
