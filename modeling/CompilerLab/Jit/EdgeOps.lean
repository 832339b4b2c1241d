import CompilerLab.Jit.GraphOps
import CompilerLab.Jit.Loop

/-!
# Operations on blocks and their edges

`Graph::AddBasicBlockBefore`, `Graph::UnlinkBasicBlock` and `BasicBlock::SplitAfterInstruction`.
-/

namespace CompilerLab.Jit.Graph

/-- The body of the loop of `AddBasicBlockBefore`. -/
def redirectInto (before bblock : Nat) (g : Graph) (b : Nat) : Option Graph := do
  let g ← g.removeSuccessor b before
  let g ← g.addSuccessor b bblock
  g.addPredecessor bblock b

def addBasicBlockBefore (g : Graph) (before bblock : Nat) : Option Graph := do
  ASSERT ((g.block before).inGraph = true)
  ASSERT ((g.block bblock).preds = [])
  ASSERT ((g.block bblock).succs = [])
  let g := g.modifyBlock bblock fun x => { x with inGraph := true }
  let g ← (g.block before).preds.foldlM (redirectInto before bblock) g
  let g := g.modifyBlock before fun x => { x with preds := [] }
  let g ← g.addPredecessor before bblock
  let g ← g.addSuccessor bblock before
  return g.invalidateAfterChangedCFG

/-! ## Unlinking a block -/

def removePredecessors (g : Graph) (bblock : Nat) : Option Graph := do
  let g ← (g.block bblock).preds.foldlM (fun g b => g.removeSuccessor b bblock) g
  return g.modifyBlock bblock fun x => { x with preds := [] }

/-- The edge from `phiSource` to `phiTarget` is taken off its end. -/
def leaveSuccessor (phiSource : Nat) (g : Graph) (phiTarget : Nat) : Option Graph := do
  let g ← g.fixPHIAfterDisconnect phiSource phiTarget
  g.removePredecessor phiTarget phiSource

def removeSuccessors (g : Graph) (bblock : Nat) : Option Graph := do
  let g ← (g.block bblock).succs.foldlM (leaveSuccessor bblock) g
  return g.modifyBlock bblock fun x => { x with succs := [] }

def unlinkBasicBlock (g : Graph) (bblock : Nat) : Option Graph := do
  let g ← g.unlinkBasicBlockRaw bblock
  if g.lastBlock ≠ some bblock then
    let g ← g.removePredecessors bblock
    g.removeSuccessors bblock
  else
    ASSERT (∀ pred ∈ (g.block bblock).preds, bblock ∉ (g.block pred).succs)
    ASSERT (∀ succ ∈ (g.block bblock).succs, bblock ∉ (g.block succ).preds)
    return g.modifyBlock bblock fun x => { x with preds := [], succs := [] }

/-! ## Splitting a block -/

/-- The body of the loop of `SplitAfterInstruction` over the successors. -/
def moveSuccessor (b newBBlock : Nat) (g : Graph) (succ : Nat) : Option Graph := do
  let g ← g.removePredecessor succ b
  g.connectBasicBlocks newBBlock succ

/-- The loop of `SplitAfterInstruction` over the instructions from `cur` on. -/
def moveInstructions (newBBlock : Nat) : Nat → Graph → Option Nat → Option Graph
  | _, g, none => some g
  | 0, _, some _ => none
  | n + 1, g, some iter =>
      let g := g.setParent iter (some newBBlock)
      let g := g.modifyBlock newBBlock fun x => { x with instrsCount := x.instrsCount + 1 }
      moveInstructions newBBlock n g (g.instr iter).next

/-- The ends of the segments after a split; the first instruction of the old block stays when the split is behind its phis. -/
def splitEnds (g : Graph) (b newBBlock instr nextInstr : Nat) : Option Graph :=
  let old := g.block b
  if (g.instr nextInstr).isPhi then do
    ASSERT ((g.instr instr).isPhi = true)
    let g := g.modifyBlock newBBlock fun x =>
      { x with firstPhi := some nextInstr, lastPhi := old.lastPhi, firstInst := old.firstInst, lastInst := old.lastInst }
    return g.modifyBlock b fun x => { x with lastPhi := some instr, firstInst := none, lastInst := none }
  else
    let g := g.modifyBlock newBBlock fun x => { x with firstInst := some nextInstr, lastInst := old.lastInst }
    some (g.modifyBlock b fun x => { x with lastInst := some instr })

def splitAfterInstruction (g : Graph) (b instr : Nat) (connectAfterSplit : Bool) : Option (Graph × Nat) := do
  ASSERT ((g.instr instr).parent = some b)
  let nextInstr ← (g.instr instr).next
  let (g, newBBlock) ← g.createEmptyBasicBlock false
  let g ← if connectAfterSplit then g.connectBasicBlocks b newBBlock else some g
  let g ← match (g.block b).loop with
    | some loop => g.loopAddBasicBlock loop newBBlock
    | none => some g
  let g ← (g.block b).succs.foldlM (moveSuccessor b newBBlock) g
  let g := g.modifyBlock b fun x => { x with succs := [] }
  let g := g.setNext instr none
  let g := g.setPrev nextInstr none
  let g ← moveInstructions newBBlock g.instrCount g (some nextInstr)
  let g := g.modifyBlock b fun x => { x with instrsCount := x.instrsCount - (g.block newBBlock).instrsCount }
  let g ← g.splitEnds b newBBlock instr nextInstr
  return (g, newBBlock)

end CompilerLab.Jit.Graph
