import CompilerLab.Jit.GraphOps
import CompilerLab.Jit.LinearOrdering
import CompilerLab.Jit.LinearScanRegAlloc

/-!
# Resolving phis

`fixPhis` of `LinearScanRegAlloc`: on every edge into a block with phis, moves bring the inputs to the locations of the
phis. `location` is the location of the live interval of an instruction.
-/

namespace CompilerLab.Jit.LinearScan

/-- What `fixPhis` changes, with its local variables: `insertInto` is the block the moves of the edge go to. -/
structure PhiState where
  graph : Graph
  location : Nat → Option ValueLocation
  insertInto : Option Nat := none
  insertedNew : Bool := false

/-- `isCriticalEdge`. -/
def isCriticalEdge (g : Graph) (bblock pred : Nat) : Bool :=
  1 < (g.block bblock).preds.length && 1 < (g.block pred).succs.length

/-- `breakCriticalEdge`. -/
def breakCriticalEdge (g : Graph) (bblock pred : Nat) : Option (Graph × Nat) := do
  let (g, newBlock) ← g.createEmptyBasicBlock false
  let g ← g.insertBetween newBlock pred bblock
  let g ← g.loopAddBasicBlock (← (g.block pred).loop) newBlock
  return (g, newBlock)

/-- The block the move goes to; a critical edge is broken for the first move on it. -/
def PhiState.target (s : PhiState) (bblock pred : Nat) : Option (PhiState × Nat) :=
  match s.insertInto with
  | some b => some (s, b)
  | none => do
      let (g, b) ← breakCriticalEdge s.graph bblock pred
      return ({ s with graph := g, insertInto := some b, insertedNew := true }, b)

/-- The body of the inner loop of `resolvePhis`. -/
def resolvePhi (bblock pred : Nat) (s : PhiState) (phi : Nat) : Option PhiState := do
  let phiLoc ← s.location phi
  let idx := s.graph.indexOf phi pred
  let input ← s.graph.getInput phi idx
  let inputLoc ← s.location input
  if inputLoc = phiLoc then
    return s
  let (g, move) := s.graph.createMOVE input
  let (s, insertInto) ← { s with graph := g }.target bblock pred
  let g ← s.graph.pushBackInstruction insertInto move
  let g ← g.setInput phi (some move) idx
  let g ← g.removeUser input phi
  return { s with graph := g, location := Function.update s.location move (some phiLoc) }

/-- The body of the outer loop of `resolvePhis`. -/
def resolveEdge (bblock : Nat) (s : PhiState) (pred : Nat) : Option PhiState :=
  let s := { s with insertInto := if isCriticalEdge s.graph bblock pred then none else some pred }
  Graph.forPhi PhiState.graph (resolvePhi bblock pred) s.graph.instrCount s (s.graph.block bblock).firstPhi

/-- `resolvePhis`: breaking the edge from a predecessor replaces that predecessor only. -/
def resolvePhis (s : PhiState) (bblock : Nat) : Option PhiState := do
  ASSERT (1 < (s.graph.block bblock).preds.length)
  (s.graph.block bblock).preds.foldlM (resolveEdge bblock) s

/-- `fixPhis`, over the blocks there are when it starts. -/
def fixPhis (s : PhiState) : Option PhiState :=
  s.graph.blocks.foldlM (fun s b => if (s.graph.block b).firstPhi.isSome then resolvePhis s b else some s) s

end CompilerLab.Jit.LinearScan
