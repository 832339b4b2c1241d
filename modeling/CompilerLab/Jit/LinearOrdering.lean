import CompilerLab.Jit.Branch
import CompilerLab.Jit.Loop
import CompilerLab.Lib.Run

/-!
# Linear ordering

`LinearOrdering` after the dominator tree and the loops have been computed. The main loop is a machine that takes one
block from the queue, or inverts one branch, or queues the successors of one block at a time.
-/

namespace CompilerLab.Jit

namespace Graph

/-- `setNewOrder`. -/
def setNewOrder (g : Graph) (newOrder : List Nat) : Graph :=
  let g := newOrder.zipIdx.foldl (fun g (b, i) => g.modifyBlock b fun x => { x with id := i }) g
  { g with bblocks := newOrder.map some, unlinkedInstructionsCounter := 0 }

end Graph

namespace LinearOrdering

/-- The local variables of `orderBlocks`. `pending` is the block `queueCond` has been called for. -/
structure State where
  graph : Graph
  visited : Nat → Bool := fun _ => false
  remainedBlocks : List Nat
  newOrder : List Nat := []
  cfgChanged : Bool := false
  pending : Option Nat := none

/-- What a step of the ordering did. -/
inductive Action where
  | visit (b : Nat)
  | inverse (b : Nat)
  | jump (b : Nat)
  | queue (b : Nat)
  deriving DecidableEq, Repr

namespace State

variable (s : State)

/-- `unvisitedForwardEdgesExist`. -/
def unvisitedForwardEdgesExist (b : Nat) : Option Bool := do
  let loop ← (s.graph.block b).loop
  if (s.graph.loop loop).isIrreducible then
    return false
  let preds := (s.graph.block b).preds
  if s.graph.isLoopHeader b then
    return preds.any fun pred => !s.graph.dominates b pred && !s.visited pred
  return preds.any fun pred => !s.visited pred

/-- `mustInverseCondition`. -/
def mustInverseCondition (b : Nat) : Option Bool := do
  let loop ← (s.graph.block b).loop
  let trueBranch ← (s.graph.block b).succs[0]?
  let falseBranch ← (s.graph.block b).succs[1]?
  if s.visited trueBranch then
    return false
  if s.visited falseBranch then
    return true
  if (s.graph.block falseBranch).loop ≠ some loop ∧ (s.graph.block trueBranch).loop = some loop then
    return true
  if ← s.unvisitedForwardEdgesExist falseBranch then
    return !(← s.unvisitedForwardEdgesExist trueBranch)
  return false

/-- Insertion before the first block whose loop encloses `loop`. -/
def insertByLoop (g : Graph) (loop : Nat) (bblock : Nat) : List Nat → Option (List Nat)
  | [] => some [bblock]
  | b :: rest => do
      let other ← (g.block b).loop
      if g.isIn loop other then return bblock :: b :: rest
      return b :: (← insertByLoop g loop bblock rest)

/-- `addIntoQueue`. -/
def addIntoQueue (bblock : Nat) : Option State := do
  if s.visited bblock then
    return s
  if ← s.unvisitedForwardEdgesExist bblock then
    return s
  let loop ← (s.graph.block bblock).loop
  return { s with remainedBlocks := ← insertByLoop s.graph loop bblock s.remainedBlocks }

/-- `insertJmpBlock`. -/
def insertJmpBlock (g : Graph) (pred succ : Nat) : Option (Graph × Nat) := do
  let (g, newBlock) ← g.createEmptyBasicBlock (g.lastBlock == some succ)
  let (g, jmp) := g.createJMP
  let g ← g.pushBackInstruction newBlock jmp
  let g ← g.loopAddBasicBlock (← (g.block pred).loop) newBlock
  let g ← g.insertBetween newBlock pred succ
  return (g, newBlock)

/-- The body of `queueCond`, up to its call of itself. -/
def queueCond (b : Nat) : Option (Action × State) := do
  let loop ← (s.graph.block b).loop
  ASSERT ((s.graph.block b).succs.length = 2)
  let trueBranch ← (s.graph.block b).succs[0]?
  let falseBranch ← (s.graph.block b).succs[1]?
  if s.visited falseBranch ∧ s.visited trueBranch then
    let (g, newBlock) ← insertJmpBlock s.graph b falseBranch
    return (.jump b, { s with
      graph := g, remainedBlocks := newBlock :: s.remainedBlocks, cfgChanged := true, pending := none })
  if ← s.mustInverseCondition b then
    return (.inverse b, { s with graph := ← s.graph.inverseConditionalBranch b })
  let s := { s with pending := none }
  let s ←
    if (s.graph.block falseBranch).loop ≠ some loop then s.addIntoQueue falseBranch
    else some { s with remainedBlocks := falseBranch :: s.remainedBlocks }
  return (.queue b, ← s.addIntoQueue trueBranch)

/-- The body of the loop of `orderBlocks`, up to its call of `queueCond`. -/
def visitBlock (b : Nat) (rest : List Nat) : Option (Action × State) := do
  ASSERT (s.visited b = false)
  let s := { s with
    visited := Function.update s.visited b true, remainedBlocks := rest, newOrder := s.newOrder ++ [b] }
  match (s.graph.block b).succs with
  | [succ] =>
      if s.visited succ then
        return (.visit b, s)
      if ← s.unvisitedForwardEdgesExist succ then
        return (.visit b, s)
      return (.visit b, { s with remainedBlocks := succ :: s.remainedBlocks })
  | [_, _] => return (.visit b, { s with pending := some b })
  | _ => return (.visit b, s)

/-- One step of `orderBlocks`; `none` when an assertion fails, or when nothing is left to do. -/
def step : Option (Action × State) :=
  match s.pending, s.remainedBlocks with
  | some b, _ => s.queueCond b
  | none, b :: rest => s.visitBlock b rest
  | none, [] => none

/-- The loop of `orderBlocks` has ended. -/
def done : Bool := s.pending == none && s.remainedBlocks == []

end State

/-- The state in which the ordering of a graph starts. -/
def start (g : Graph) : Option State := do
  return { graph := g, remainedBlocks := [← g.firstBlock] }

/-- The steps of the ordering. -/
def Step (s : State) (a : Action) (s' : State) : Prop := s.step = some (a, s')

/-- `orderBlocks`, at most `fuel` steps of it. -/
def orderBlocks : Nat → State → Option State
  | 0, s => if s.done then some s else none
  | n + 1, s => if s.done then some s else do
      let (_, s) ← s.step
      orderBlocks n s

/-- `LinearOrdering::Run` from the computed loops to the new order of the blocks. -/
def run (fuel : Nat) (g : Graph) : Option Graph := do
  let s ← orderBlocks fuel (← start g)
  return s.graph.setNewOrder s.newOrder

end LinearOrdering

end CompilerLab.Jit
