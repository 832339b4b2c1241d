import CompilerLab.Jit.GraphOps
import CompilerLab.Lib.Dfs

/-!
# Traversals

`DFO` and `RPO`. The marker of a traversal is the set of the blocks it has been set on.
-/

namespace CompilerLab.Jit.Graph

open CompilerLab.Lib

/-- The state of `DFO`; `result` is what the callback has been given. -/
structure Traversal where
  visited : Nat → Bool := fun _ => false
  visitedCounter : Nat := 0
  result : List Nat := []

/-- `traverseImpl`. -/
def dfo (g : Graph) : Dfs Traversal Nat where
  next _ b := (g.block b).succs
  seen s b := s.visited b
  enter s b := some { s with visitedCounter := s.visitedCounter + 1, visited := Function.update s.visited b true }
  again s b succ := do
    ASSERT (g.hasPredecessor succ b = true)
    return s
  forth s b succ := do
    ASSERT (g.hasPredecessor succ b = true)
    return s
  leave s b := some { s with result := s.result ++ [b] }

/-- `DFO::Traverse`: the blocks in the order the callback is run on them. -/
def traverse (g : Graph) (doSafe : Bool) : Option (List Nat) :=
  if g.isEmpty then some []
  else do
    let s ← g.dfo.visit (g.blockCount + 1) {} (← g.firstBlock)
    if doSafe then
      ASSERT (s.visitedCounter = g.getBasicBlocksCount)
    return s.result

/-- `DoRPO`. -/
def doRPO (g : Graph) : Option (List Nat) :=
  if g.isEmpty then some []
  else do
    let result ← g.traverse true
    ASSERT (result.length = g.getBasicBlocksCount)
    return result.reverse

/-- `PassManager::Run<RPO>`. -/
def runRPO (g : Graph) : Option Graph :=
  if g.valid .RPO then some g
  else do
    return { g with rpoBlocks := ← g.doRPO }.setAnalysisValid .RPO true

/-- `GetRPO`. -/
def getRPO (g : Graph) : Option (List Nat) := do
  ASSERT (g.valid .RPO = true)
  return g.rpoBlocks

/-! ## Reachable blocks -/

/-- An edge of the control flow. -/
def Edge (g : Graph) (b c : Nat) : Prop := c ∈ (g.block b).succs

/-- Control flow leads from `b` to `c`. -/
abbrev Leads (g : Graph) : Nat → Nat → Prop := Relation.ReflTransGen g.Edge

/-- The blocks of the graph are linked with each other in both directions. -/
structure WellConnected (g : Graph) (first : Nat) : Prop where
  firstBlock : g.firstBlock = some first
  first_mem : first ∈ g.blocks
  nodup : g.blocks.Nodup
  count : g.getBasicBlocksCount = g.blocks.length
  lt : ∀ b ∈ g.blocks, b < g.blockCount
  succ_mem : ∀ b ∈ g.blocks, ∀ c ∈ (g.block b).succs, c ∈ g.blocks
  pred_mem : ∀ b ∈ g.blocks, ∀ c ∈ (g.block b).preds, c ∈ g.blocks
  edges : ∀ b ∈ g.blocks, ∀ c ∈ g.blocks, c ∈ (g.block b).succs ↔ b ∈ (g.block c).preds

end CompilerLab.Jit.Graph
