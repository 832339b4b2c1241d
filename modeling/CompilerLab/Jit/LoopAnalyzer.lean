import CompilerLab.Jit.DomTree
import CompilerLab.Jit.Loop

/-!
# Loop analysis

`LoopAnalyzer`. The grey and the black marker are the sets of the blocks they have been set on.
-/

namespace CompilerLab.Jit

namespace LoopAnalyzer

open CompilerLab.Lib

/-! ## Back edges -/

/-- The fields of `LoopAnalyzer` while it searches for back edges; `dfsBlocks` holds the entries that have been set. -/
structure State where
  graph : Graph
  grey : Nat → Bool := fun _ => false
  black : Nat → Bool := fun _ => false
  dfsBlocks : List Nat := []
  loops : List Nat := []

/-- `isLoopIrreducible`. -/
def isLoopIrreducible (g : Graph) (header backEdgeSource : Nat) : Bool := !g.dominates header backEdgeSource

/-- `addLoopInfo`. -/
def addLoopInfo (s : State) (header backEdgeSource : Nat) : Option State :=
  match (s.graph.block header).loop with
  | none => do
      let (g, loop) := s.graph.newLoop s.loops.length (some header) (isLoopIrreducible s.graph header backEdgeSource) false
      let g ← g.loopAddBasicBlock loop header
      let g ← g.addBackEdge loop backEdgeSource
      return { s with graph := g, loops := s.loops ++ [loop] }
  | some loop => do
      let g ← s.graph.addBackEdge loop backEdgeSource
      if isLoopIrreducible g header backEdgeSource then
        return { s with graph := g.modifyLoop loop fun x => { x with isIrreducible := true } }
      else return { s with graph := g }

/-- `dfsBackEdgesSearch`. -/
def dfsBackEdgesSearch : Dfs State Nat where
  next s bblock := (s.graph.block bblock).succs
  seen s bblock := s.grey bblock || s.black bblock
  enter s bblock := some { s with grey := Function.update s.grey bblock true }
  again s bblock succ := if s.grey succ then addLoopInfo s succ bblock else some s
  leave s bblock := do
    ASSERT (s.dfsBlocks.length < s.graph.getBasicBlocksCount)
    return { s with
      grey := Function.update s.grey bblock false
      black := Function.update s.black bblock true
      dfsBlocks := s.dfsBlocks ++ [bblock] }

/-- `collectBackEdges`, from the state `resetStructs` makes. -/
def collectBackEdges (g : Graph) : Option State := do
  let s ← dfsBackEdgesSearch.visit (g.blockCount + 1) { graph := g } (← g.firstBlock)
  ASSERT (s.dfsBlocks.length = s.graph.getBasicBlocksCount)
  return s

/-! ## The blocks of the loops -/

/-- What `dfsPopulateLoops` does to a block it comes to. -/
def populate (loop : Nat) (g : Graph) (bblock : Nat) : Option Graph :=
  match (g.block bblock).loop with
  | none => g.loopAddBasicBlock loop bblock
  | some blockLoop =>
    if (g.loop blockLoop).id ≠ (g.loop loop).id ∧ (g.loop blockLoop).outerLoop = none then
      (g.setOuterLoop blockLoop loop).addInnerLoop loop blockLoop
    else some g

/-- `dfsPopulateLoops`. -/
def dfsPopulateLoops (loop : Nat) : Dfs (Graph × (Nat → Bool)) Nat where
  next s bblock := (s.1.block bblock).preds
  seen s bblock := s.2 bblock
  enter s bblock := do
    return (← populate loop s.1 bblock, Function.update s.2 bblock true)

/-- The body of the loop of `populateReducibleLoop`. -/
def populateFrom (loop : Nat) (s : Graph × (Nat → Bool)) (backEdgeSource : Nat) : Option (Graph × (Nat → Bool)) :=
  if s.2 backEdgeSource then some s
  else (dfsPopulateLoops loop).visit (s.1.blockCount + 1) s backEdgeSource

/-- `populateReducibleLoop`. -/
def populateReducibleLoop (g : Graph) (loop : Nat) : Option Graph := do
  let header ← (g.loop loop).header
  let s ← (g.loop loop).backEdges.foldlM (populateFrom loop) (g, Function.update (fun _ => false) header true)
  return s.1

/-- The body of the loop of `populateLoops` over the sources of an irreducible loop. -/
def setLoopIfNone (loop : Nat) (g : Graph) (backEdgeSource : Nat) : Graph :=
  if (g.block backEdgeSource).loop = none then g.modifyBlock backEdgeSource fun x => { x with loop := some loop } else g

/-- The body of the loop of `populateLoops`. -/
def populateLoop (g : Graph) (bblock : Nat) : Option Graph :=
  match (g.block bblock).loop with
  | none => some g
  | some loop =>
    if (g.loop loop).header ≠ some bblock then some g
    else if (g.loop loop).isIrreducible then some ((g.loop loop).backEdges.foldl (setLoopIfNone loop) g)
    else populateReducibleLoop g loop

/-! ## The loop tree -/

/-- The body of the loop of `buildLoopTree`. -/
def addToRoot (rootLoop : Nat) (g : Graph) (bblock : Nat) : Option Graph :=
  match (g.block bblock).loop with
  | none => g.loopAddBasicBlock rootLoop bblock
  | some loop =>
    if (g.loop loop).outerLoop = none then (g.setOuterLoop loop rootLoop).addInnerLoop rootLoop loop
    else some g

/-- `buildLoopTree`. -/
def buildLoopTree (g : Graph) (loops dfsBlocks : List Nat) : Option Graph := do
  let (g, rootLoop) := g.newLoop loops.length none false true
  let g ← dfsBlocks.foldlM (addToRoot rootLoop) g
  return { g with loopTreeRoot := some rootLoop }

/-- `LoopAnalyzer::Run` of a graph with its dominator tree. -/
def analyze (g : Graph) : Option Graph := do
  let s ← collectBackEdges g
  let g ← s.dfsBlocks.foldlM populateLoop s.graph
  buildLoopTree g s.loops s.dfsBlocks

/-- `LoopAnalyzer::Run`; `buildDomTree` is what `DomTreeBuilder::Run` does to a graph. -/
def run (buildDomTree : Graph → Option Graph) (g : Graph) : Option Graph :=
  if g.isEmpty then some g else do analyze (← g.runDomTreeBuilder buildDomTree)

/-- `PassManager::Run<LoopAnalyzer>`. -/
def runLoopAnalyzer (buildDomTree : Graph → Option Graph) (g : Graph) : Option Graph :=
  if g.valid .LOOP_ANALYSIS then some g
  else (run buildDomTree g).map fun g => g.setAnalysisValid .LOOP_ANALYSIS true

end LoopAnalyzer

end CompilerLab.Jit
