import CompilerLab.Jit.Traversals

/-!
# The graph checker

`GraphChecker` fails on a graph that is not put together as it should be, and leaves every graph as it is.
-/

namespace CompilerLab.Jit.Graph

/-- `VerifyPhiBasicBlocks`. -/
def verifyPhiBasicBlocks (g : Graph) (phi : Nat) : Option Unit := do
  let bblock ← (g.instr phi).parent
  let preds := (g.block bblock).preds
  let sources := (g.instr phi).sourceBBlocks
  ASSERT (sources.length = (g.instr phi).inputs.length)
  ASSERT (sources.length = preds.length)
  ASSERT (∀ pred ∈ preds, pred ∈ sources)
  ASSERT (∀ idx < sources.length, ∃ pred ∈ preds, sources.idxOf pred = idx)

/-- `verifyBlockStructure`. -/
def verifyBlockStructure (g : Graph) (bblock instr : Nat) : Option Unit := do
  match (g.block bblock).firstPhi with
  | some firstPhi => ASSERT (instr ≠ firstPhi → (g.instr instr).prev ≠ none)
  | none => ASSERT ((g.block bblock).firstInst ≠ some instr → (g.instr instr).prev ≠ none)
  if (g.block bblock).lastInst = some instr ∨
      (g.block bblock).lastInst = none ∧ (g.block bblock).lastPhi = some instr then
    ASSERT ((g.instr instr).next = none)
  else
    ASSERT ((g.instr instr).next ≠ none)

/-- The loop of `verifyDFG` over the inputs; it ends at the first input that has `instr` among its users. -/
def findAsUser (g : Graph) (instr bblock : Nat) : List (Option Nat) → Option Bool
  | [] => some false
  | input :: inputs => do
      let input ← input
      let inputBlock ← (g.instr input).parent
      ASSERT ((g.block inputBlock).inGraph = (g.block bblock).inGraph)
      if instr ∈ (g.instr input).users then return true
      else g.findAsUser instr bblock inputs

/-- `verifyDFG`. -/
def verifyDFG (g : Graph) (instr : Nat) : Option Unit := do
  if (g.instr instr).hasInputs then
    let bblock ← (g.instr instr).parent
    let found ← g.findAsUser instr bblock (g.instr instr).inputs
    ASSERT (found = true)
  ASSERT (∀ user ∈ (g.instr instr).users, (g.instr user).hasInputs = true ∧ (g.instr user).inputs.contains (some instr) = true)

/-- What `VerifyControlAndDataFlowGraphs` checks of one instruction. -/
def verifyInstruction (g : Graph) (bblock instr : Nat) : Option Unit := do
  if g.firstBlock ≠ some bblock then
    ASSERT ((g.instr instr).isConst = false ∧ (g.instr instr).opcode ≠ .ARG)
  g.verifyBlockStructure bblock instr
  if (g.instr instr).isPhi then
    g.verifyPhiBasicBlocks instr
  g.verifyDFG instr

/-- The loop of `VerifyControlAndDataFlowGraphs`, with its counter. -/
def verifyFrom (g : Graph) (bblock : Nat) : Nat → Option Nat → Nat → Option Nat
  | _, none, counter => some counter
  | 0, some _, _ => none
  | n + 1, some instr, counter => do
      g.verifyInstruction bblock instr
      g.verifyFrom bblock n (g.instr instr).next (counter + 1)

/-- `VerifyControlAndDataFlowGraphs`. -/
def verifyControlAndDataFlowGraphs (g : Graph) (bblock : Nat) : Option Unit :=
  match g.beginInstr bblock with
  | none => do
      ASSERT ((g.block bblock).lastPhi = none)
      ASSERT ((g.block bblock).lastInst = none)
  | some instr => do
      let counter ← g.verifyFrom bblock g.instrCount (some instr) 0
      ASSERT ((g.block bblock).instrsCount = counter)

/-- `VerifyFirstBlock`: the arguments come before the constants, and nothing else is there. -/
def verifyFirstBlock (g : Graph) : Option Unit :=
  match g.firstBlock with
  | none => some ()
  | some first => do
      ASSERT ((g.block first).firstPhi = none)
      ASSERT ((g.block first).lastPhi = none)
      let _ ← (g.instrs first).foldlM (fun foundConst instr =>
        if (g.instr instr).isConst then some true
        else do
          ASSERT ((g.instr instr).opcode = .ARG)
          ASSERT (foundConst = false)
          return foundConst) false

/-- `PassManager::Run<GraphChecker>`. -/
def runGraphChecker (g : Graph) : Option Unit := do
  g.blocks.forM g.verifyControlAndDataFlowGraphs
  let _ ← g.traverse true
  g.verifyFirstBlock

end CompilerLab.Jit.Graph
