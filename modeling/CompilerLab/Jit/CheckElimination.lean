import CompilerLab.Jit.GraphChecker

/-!
# Check elimination

`CheckElimination` removes the checks that come after an equal check on every path to them.
-/

namespace CompilerLab.Jit

namespace Graph

/-! ## Dominance between instructions -/

/-- `isEarlierInBasicBlock`; `none` when an assertion fails or neither instruction is met. -/
def isEarlierInBasicBlock (g : Graph) (i other : Nat) : Option Bool := do
  let bblock ← (g.instr i).parent
  ASSERT ((g.instr other).parent = some bblock)
  let first ← (g.instrs bblock).find? fun instr => instr == i || instr == other
  return first == i

/-- `InstructionBase::Dominates`. -/
def instrDominates (g : Graph) (i other : Nat) : Option Bool :=
  if other = i then some true
  else if (g.instr other).parent = (g.instr i).parent then g.isEarlierInBasicBlock i other
  else do
    let bblock ← (g.instr i).parent
    let otherBlock ← (g.instr other).parent
    return g.dominates bblock otherBlock

end Graph

namespace CheckElimination

open Graph

/-! ## One check -/

/-- The body of the loop over the users of the checked value. `same` compares the other operand. -/
def removeUser (check : Nat) (same : Graph → Nat → Option Bool) (s : Graph × Bool) (user : Nat) :
    Option (Graph × Bool) := do
  let (g, removed) := s
  if user ≠ check ∧ (g.instr user).opcode = (g.instr check).opcode then
    if ← g.instrDominates check user then
      if ← same g user then
        let bblock ← (g.instr user).parent
        return (← g.unlinkInstruction bblock user, true)
      else return (g, removed)
    else return (g, removed)
  else return (g, removed)

/-- `singleInputCheckDominates`. -/
def singleInputCheckDominates (g : Graph) (check checkedValue : Nat) : Option (Graph × Bool) := do
  ASSERT ((g.instr check).inputs.length = 1)
  (g.instr checkedValue).users.foldlM (removeUser check fun _ _ => some true) (g, false)

/-- What `boundsCheckDominates` asks of a user of the reference. -/
def sameBounds (ref idx : Nat) (g : Graph) (user : Nat) : Option Bool := do
  ASSERT ((g.instr user).hasInputs = true)
  ASSERT (g.getInput user 0 = some ref)
  ASSERT (1 < (g.instr user).inputs.length)
  return g.getInput user 1 == some idx

/-- `boundsCheckDominates`. -/
def boundsCheckDominates (g : Graph) (check ref idx : Nat) : Option (Graph × Bool) := do
  ASSERT ((g.instr check).inputs.length = 2)
  (g.instr ref).users.foldlM (removeUser check (sameBounds ref idx)) (g, false)

/-- `tryRemoveCheck`. -/
def tryRemoveCheck (g : Graph) (instr : Nat) : Option (Graph × Bool) :=
  match (g.instr instr).opcode with
  | .NULL_CHECK => do
      ASSERT ((g.instr instr).hasInputs = true)
      ASSERT ((g.instr instr).inputs.length = 1)
      let input ← g.getInput instr 0
      ASSERT ((g.instr input).type = .REF)
      singleInputCheckDominates g instr input
  | .ZERO_CHECK | .NEGATIVE_CHECK => do
      ASSERT ((g.instr instr).hasInputs = true)
      ASSERT ((g.instr instr).inputs.length = 1)
      let input ← g.getInput instr 0
      ASSERT (isIntegerType (g.instr input).type = true)
      singleInputCheckDominates g instr input
  | .BOUNDS_CHECK => do
      ASSERT ((g.instr instr).hasInputs = true)
      ASSERT ((g.instr instr).inputs.length = 2)
      let ref ← g.getInput instr 0
      let idx ← g.getInput instr 1
      ASSERT ((g.instr ref).type = .REF)
      ASSERT (isIntegerType (g.instr idx).type = true)
      boundsCheckDominates g instr ref idx
  | _ => some (g, false)

/-! ## The pass -/

/-- `for (auto *current : bblock->IterateNonPhi())` from `cur` on: the next instruction is read after the body has run. -/
def removeFrom : Nat → Graph × Bool → Option Nat → Option (Graph × Bool)
  | _, s, none => some s
  | 0, _, some _ => none
  | n + 1, (g, removed), some current => do
      let (g, r) ← tryRemoveCheck g current
      removeFrom n (g, removed || r) (g.instr current).next

/-- The body of the loop of `Run` over the blocks. -/
def removeInBlock (s : Graph × Bool) (bblock : Nat) : Option (Graph × Bool) :=
  removeFrom s.1.instrCount s (s.1.block bblock).firstInst

/-- `Run` as far as its loops go; `buildDomTree` is what `DomTreeBuilder::Run` does to a graph. -/
def removeChecks (buildDomTree : Graph → Option Graph) (g : Graph) : Option (Graph × Bool) := do
  let g ← g.runRPO
  let g ← if g.valid .DOM_TREE then some g
    else (buildDomTree g).map fun g => g.setAnalysisValid .DOM_TREE true
  (← g.getRPO).foldlM removeInBlock (g, false)

/-- `PassManager::Run<CheckElimination>`. -/
def run (buildDomTree : Graph → Option Graph) (g : Graph) : Option (Graph × Bool) := do
  let (g, removed) ← removeChecks buildDomTree g
  if removed then
    g.runGraphChecker
  return (g, removed)

end CheckElimination

end CompilerLab.Jit
