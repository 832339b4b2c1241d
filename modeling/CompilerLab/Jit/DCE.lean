import CompilerLab.Jit.Traversals

/-!
# Dead code elimination

`DCEPass`. The marker of the live instructions is the set of the instructions it has been set on.
-/

namespace CompilerLab.Jit

namespace DCE

open CompilerLab.Lib

/-- The recursion of `markAlive`: only an instruction that gets its mark now has its inputs followed. -/
def markAliveInputs (g : Graph) : Dfs (Nat → Bool) (Option Nat) where
  next _ instr := instr.elim [] fun i => if (g.instr i).hasInputs then (g.instr i).inputs else []
  seen alive instr := instr.elim false alive
  enter alive instr := do
    let i ← instr
    return Function.update alive i true

/-- `markAlive`; a null instruction fails its assertion. -/
def markAlive (g : Graph) (alive : Nat → Bool) (instr : Option Nat) : Option (Nat → Bool) :=
  if (markAliveInputs g).seen alive instr then some alive
  else (markAliveInputs g).visit (g.instrCount + 1) alive instr

/-- The first loop of `Run`. -/
def markInstrs (g : Graph) (instrs : List Nat) (alive : Nat → Bool) : Option (Nat → Bool) :=
  instrs.foldlM (fun alive i =>
    if (g.instr i).hasSideEffects then markAlive g alive (some i) else some alive) alive

/-- `deadInstrs` after the second loop of `Run`. -/
def deadInstrs (instrs : List Nat) (alive : Nat → Bool) : List Nat := instrs.filter fun i => !alive i

/-- `removeDead`. -/
def removeDead (g : Graph) (dead : List Nat) : Option Graph :=
  dead.foldlM (fun g i => do g.unlinkInstruction (← (g.instr i).parent) i) g

/-- `DCEPass::Run`, with its result. -/
def run (g : Graph) : Option (Graph × Bool) := do
  let g ← g.runRPO
  let instrs := (← g.getRPO).flatMap g.instrs
  let alive ← markInstrs g instrs fun _ => false
  let dead := deadInstrs instrs alive
  return (← removeDead g dead, !dead.isEmpty)

end DCE

namespace Graph

/-- `i` is an instruction of some block. -/
def Within (g : Graph) (i : Nat) : Prop := ∃ b ∈ g.blocks, i ∈ g.instrs b

/-- `j` is an operand of `i`. -/
def Uses (g : Graph) (i j : Nat) : Prop := (g.instr i).hasInputs = true ∧ some j ∈ (g.instr i).inputs

/-- An instruction with side effects needs `j`, directly or through other instructions. -/
def Needed (g : Graph) (j : Nat) : Prop :=
  ∃ i, g.Within i ∧ (g.instr i).hasSideEffects = true ∧ Relation.ReflTransGen g.Uses i j

end Graph

end CompilerLab.Jit
