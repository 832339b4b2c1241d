import CompilerLab.Jit.GraphOps

/-!
# Inlining

How `InliningPass` binds the arguments of a call: by the position of the ARG instructions in the first block of the callee.
-/

namespace CompilerLab.Jit.Inlining

/-- The loop of `propagateArguments` over the inputs of the call. The arguments are instructions of the caller. -/
def bindArguments (g : Graph) (argInstr : Option Nat) : List (Option Nat) → Option Graph
  | [] => some g
  | arg :: args => do
      let i ← argInstr
      ASSERT ((g.instr i).opcode = .ARG)
      let nextInstr := (g.instr i).next
      let g ← g.replaceInputInUsers i (← arg)
      bindArguments g nextInstr args

/-- `propagateArguments` of a call with the given inputs to the callee `g`. -/
def propagateArguments (g : Graph) (inputs : List (Option Nat)) : Option Graph := do
  let bblock ← g.firstBlock
  bindArguments g (g.block bblock).firstInst inputs

end CompilerLab.Jit.Inlining
