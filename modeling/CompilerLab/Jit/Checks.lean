import CompilerLab.Jit.GraphOps

/-!
# What checks do

A check stops the program when its operands are bad, and does nothing otherwise.
-/

namespace CompilerLab.Jit

/-- The four kinds of checks. -/
def Instruction.isCheck (i : Instruction) : Bool :=
  i.opcode == .NULL_CHECK || i.opcode == .ZERO_CHECK || i.opcode == .NEGATIVE_CHECK || i.opcode == .BOUNDS_CHECK

/-- What runs a graph along a path. Executing an instruction changes no value but its own; the state may hold anything
else, such as the way control has come. -/
structure Machine where
  State : Type
  Value : Type
  val : State → Nat → Value
  exec : State → Nat → State
  frame : ∀ s i j, j ≠ i → val (exec s i) j = val s j
  bad : Opcode → List (Option Value) → Bool

namespace Graph

/-- The values of the operands of `i`. -/
def operands (g : Graph) (m : Machine) (s : m.State) (i : Nat) : List (Option m.Value) :=
  (g.instr i).inputs.map (Option.map (m.val s))

/-- The first check that fails in a sequence of instructions, with the values of its operands. -/
def firstFailing (g : Graph) (m : Machine) : m.State → List Nat → Option (Nat × List (Option m.Value))
  | _, [] => none
  | s, i :: is =>
    if (g.instr i).isCheck then
      if m.bad (g.instr i).opcode (g.operands m s i) then some (i, g.operands m s i)
      else g.firstFailing m s is
    else g.firstFailing m (m.exec s i) is

end Graph

end CompilerLab.Jit
