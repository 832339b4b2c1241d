import CompilerLab.Jit.GraphOps
import Mathlib.Data.List.Forall2

/-!
# The values a graph computes

A linked instruction computes its value from its operands, at its declared type. What comes from outside (arguments, the
phis of the blocks entered so far, and the outcome of the operations that are not interpreted here) is a parameter.
-/

namespace CompilerLab.Jit

/-- The word of a value of type `t`: zero above the width. -/
def OperandType.norm (t : OperandType) (w : Word) : Word := (t.trunc w).setWidth 64

/-- The values from outside. An uninterpreted operation may do anything with its operands (a call, a load, a division). -/
structure Outside where
  leaf : Nat → Word
  other : Nat → List Word → Word

/-- A value and its type. -/
abbrev Value := OperandType × Word

/-- The operations on one integer type, on words that stand for values of the type. -/
def arith (op : Opcode) (t : OperandType) (imm : Word) : List Word → Option Word
  | [x] =>
      match op with
      | .NOT => some (~~~x)
      | .NEG => some (-x)
      | .ADDI => some (x + imm)
      | _ => none
  | [x, y] =>
      match op with
      | .AND => some (x &&& y)
      | .OR => some (x ||| y)
      | .ADD => some (x + y)
      | .SUB => some (x - y)
      | .SRA => some (((t.trunc x).signExtend 64).sshiftRight y.toNat)
      | _ => none
  | _ => none

namespace Instruction

/-- The value comes from outside: an argument, or a phi by the edge that was taken. -/
def isLeaf (i : Instruction) : Bool := i.opcode == .ARG || i.opcode == .PHI

/-- The operations `arith` interprets. -/
def isArith (i : Instruction) : Bool :=
  i.opcode ∈ [Opcode.NOT, .NEG, .ADDI, .AND, .OR, .ADD, .SUB, .SRA]

/-- The outcome of an operation. The interpreted ones need an integer type, which all operands have: other types go
through a CAST. -/
def result (i : Instruction) (other : List Word → Word) (args : List Value) : Option Word :=
  if i.isConst then some i.value
  else if i.isArith then
    if isIntegerType i.type ∧ ∀ a ∈ args, a.1 = i.type then arith i.opcode i.type i.value (args.map Prod.snd)
    else none
  else some (other (args.map Prod.snd))

end Instruction

namespace Graph

/-- The instruction is in a block. -/
def Linked (g : Graph) (i : Nat) : Prop := (g.instr i).parent ≠ none

instance (g : Graph) (i : Nat) : Decidable (g.Linked i) := inferInstanceAs (Decidable (_ ≠ _))

/-- The value of an instruction, when operands are followed through at most `fuel` instructions. An instruction outside
the blocks is never executed. -/
def eval (g : Graph) (e : Outside) : Nat → Nat → Option Value
  | 0, _ => none
  | n + 1, i =>
      if g.Linked i then
        if (g.instr i).isLeaf then some ((g.instr i).type, (g.instr i).type.norm (e.leaf i))
        else do
          let args ← (g.instr i).inputs.mapM fun a => a.bind (eval g e n)
          let w ← (g.instr i).result (e.other i) args
          return ((g.instr i).type, (g.instr i).type.norm w)
      else none

/-- The instruction computes the value. -/
def Computes (g : Graph) (e : Outside) (i : Nat) (v : Value) : Prop := ∃ n, g.eval e n i = some v

/-- `phi` is a phi of block `b`. -/
def PhiOf (g : Graph) (b phi : Nat) : Prop := (g.instr phi).opcode = .PHI ∧ (g.instr phi).parent = some b

/-- Control enters block `edge.2` from block `edge.1`: the phis of the block take the values of their inputs for the edge,
read before, and the uninterpreted operations may behave in another way from now on. -/
def Enter (g : Graph) (e : Outside) (edge : Nat × Nat) (e' : Outside) : Prop :=
  (∀ phi, g.PhiOf edge.2 phi → ∃ input v,
    g.resolveInput phi edge.1 = some input ∧ g.Computes e input v ∧ e'.leaf phi = v.2) ∧
  ∀ i, ¬ g.PhiOf edge.2 i → e'.leaf i = e.leaf i

end Graph

end CompilerLab.Jit
