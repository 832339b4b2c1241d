import CompilerLab.Jit.BasicBlock
import CompilerLab.Lib.Run

/-!
# Editing the instruction list of a block

The operations of `BasicBlock` on its list, and what the list is to be after any sequence of them.
-/

namespace CompilerLab.Jit.Graph

/-! ## Walking backwards -/

/-- The instructions met by following the `prev` links from `cur`. -/
def walkBack (g : Graph) : Nat → Option Nat → List Nat
  | _, none => []
  | 0, some _ => []
  | n + 1, some i => i :: walkBack g n (g.instr i).prev

/-- The last instruction of a block, or its last phi. -/
def endInstr (g : Graph) (b : Nat) : Option Nat := (g.block b).lastInst <|> (g.block b).lastPhi

/-- What the list of a block promises. Both walks come to an end, whatever room they are given. -/
structure WellLinked (g : Graph) (b : Nat) : Prop where
  forward : ∀ n, g.instrCount ≤ n → g.walk n (g.beginInstr b) = g.instrs b
  backward : ∀ n, g.instrCount ≤ n → g.walkBack n (g.endInstr b) = (g.instrs b).reverse
  phisFirst : ∀ i ∈ g.insts b, (g.instr i).isPhi = false
  firstPhi : (g.block b).firstPhi = (g.phis b).head?
  lastPhi : (g.block b).lastPhi = (g.phis b).getLast?
  firstInst : (g.block b).firstInst = (g.insts b).head?
  lastInst : (g.block b).lastInst = (g.insts b).getLast?
  count : (g.block b).instrsCount = (g.instrs b).length

/-! ## The operations -/

inductive ListOp where
  | pushForward (b target : Nat)
  | pushBack (b target : Nat)
  | insertBefore (b before target : Nat)
  | insertAfter (b after target : Nat)
  | unlink (b target : Nat)
  | replace (b prevInstr newInstr : Nat)
  deriving DecidableEq, Repr

namespace ListOp

def apply (g : Graph) : ListOp → Option Graph
  | pushForward b target => g.pushForwardInstruction b target
  | pushBack b target => g.pushBackInstruction b target
  | insertBefore b before target => g.insertBefore b before target
  | insertAfter b after target => g.insertAfter b after target
  | unlink b target => g.unlinkInstruction b target
  | replace b prevInstr newInstr => g.replaceInstruction b prevInstr newInstr

/-- The instruction that is put into a list or taken out. -/
def instr : ListOp → Nat
  | pushForward _ target | pushBack _ target | insertBefore _ _ target | insertAfter _ _ target | unlink _ target => target
  | replace _ _ newInstr => newInstr

/-- An operation on an instruction that exists. -/
def Step (g : Graph) (op : ListOp) (g' : Graph) : Prop := op.instr < g.instrCount ∧ op.apply g = some g'

/-- The operation does not work across the border of the two segments: `PushForwardInstruction` does not link a first
instruction with the phis before it, and the insertions next to an instruction leave `firstInst` and the order of the
segments to the caller. -/
def KeepsSegments (g : Graph) : ListOp → Prop
  | pushForward b target =>
      (g.instr target).isPhi = true ∨ (g.block b).firstPhi = none ∨ (g.block b).firstInst = none
  | pushBack _ _ => True
  | insertBefore b before _ =>
      (g.instr before).isPhi = false ∧ ((g.block b).firstInst = some before → (g.block b).firstPhi = none)
  | insertAfter _ after _ => (g.instr after).isPhi = false
  | unlink _ _ => True
  | replace _ prevInstr _ =>
      (∀ p, (g.instr prevInstr).prev = some p → (g.instr p).isPhi = false) ∧
        ((g.instr prevInstr).prev = none → (g.instr prevInstr).next ≠ none → (g.instr prevInstr).isPhi = false)

end ListOp

end CompilerLab.Jit.Graph
