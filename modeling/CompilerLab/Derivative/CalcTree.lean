import CompilerLab.Derivative.Tree

/-!
# Evaluation

`CalcTree` with the operations as a parameter, and the values `PrintMacloren` prints. A failed assertion is `none`.
-/

namespace CompilerLab.Derivative

open TreeNode

variable {α : Type*}

section
variable [Zero α] (CalcOneOp : α → α → Operations → α)

/-- `CalcTree`. -/
def calcTree : TreeNode α → α → Option α
  | null, _ => none
  | op o left right, val => do
    let left_val ←
      match left with
      | null => some 0
      | op o' l r => calcTree (op o' l r) val
      | var _ => some val
      | num dbl => some dbl
    let right_val ←
      match right with
      | null => some 0
      | op o' l r => calcTree (op o' l r) val
      | var _ => some val
      | num dbl => some dbl
    return CalcOneOp left_val right_val o
  | _, _ => some 0

/-- The structural value of a tree; a missing operand counts as zero. -/
def TreeNode.valueAt : TreeNode α → α → α
  | null, _ => 0
  | num dbl, _ => dbl
  | var _, val => val
  | op o left right, val => CalcOneOp (left.valueAt val) (right.valueAt val) o

def TreeNode.isOp : TreeNode α → Bool
  | op _ _ _ => true
  | _ => false

end

section
variable [Ring α] (CalcOneOp : α → α → Operations → α)

/-- The loop of `PrintMacloren` for the given number of derivatives: what it prints, from the tree on. -/
def printMacloren : Nat → TreeNode α → Option (List α)
  | 0, _ => some []
  | steps + 1, cur_der => do
    let value ← calcTree CalcOneOp cur_der 0
    let next ← getDerivative cur_der
    return value :: (← printMacloren steps next)

/-- The tree and its derivatives one after the other, when `GetDerivative` finds each of them. -/
def derivatives : Nat → TreeNode α → Option (List (TreeNode α))
  | 0, _ => some []
  | steps + 1, cur_der => do
    let next ← getDerivative cur_der
    return cur_der :: (← derivatives steps next)

end

end CompilerLab.Derivative
