import Mathlib.Algebra.Ring.Defs
import CompilerLab.Lib.Elementary

/-!
# Expression trees

The trees of the derivative calculator and `GetDerivative`. A null pointer is `null`; reading through one, and a failed
assertion, is `none`.
-/

namespace CompilerLab.Derivative

open CompilerLab.Lib

/-- `Operations`. -/
inductive Operations where
  | UNKNOWN | ADD | SUB | DIV | MUL | SQR | POW | SIN | COS | TG | CTG | ARCCOS | ARCSIN | LN | LOG
  | OPEN_BR | CLOSE_BR | TERMINATION_SYM
  deriving DecidableEq, Repr

/-- `TreeNode*`: the type of a node says which member of `Values` is set. `α` are the numbers, `parent` is never set. -/
inductive TreeNode (α : Type*) where
  | null
  | num (dbl_val : α)
  | var (var_name : List Char)
  | op (op_val : Operations) (left right : TreeNode α)
  deriving DecidableEq, Repr

namespace TreeNode

variable {α : Type*}

/-- `CopyNode`; the children of the copy are those of the node. -/
def copyNode : TreeNode α → Option (TreeNode α)
  | null => none
  | node => some node

/-! ## The macros of `dsl.h` -/

/-- `GET_DIGIT`, which is `CreateDigitNode`. -/
def GET_DIGIT (dbl_val : α) : TreeNode α := num dbl_val

/-- `ADD`. -/
def ADD (l r : TreeNode α) : TreeNode α := op .ADD l r
/-- `SUB`. -/
def SUB (l r : TreeNode α) : TreeNode α := op .SUB l r
/-- `MUL`. -/
def MUL (l r : TreeNode α) : TreeNode α := op .MUL l r
/-- `DIV`. -/
def DIV (l r : TreeNode α) : TreeNode α := op .DIV l r
/-- `SIN`. -/
def SIN (l r : TreeNode α) : TreeNode α := op .SIN l r
/-- `COS`. -/
def COS (l r : TreeNode α) : TreeNode α := op .COS l r
/-- `LN`. -/
def LN (l r : TreeNode α) : TreeNode α := op .LN l r
/-- `POW`. -/
def POW (l r : TreeNode α) : TreeNode α := op .POW l r

/-! ## The derivative -/

/-- `GetDerivative (cur_node, false)`: the derivative without the report, for which `PrintBranch` would simplify the tree. -/
def getDerivative [Ring α] : TreeNode α → Option (TreeNode α)
  | null => none
  | num _ => some (num 0)
  | var _ => some (num 1)
  | op o left right =>
      let DL := getDerivative left
      let DR := getDerivative right
      let CL := copyNode left
      let CR := copyNode right
      match o with
      | .ADD => do return ADD (← DL) (← DR)
      | .SUB => do return SUB (← DL) (← DR)
      | .MUL => do return ADD (MUL (← DL) (← CR)) (MUL (← CL) (← DR))
      | .DIV => do return DIV (SUB (MUL (← DL) (← CR)) (MUL (← CL) (← DR))) (MUL (← CR) (← CR))
      | .SIN => do return MUL (COS null (← CR)) (← DR)
      | .COS => do return MUL (MUL (GET_DIGIT (-1)) (SIN null (← CR))) (← DR)
      | .LN => do return MUL (DIV (GET_DIGIT 1) (← CR)) (← DR)
      | .TG => do return MUL (DIV (GET_DIGIT 1) (POW (COS null (← CR)) (GET_DIGIT 2))) (← DR)
      | .CTG => do return MUL (MUL (DIV (GET_DIGIT 1) (POW (SIN null (← CR)) (GET_DIGIT 2))) (← DR)) (GET_DIGIT (-1))
      | .POW =>
          match right with
          | null => none
          | num dbl => do return MUL (MUL (GET_DIGIT dbl) (POW (← CL) (GET_DIGIT (dbl - 1)))) (← DL)
          -- there is no `break` before the next case
          | _ => some null
      | _ => some null

/-! ## The value -/

variable {𝕜 : Type*} [NontriviallyNormedField 𝕜] (E : Elementary 𝕜)

/-- `CalcOneOp` in exact arithmetic. -/
def calcOneOp (val1 val2 : 𝕜) : Operations → 𝕜
  | .ADD => val1 + val2
  | .SUB => val1 - val2
  | .DIV => val1 / val2
  | .MUL => val1 * val2
  | .POW => E.pow val1 val2
  | .SIN => E.sin val2
  | .COS => E.cos val2
  | .TG => E.sin val2 / E.cos val2
  | .CTG => E.cos val2 / E.sin val2
  | .LN => E.ln val2
  | .LOG => E.ln val2 / E.ln val1
  | _ => 0

/-- The value `CalcTree` takes for a child, at the value `val` of the variable. -/
def value : TreeNode 𝕜 → 𝕜 → 𝕜
  | null, _ => 0
  | num dbl, _ => dbl
  | var _, val => val
  | op o left right, val => calcOneOp E (value left val) (value right val) o

/-- `CalcTree`: a tree that is no operation has the value 0. -/
def calcTree : TreeNode 𝕜 → 𝕜 → 𝕜
  | op o left right, val => calcOneOp E (value E left val) (value E right val) o
  | _, _ => 0

end TreeNode

end CompilerLab.Derivative
