import CompilerLab.Language.TreeToAsm

/-!
# Labels

What the lines of the generator do with labels, and what a tree says of them.
-/

namespace CompilerLab.Language

open Options

/-! ## The text -/

/-- Every label that is jumped to is defined once. -/
def JumpsDefined (text : List (Place × Line)) : Prop :=
  ∀ place instruction label, (place, Line.jump instruction label) ∈ text →
    text.countP (fun line => line.2 = Line.label label) = 1

/-- Every comparison stands in a condition, and jumps to a label that the other part of that conditional prints. -/
def OwnLabels (text : List (Place × Line)) : Prop :=
  ∀ place instruction label, (place, Line.jump instruction label) ∈ text → instruction ≠ "jmp" →
    ∃ conditional ∈ place.conditional, ∃ other : Place,
      other.node = conditional ++ [true] ∧ (other, Line.label label) ∈ text

/-- What a line does with a label. -/
inductive LabelUse where
  /-- A comparison in the condition of the conditional jumps to it. -/
  | compared (conditional : Option (List Bool)) (label : String)
  | jumped (label : String)
  | defined (node : List Bool) (label : String)
  deriving DecidableEq, Repr

def labelUse : Place × Line → Option LabelUse
  | (place, .jump instruction label) => some (if instruction = "jmp" then .jumped label else .compared place.conditional label)
  | (place, .label name) => some (.defined place.node name)
  | _ => none

/-! ## The tree -/

/-- The name of a function, where the string at the bits of a number is `env.text`. -/
def functionName (env : Environment) : Values → String
  | .var_name name => name
  | .dbl_val bits => (env.text bits).getD ""
  | .op_val _ => ""

namespace TreeNode

/-- How many comparisons outside of conditions there is code for. -/
def unguarded : TreeNode → Nat
  | null => 0
  | node type value left right =>
      match type, value with
      | .OP_T, .op_val op =>
          match op with
          | .IS_EE | .IS_NE | .IS_BT => left.unguarded + right.unguarded + 1
          | .ST | .FUNC | .ADD | .SUB | .MUL | .DIV | .ELSE => left.unguarded + right.unguarded
          | .CALL | .VAR | .PARAM | .IF => right.unguarded
          | .RET | .IN | .OUT | .SIN | .COS | .SQRT => left.unguarded
          | _ => 0
      | .NAME_T, _ => left.unguarded
      | _, _ => 0

/-- How many conditionals there is code for. -/
def conditionals : TreeNode → Nat
  | node .OP_T (.op_val op) left right =>
      match op with
      | .ST => left.conditionals + right.conditionals
      | .FUNC | .IF => right.conditionals
      | .ELSE => left.conditionals + right.conditionals + 1
      | _ => 0
  | _ => 0

/-- The names of the functions there is code for. -/
def functionNames (env : Environment) : TreeNode → List String
  | node .OP_T (.op_val op) left right =>
      match op with
      | .ST | .ELSE | .FUNC => left.functionNames env ++ right.functionNames env
      | .IF => right.functionNames env
      | _ => []
  | node .NAME_T value _ _ => [functionName env value]
  | _ => []

/-- Of each comparison there is code for, how many conditionals come before it, with `n` before the tree. -/
def comparedAt : TreeNode → Nat → List Nat
  | node .OP_T (.op_val op) left right, n =>
      match op with
      | .ST => left.comparedAt n ++ right.comparedAt (n + left.conditionals)
      | .FUNC => List.replicate left.unguarded n ++ right.comparedAt n
      | .IF => List.replicate left.unguarded n ++ right.comparedAt n
      | .ELSE => left.comparedAt (n + 1) ++ right.comparedAt (n + 1 + left.conditionals)
      | op => List.replicate (node .OP_T (.op_val op) left right).unguarded n
  | _, _ => []

/-- What the lines printed for the tree do with labels, with the counter at `n`. -/
def labelUses (env : Environment) : TreeNode → Place → Nat → List LabelUse
  | node .OP_T (.op_val op) left right, place, n =>
      match op with
      | .ST => left.labelUses env place.left n ++ right.labelUses env place.right (n + left.conditionals)
      | .FUNC => left.labelUses env place.inside.left n ++ right.labelUses env place.inside.right n
      | .IF =>
          List.replicate left.unguarded (.compared (some place.node) (ifLabel n)) ++ right.labelUses env place.right n
      | .ELSE =>
          left.labelUses env place.left (n + 1) ++
            ([.jumped (elseLabel n), .defined place.node (ifLabel n)] ++
              (right.labelUses env place.right (n + 1 + left.conditionals) ++ [.defined place.node (elseLabel n)]))
      | op => List.replicate (node .OP_T (.op_val op) left right).unguarded (.compared place.conditional (ifLabel n))
  | node .NAME_T value left _, place, n =>
      .defined place.node (functionName env value) :: List.replicate left.unguarded (.compared place.conditional (ifLabel n))
  | _, _, _ => []

/-- No function is named as the label behind a conditional, or as the false label of a conditional that is compared for. -/
def NamesApart (env : Environment) (root : TreeNode) : Prop :=
  ∀ name ∈ root.functionNames env, ∀ k < root.conditionals, name ≠ elseLabel k ∧ (k ∈ root.comparedAt 0 → name ≠ ifLabel k)

end TreeNode

end CompilerLab.Language
