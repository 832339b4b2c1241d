import CompilerLab.Language.TreeToAsm

/-!
# Variables

The slots the generator prints for names, and what a tree says of the names there are at each of its nodes.
-/

namespace CompilerLab.Language

open Options

/-! ## The text -/

/-- The lines of the declaration at the node, without those of declarations in it; outside of all declarations `none`. -/
def linesOf (function : Option (List Bool)) (text : List (Place × Line)) : List Line :=
  (text.filter fun line => line.1.function = function).map Prod.snd

/-- In a function a name has one slot, a slot belongs to one name, and none is the invalid one. -/
def SlotsAgree (text : List (Place × Line)) : Prop :=
  ∀ function : List Bool, ∀ instruction name slot, .variable instruction name slot ∈ linesOf (some function) text →
    slot ≠ -1 ∧ ∀ instruction' name' slot', .variable instruction' name' slot' ∈ linesOf (some function) text →
      (name = name' ↔ slot = slot')

/-- Where a function moves `rax` for a call, the new frame is behind the slots of all variables it has by then. -/
def FramesClear (text : List (Place × Line)) : Prop :=
  ∀ function : List Bool, ∀ before after amount, linesOf (some function) text = before ++ .shift "add" amount :: after →
    ∀ name slot, .introduce name slot ∈ before → slot < amount

/-! ## The tree -/

/-- The names with one more, where it is new. -/
def addName (names : List String) (name : String) : List String := if name ∈ names then names else names ++ [name]

namespace TreeNode

/-- The name a node holds. -/
def name : TreeNode → String
  | node _ (.var_name name) _ _ => name
  | _ => ""

/-- The names of the function behind the tree. -/
def namesAfter : TreeNode → List String → List String
  | null, names => names
  | node type value left right, names =>
      match type, value with
      | .OP_T, .op_val op =>
          match op with
          | .ST | .ADD | .MUL | .IS_EE | .IS_NE | .IF | .ELSE => right.namesAfter (left.namesAfter names)
          | .SUB | .DIV | .IS_BT => left.namesAfter (right.namesAfter names)
          | .RET | .IN | .OUT | .SIN | .COS | .SQRT => left.namesAfter names
          | .CALL => right.namesAfter names
          | .VAR | .PARAM => right.namesAfter (addName names left.name)
          | _ => names
      | .NAME_T, _ => left.namesAfter names
      | .VAR_T, .var_name name => addName names name
      | _, _ => names

/-- The parameters of a call in a function add at most one name. -/
def CallsFit : TreeNode → Bool → List String → Prop
  | null, _, _ => True
  | node type value left right, inFunction, names =>
      match type, value with
      | .OP_T, .op_val op =>
          match op with
          | .ST | .ADD | .MUL | .IS_EE | .IS_NE | .IF | .ELSE =>
              left.CallsFit inFunction names ∧ right.CallsFit inFunction (left.namesAfter names)
          | .SUB | .DIV | .IS_BT => right.CallsFit inFunction names ∧ left.CallsFit inFunction (right.namesAfter names)
          | .RET | .IN | .OUT | .SIN | .COS | .SQRT => left.CallsFit inFunction names
          | .CALL => right.CallsFit inFunction names ∧ (inFunction → (right.namesAfter names).length ≤ names.length + 1)
          | .VAR | .PARAM => right.CallsFit inFunction (addName names left.name)
          | .FUNC => left.CallsFit true [] ∧ right.CallsFit true (left.namesAfter [])
          | _ => True
      | .NAME_T, _ => left.CallsFit inFunction names
      | _, _ => True

/-- A function has room for its names before one that is declared in it. -/
def DeclarationsFit : TreeNode → Bool → List String → Prop
  | node .OP_T (.op_val op) left right, inFunction, names =>
      match op with
      | .ST | .IF | .ELSE => left.DeclarationsFit inFunction names ∧ right.DeclarationsFit inFunction (left.namesAfter names)
      | .FUNC => (inFunction → names.length ≤ MAX_VARIABLES) ∧ right.DeclarationsFit true (left.namesAfter [])
      | _ => True
  | _, _, _ => True

end TreeNode

end CompilerLab.Language
