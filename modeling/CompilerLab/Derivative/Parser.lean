import CompilerLab.Derivative.Lexer

/-!
# The parser

The recursive descent from `GetGrammar`. Tokens are looked up by their index; an index behind the last token written, and
the end of a function without its value, is `none`.
-/

namespace CompilerLab.Derivative

open CompilerLab.Lib

/-- The numbers of a tree are the bits of doubles. -/
abbrev Tree : Type := TreeNode (BitVec 64)

open TreeNode

/-- `GetOperationNode`. -/
def getOperationNode (child_node : Tree) : Option Operations → Tree
  | some .SIN => SIN null child_node
  | some .COS => COS null child_node
  | some .LN => LN null child_node
  | _ => null

section
variable (tokens : List Token)

/-- `GetNumber`. -/
def getNumber (cur_token_id : Nat) : Option (Tree × Nat) := do
  let token ← tokens[cur_token_id]?
  match token.type with
  | .NUM_T => return (GET_DIGIT token.value, cur_token_id + 1)
  | .VAR_T => return (var token.name, cur_token_id + 1)
  | .OP_T => return (null, cur_token_id + 1)

/-- The loop of `GetExpression`, `GetMlt` and `GetPower` with the operations of the level. -/
def operationLoop (level : List Operations) (operand : Nat → Option (Tree × Nat)) : Nat → Tree → Nat → Option (Tree × Nat)
  | 0, _, _ => none
  | fuel + 1, top_operation_node, cur_token_id => do
      let token ← tokens[cur_token_id]?
      match token.op_val with
      | some last_op =>
          if last_op ∈ level then
            let (right_node, cur_token_id) ← operand (cur_token_id + 1)
            operationLoop level operand fuel (op last_op top_operation_node right_node) cur_token_id
          else return (top_operation_node, cur_token_id)
      | none => return (top_operation_node, cur_token_id)

/-- The operands of the level and the operations between them. -/
def getLevel (level : List Operations) (operand : Nat → Option (Tree × Nat)) (fuel cur_token_id : Nat) :
    Option (Tree × Nat) := do
  let (top_operation_node, cur_token_id) ← operand cur_token_id
  operationLoop tokens level operand fuel top_operation_node cur_token_id

section
variable (bracketExp : Nat → Option (Tree × Nat)) (fuel : Nat)

/-- `GetPower`. -/
def getPower : Nat → Option (Tree × Nat) := getLevel tokens [.POW] bracketExp fuel

/-- `GetMlt`. -/
def getMlt : Nat → Option (Tree × Nat) := getLevel tokens [.MUL, .DIV] (getPower tokens bracketExp fuel) fuel

/-- `GetExpression`. -/
def getExpression : Nat → Option (Tree × Nat) := getLevel tokens [.ADD, .SUB] (getMlt tokens bracketExp fuel) fuel

end

/-- `GetBracketExp`. -/
def getBracketExp : Nat → Nat → Option (Tree × Nat)
  | 0, _ => none
  | fuel + 1, cur_token_id => do
      let token ← tokens[cur_token_id]?
      if token.op_val = some .OPEN_BR then
        let (sub_node, cur_token_id) ← getExpression tokens (getBracketExp fuel) fuel (cur_token_id + 1)
        let close ← tokens[cur_token_id]?
        if close.op_val = some .CLOSE_BR then return (sub_node, cur_token_id + 1) else none
      else if token.type = .OP_T then
        let (sub_node, cur_token_id) ← getExpression tokens (getBracketExp fuel) fuel (cur_token_id + 2)
        let close ← tokens[cur_token_id]?
        if close.op_val = some .CLOSE_BR then return (getOperationNode sub_node token.op_val, cur_token_id + 1) else none
      else getNumber tokens cur_token_id

end

/-- `GetGrammar` for the line it reads: the root, and the token at which the parser has stopped. -/
def getGrammar (env : Environment) (fuel : Nat) (input : List Char) : Option (Tree × Token) := do
  let token_array ← fillTokensArray env fuel 0 input
  let (root, cur_token_id) ← getExpression token_array (getBracketExp token_array fuel) fuel 0
  let token ← token_array[cur_token_id]?
  return (root, token)

end CompilerLab.Derivative
