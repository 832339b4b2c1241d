import CompilerLab.Language.Params

/-!
# The frontend parser

The recursive descent from `GetGrammar` over an array of tokens. A parser takes the index of the current token, and gives the
tree with the index of the next one. A call that is still running when the fuel is used up is `diverges`.
-/

namespace CompilerLab.Language

open Options TreeNode

/-- What keeps a parser from returning a tree. -/
inductive Fault where
  | diverges
  /-- A token behind the end of the array is read. -/
  | pastEnd
  /-- The type of a node that is not there is set. -/
  | nullDereference
  /-- The end of a function is reached without its value. -/
  | noValue
  deriving DecidableEq, Repr

abbrev Result : Type := Except Fault (TreeNode × Nat)

/-- `name_node->type = type`. -/
def setType (type : Types) : TreeNode → Except Fault TreeNode
  | null => .error .nullDereference
  | node _ value left right => .ok (node type value left right)

/-- `name_node->left = left`. -/
def setLeft (left : TreeNode) : TreeNode → Except Fault TreeNode
  | null => .error .nullDereference
  | node type value _ right => .ok (node type value left right)

section
variable (token_array : List Token)

/-- `CUR_TOKEN`. -/
def curToken (cur_token_id : Nat) : Except Fault Token :=
  match token_array[cur_token_id]? with
  | some token => .ok token
  | none => .error .pastEnd

/-! ## Expressions -/

/-- `GetNumOrName`. -/
def getNumOrName (cur_token_id : Nat) : Result := do
  let token ← curToken token_array cur_token_id
  if token.type = .NUM_T then return (DIGIT_NODE token.value, cur_token_id + 1)
  else if token.type = .VAR_T then return (VAR_NODE token.name, cur_token_id + 1)
  else return (null, cur_token_id)

/-- The loop of `GetAddSub`, `GetMlt` and `GetPower` with the operators of the level. -/
def operationLoop (level : List Options) (operand : Nat → Result) : Nat → TreeNode → Nat → Result
  | 0, _, _ => .error .diverges
  | fuel + 1, top_operation_node, cur_token_id => do
      let token ← curToken token_array cur_token_id
      match level.find? (fun op => token.op_val = some op) with
      | some last_op =>
          let (right_node, cur_token_id) ← operand (cur_token_id + 1)
          operationLoop level operand fuel (OP_NODE last_op top_operation_node right_node) cur_token_id
      | none => return (top_operation_node, cur_token_id)

/-- The operands of the level and the operators between them. -/
def getLevel (level : List Options) (operand : Nat → Result) (fuel cur_token_id : Nat) : Result := do
  let (top_operation_node, cur_token_id) ← operand cur_token_id
  operationLoop token_array level operand fuel top_operation_node cur_token_id

/-- The operators `GetExpression` takes between its operands. -/
def comparisons : List Options := [EQ, IS_EE, IS_GE, IS_BE, IS_GT, IS_BT, IS_NE]

section
variable (bracketExp : Nat → Result) (fuel : Nat)

/-- `GetPower`. -/
def getPower : Nat → Result := getLevel token_array [POW] bracketExp fuel

/-- `GetMlt`. -/
def getMlt : Nat → Result := getLevel token_array [MUL, DIV] (getPower token_array bracketExp fuel) fuel

/-- `GetAddSub`. -/
def getAddSub : Nat → Result := getLevel token_array [ADD, SUB] (getMlt token_array bracketExp fuel) fuel

/-- `GetExpression`. -/
def getExpression (cur_token_id : Nat) : Result := do
  let (left_expression, cur_token_id) ← getAddSub token_array bracketExp fuel cur_token_id
  let token ← curToken token_array cur_token_id
  match comparisons.find? (fun op => token.op_val = some op) with
  | some operation =>
      let (right_expression, cur_token_id) ← getAddSub token_array bracketExp fuel (cur_token_id + 1)
      return (OP_NODE operation left_expression right_expression, cur_token_id)
  | none => return (left_expression, cur_token_id)

end

/-- `GetSpecOperations`. -/
def getSpecOperations (bracketExp : Nat → Result) (cur_token_id : Nat) : Result := do
  let token ← curToken token_array cur_token_id
  match [SIN, COS, SQRT].find? (fun op => token.CHECK_OP_T op) with
  | some operation =>
      let (sub_node, cur_token_id) ← bracketExp (cur_token_id + 1)
      return (OP_NODE operation sub_node null, cur_token_id)
  | none => getNumOrName token_array cur_token_id

/-- `GetBracketExp`. -/
def getBracketExp : Nat → Nat → Result
  | 0, _ => .error .diverges
  | fuel + 1, cur_token_id => do
      let token ← curToken token_array cur_token_id
      if token.op_val = some .OPEN_BR then
        let (sub_node, cur_token_id) ← getExpression token_array (getBracketExp fuel) fuel (cur_token_id + 1)
        let close ← curToken token_array cur_token_id
        if close.op_val = some .CLOSE_BR then return (sub_node, cur_token_id + 1)
        else .error .noValue
      else getSpecOperations token_array (getBracketExp fuel) cur_token_id

/-! ## Variables, calls and parameters -/

section
variable (param : Nat → Result)

/-- `GetInOut`. -/
def getInOut (var : Nat → Result) (cur_token_id : Nat) : Result := do
  let token ← curToken token_array cur_token_id
  if token.CHECK_OP_T IN then
    let (param_node, cur_token_id) ← param (cur_token_id + 1)
    return (OP_NODE IN param_node null, cur_token_id)
  else if token.CHECK_OP_T OUT then
    let (param_node, cur_token_id) ← param (cur_token_id + 1)
    return (OP_NODE OUT param_node null, cur_token_id)
  else var cur_token_id

/-- `GetCall`. -/
def getCall (var : Nat → Result) (cur_token_id : Nat) : Result := do
  let token ← curToken token_array cur_token_id
  if token.CHECK_OP_T CALL then
    let (func_name_node, cur_token_id) ← getNumOrName token_array (cur_token_id + 1)
    let (param_node, cur_token_id) ← param cur_token_id
    let func_name_node ← setType .NAME_SHORT_T func_name_node
    return (OP_NODE CALL func_name_node param_node, cur_token_id)
  else getInOut token_array param var cur_token_id

/-- `GetVar`. -/
def getVar : Nat → Nat → Result
  | 0, _ => .error .diverges
  | fuel + 1, cur_token_id => do
      let token ← curToken token_array cur_token_id
      if token.CHECK_OP_T VAR then
        let (name_node, cur_token_id) ← getNumOrName token_array (cur_token_id + 1)
        let (val_node, cur_token_id) ← getCall token_array param (getVar fuel) cur_token_id
        return (OP_NODE VAR name_node val_node, cur_token_id)
      else getExpression token_array (getBracketExp token_array fuel) fuel cur_token_id

end

/-- `GetParam`. -/
def getParam : Nat → Nat → Result
  | 0, _ => .error .diverges
  | fuel + 1, cur_token_id => do
      let token ← curToken token_array cur_token_id
      let cur_token_id := if token.CHECK_OP_T OPEN_BR then cur_token_id + 1 else cur_token_id
      let token ← curToken token_array cur_token_id
      if token.op_val = some .CLOSE_BR then return (null, cur_token_id + 1)
      else
        let (param_node, cur_token_id) ← getVar token_array (getParam fuel) fuel cur_token_id
        let (next_param_node, cur_token_id) ← getParam fuel cur_token_id
        return (OP_NODE PARAM param_node next_param_node, cur_token_id)

/-! ## Statements -/

section
variable (fuel : Nat)

/-- `GetExpression` from a statement. -/
def getCondition : Nat → Result := getExpression token_array (getBracketExp token_array fuel) fuel

/-- `GetRet`. -/
def getRet (cur_token_id : Nat) : Result := do
  let token ← curToken token_array cur_token_id
  if token.CHECK_OP_T RET then
    let (param_node, cur_token_id) ← getParam token_array fuel (cur_token_id + 1)
    return (OP_NODE RET param_node null, cur_token_id)
  else
    getCall token_array (getParam token_array fuel) (getVar token_array (getParam token_array fuel) fuel) cur_token_id

/-- `GetFuncHeader`. -/
def getFuncHeader (cur_token_id : Nat) : Result := do
  let (name_node, cur_token_id) ← getNumOrName token_array cur_token_id
  let name_node ← setType .NAME_T name_node
  let (param_node, cur_token_id) ← getParam token_array fuel cur_token_id
  let name_node ← setLeft param_node name_node
  return (name_node, cur_token_id)

variable (statement : Nat → Result)

/-- `GetWhile`. -/
def getWhile (cur_token_id : Nat) : Result := do
  let token ← curToken token_array cur_token_id
  if token.CHECK_OP_T WHILE then
    let (condition, cur_token_id) ← getCondition token_array fuel (cur_token_id + 1)
    let (while_body, cur_token_id) ← statement cur_token_id
    return (OP_NODE WHILE condition while_body, cur_token_id)
  else getRet token_array fuel cur_token_id

/-- `GetIfElse`. -/
def getIfElse (cur_token_id : Nat) : Result := do
  let token ← curToken token_array cur_token_id
  if token.CHECK_OP_T IF then
    let (condition, cur_token_id) ← getCondition token_array fuel (cur_token_id + 1)
    let (if_body, cur_token_id) ← statement cur_token_id
    let token ← curToken token_array cur_token_id
    if token.op_val ≠ some .ELSE then return (null, cur_token_id)
    else
      let (else_body, cur_token_id) ← statement (cur_token_id + 1)
      return (OP_NODE IF condition (OP_NODE ELSE if_body else_body), cur_token_id)
  else getWhile token_array fuel statement cur_token_id

/-- `GetFunction`. -/
def getFunction (cur_token_id : Nat) : Result := do
  let token ← curToken token_array cur_token_id
  if token.CHECK_OP_T FUNC then
    let (header_node, cur_token_id) ← getFuncHeader token_array fuel (cur_token_id + 1)
    let (body_node, cur_token_id) ← statement cur_token_id
    return (OP_NODE FUNC header_node body_node, cur_token_id)
  else getIfElse token_array fuel statement cur_token_id

end

/-- `GetStatement`. -/
def getStatement : Nat → Nat → Result
  | 0, _ => .error .diverges
  | fuel + 1, cur_token_id => do
      let token ← curToken token_array cur_token_id
      if token.op_val = some .TERMINATION_SYM then return (null, cur_token_id)
      else if token.op_val = some .SEMI_COL then getStatement fuel (cur_token_id + 1)
      else if token.op_val = some .CLOSE_BR then return (null, cur_token_id + 1)
      else
        let (left_child, cur_token_id) ← getFunction token_array fuel (getStatement fuel) cur_token_id
        let (next_statement, cur_token_id) ← getStatement fuel cur_token_id
        return (OP_NODE ST left_child next_statement, cur_token_id)

/-- `GetGrammar` for the tokens it has made; the token it ends at only decides what is printed. -/
def getGrammar (fuel : Nat) : Except Fault TreeNode := do
  let (root, cur_token_id) ← getStatement token_array fuel 0
  let _ ← curToken token_array cur_token_id
  return root

end

end CompilerLab.Language
