import CompilerLab.Asm.Cmds
import CompilerLab.Lib.Scanf
import CompilerLab.Language.Tree

/-!
# The file of a tree

`write_on_disk.cpp`, the tokens `parser_backend.cpp` finds in the file and the tree it makes of them. A result is `none` where the
source stops, runs on for ever or reads or writes outside of an array.
-/

namespace CompilerLab.Language

open Options TreeNode Lib.Scanf Asm

def MAX_TOKENS : Nat := 500
def MAX_NAME_LEN : Nat := 200
def MAX_TOKEN_LEN : Nat := 400
def MAX_SRC_LEN : Nat := 20000

/-! ## Writing -/

/-- `GetOpSign` of the frontend. -/
def getOpSign : Options → String
  | .ADD => "ADD"
  | .SUB => "SUB"
  | .DIV => "DIV"
  | .MUL => "MUL"
  | .POW => "POW"
  | .IS_EE => "IS_EE"
  | .IS_GE => "IS_GE"
  | .IS_BE => "IS_BE"
  | .IS_GT => "IS_GT"
  | .IS_BT => "IS_BT"
  | .IS_NE => "IS_NE"
  | .ST => "ST"
  | .VAR => "VAR"
  | .NIL => "NIL"
  | .EQ => "EQ"
  | .IF => "IF"
  | .ELSE => "ELSE"
  | .PARAM => "PARAM"
  | .FUNC => "FUNC"
  | .CALL => "CALL"
  | .RET => "RET"
  | .OPEN_BR => "OPEN_BR"
  | .CLOSE_BR => "CLOSE_BR"
  | .TERMINATION_SYM => "TERMINATION_SYM"
  | .WHILE => "WHILE"
  | .SEMI_COL => "SEMI_COL"
  | .IN => "IN"
  | .OUT => "OUT"
  | .SIN => "SIN"
  | .COS => "COS"
  | .SQRT => "SQRT"
  | .UNKNOWN | .AND | .OR | .VOID | .TYPE => "?"

section
variable (lg : BitVec 64 → Str)

/-- A name in quotes. -/
def quoted (name : String) : Str := '"' :: (name.toList ++ ['"'])

/-- `RecPrintNode`, where `lg` is the text of a number. -/
def recPrintNode : TreeNode → Option Str
  | null => none
  | node type value left right =>
      let child := fun (tree : TreeNode) (text : Option Str) => if tree = null then some " \x7b NIL \x7d ".toList else text
      let body : Option Str :=
        match type, value with
        | .NUM_T, .dbl_val bits => some (lg bits)
        | .NAME_T, .var_name name =>
            if left = null then some (quoted name ++ " \x7b NIL \x7d \x7b VOID \x7d ".toList)
            else (recPrintNode left).map fun params => quoted name ++ params ++ "\x7b TYPE \x7d".toList
        | .NAME_SHORT_T, .var_name name => some (quoted name ++ " \x7b NIL \x7d \x7b NIL \x7d ".toList)
        | .VAR_T, .var_name name => if left = null then some (quoted name) else (recPrintNode left).map fun text => quoted name ++ text
        | .OP_T, .op_val op => do
            let l_text ← child left (recPrintNode left)
            let r_text ← child right (recPrintNode right)
            return ' ' :: (getOpSign op).toList ++ [' '] ++ l_text ++ r_text
        | _, _ => none
      body.map fun text => " \x7b ".toList ++ text ++ " \x7d ".toList

end

/-! ## Tokens -/

/-- A token of the backend, by its type. -/
inductive FileToken where
  | number (bits : BitVec 64)
  | name (var_name : Str)
  | operation (op : Options)
  deriving DecidableEq, Repr

/-- The names `GetOpType` knows. -/
def operationNames : List Options :=
  [ADD, SUB, DIV, MUL, POW, AND, OR, EQ, ST, IF, ELSE, NIL, VAR, WHILE, FUNC, RET, CALL, PARAM, IS_EE, IS_GE, IS_BE, IS_GT, IS_BT,
    IS_NE, IN, OUT, SIN, COS, SQRT, VOID, TYPE]

/-- The name of an enumerator. -/
def enumerator : Options → String
  | .UNKNOWN => "UNKNOWN"
  | .AND => "AND"
  | .OR => "OR"
  | .VOID => "VOID"
  | .TYPE => "TYPE"
  | op => getOpSign op

/-- `GetOpType` of a string that begins with a letter. -/
def getOpType (str : Str) : Options := (operationNames.find? fun op => (enumerator op).toList = str).getD UNKNOWN

/-- White space of the backend's `SkipSpaces`. -/
def isBlank (c : Char) : Bool := c == '\n' || c == ' ' || c == '\r'

section
variable (strtod : Str → BitVec 64)

/-- One round of the loop of `FillTokensArray` at a character: the token, if there is one, and what is left. -/
def nextToken (c : Char) (input : Str) : Option (Option FileToken × Str) :=
  if c.isAlpha then
    match except ['{', '}', ' '] (c :: input) with
    | .item op_name rest => if op_name.length < MAX_NAME_LEN then some (some (.operation (getOpType op_name)), rest) else none
    | _ => none
  else if c = '"' then
    let (var_name, input) := match except ['"', ' '] input with
      | .item text rest => (text, rest)
      | _ => ([], input)
    let input := if input.head? = some '"' then input.tail else input
    if var_name.length < MAX_TOKEN_LEN then some (some (.name var_name), input) else none
  else if c.isDigit ∨ c = '-' then
    match number (c :: input) with
    | .item text rest => some (some (.number (strtod text)), rest)
    | _ => none
  else if c = '{' ∨ c = '}' then some (none, input)
  else none

/-- The loop of `FillTokensArray`, for so many rounds. -/
def fillTokens : Nat → Str → Option (List FileToken)
  | 0, _ => none
  | fuel + 1, input =>
      match input.dropWhile isBlank with
      | [] => some [.operation .TERMINATION_SYM]
      | c :: input => do
          let (token, input) ← nextToken strtod c input
          return token.toList ++ (← fillTokens fuel input)

/-- `FillTokensArray`: the whole text is read, and the tokens fit into the array. -/
def fillTokensArray (input : Str) : Option (List FileToken) := do
  let tokens ← fillTokens strtod (input.length + 1) input
  if input.length < MAX_SRC_LEN ∧ tokens.length ≤ MAX_TOKENS then return tokens else none

end

/-! ## Reading -/

/-- `RecGetChild`, at so much depth. What is left of the tokens is the second part of the result. -/
def recGetChild : Nat → List FileToken → Bool → Option (TreeNode × List FileToken)
  | 0, _, _ => none
  | _, [], _ => none
  | fuel + 1, token :: tokens, is_func_name =>
      match token with
      | .name name =>
          if is_func_name then do
            let (param_node, tokens) ← recGetChild fuel tokens false
            let (type_node, tokens) ← recGetChild fuel tokens false
            return (node .NAME_T (.var_name (String.ofList name)) param_node type_node, tokens)
          else return (VAR_NODE (String.ofList name), tokens)
      | .number bits => some (DIGIT_NODE bits, tokens)
      | .operation .TERMINATION_SYM => some (null, token :: tokens)
      | .operation .NIL | .operation .VOID | .operation .TYPE => some (null, tokens)
      | .operation cur_opt => do
          let (left_child, tokens) ← recGetChild fuel tokens (cur_opt = FUNC ∨ cur_opt = CALL)
          let (right_child, tokens) ← recGetChild fuel tokens false
          return (OP_NODE cur_opt left_child right_child, tokens)

/-- `GetGrammar` of the backend for a file. -/
def readTree (strtod : Str → BitVec 64) (input : Str) : Option TreeNode := do
  let tokens ← fillTokensArray strtod input
  let (root, _) ← recGetChild (tokens.length + 1) tokens false
  return root

/-! ## What is read -/

namespace TreeNode

/-- In the backend the name of a called function is a node like that of a declared one. -/
def asRead : TreeNode → TreeNode
  | node .OP_T (.op_val .CALL) (node .NAME_SHORT_T name left right) params =>
      node .OP_T (.op_val .CALL) (node .NAME_T name left right) params.asRead
  | node type value left right => node type value left.asRead right.asRead
  | null => null

/-- The tokens of the file of a tree before the last one. -/
def fileTokens : TreeNode → List FileToken
  | null => [.operation NIL]
  | node .NUM_T (.dbl_val bits) _ _ => [.number bits]
  | node .VAR_T (.var_name name) _ _ => [.name name.toList]
  | node .NAME_T (.var_name name) left _ =>
      .name name.toList :: (left.fileTokens ++ [.operation (if left = null then VOID else TYPE)])
  | node .NAME_SHORT_T (.var_name name) _ _ => [.name name.toList, .operation NIL, .operation NIL]
  | node .OP_T (.op_val op) left right => .operation op :: (left.fileTokens ++ right.fileTokens)
  | _ => []

section
variable (lg : BitVec 64 → Str) (strtod : Str → BitVec 64)

/-- A number that is read back from its text. -/
structure NumberFits (bits : BitVec 64) : Prop where
  isNumber : IsNumber (lg bits)
  begins : ∃ c ∈ (lg bits).head?, c.isDigit = true ∨ c = '-'
  exact : strtod (lg bits) = bits

/-- A name that is read back from its quotes. -/
structure NameFits (name : String) : Prop where
  not_stop : ∀ c ∈ name.toList, c ≠ '"' ∧ c ≠ ' '
  length : name.toList.length < MAX_TOKEN_LEN

instance (bits : BitVec 64) : Decidable (NumberFits lg strtod bits) :=
  decidable_of_iff (IsNumber (lg bits) ∧ (lg bits).head?.any (fun c => c.isDigit || c == '-') = true ∧ strtod (lg bits) = bits)
    ⟨fun h => ⟨h.1, by simpa [Option.any_eq_true] using h.2.1, h.2.2⟩,
      fun h => ⟨h.isNumber, by simpa [Option.any_eq_true] using h.begins, h.exact⟩⟩

instance (name : String) : Decidable (NameFits name) :=
  decidable_of_iff ((name.toList.all fun c => c != '"' && c != ' ') = true ∧ name.toList.length < MAX_TOKEN_LEN)
    ⟨fun h => ⟨by simpa using h.1, h.2⟩, fun h => ⟨by simpa using h.not_stop, h.length⟩⟩

/-- The numbers and names of a tree can be read back. -/
def Fits : TreeNode → Prop
  | null => True
  | node .NUM_T (.dbl_val bits) left right => NumberFits lg strtod bits ∧ left.Fits ∧ right.Fits
  | node .OP_T (.op_val _) left right => left.Fits ∧ right.Fits
  | node .VAR_T (.var_name name) left right | node .NAME_T (.var_name name) left right | node .NAME_SHORT_T (.var_name name) left right =>
      NameFits name ∧ left.Fits ∧ right.Fits
  | _ => False

instance decidableFits : ∀ tree : TreeNode, Decidable (tree.Fits lg strtod)
  | null => .isTrue trivial
  | node type value left right =>
      have := decidableFits left
      have := decidableFits right
      match type, value with
      | .NUM_T, .dbl_val bits => inferInstanceAs (Decidable (NumberFits lg strtod bits ∧ left.Fits lg strtod ∧ right.Fits lg strtod))
      | .OP_T, .op_val _ => inferInstanceAs (Decidable (left.Fits lg strtod ∧ right.Fits lg strtod))
      | .VAR_T, .var_name name | .NAME_T, .var_name name | .NAME_SHORT_T, .var_name name =>
          inferInstanceAs (Decidable (NameFits name ∧ left.Fits lg strtod ∧ right.Fits lg strtod))
      | .NUM_T, .op_val _ | .NUM_T, .var_name _ | .OP_T, .dbl_val _ | .OP_T, .var_name _ | .VAR_T, .dbl_val _ | .VAR_T, .op_val _
      | .NAME_T, .dbl_val _ | .NAME_T, .op_val _ | .NAME_SHORT_T, .dbl_val _ | .NAME_SHORT_T, .op_val _ | .SPEC_T, _ =>
          .isFalse id

end

end TreeNode

/-- The operators of nodes whose children are read as they are. -/
def plainOperators : List Options := simpleOperators ++ [.ST, .IF, .ELSE, .WHILE, .RET]

/-- The trees that are read back, up to the types of names. -/
inductive Filed : TreeNode → Prop where
  | null : Filed null
  | number (bits : BitVec 64) : Filed (DIGIT_NODE bits)
  | variable (name : String) : Filed (VAR_NODE name)
  | operation {op : Options} {left right : TreeNode} (hop : op ∈ plainOperators) (hleft : Filed left) (hright : Filed right) :
      Filed (OP_NODE op left right)
  | call {name : String} {params : TreeNode} (hparams : Filed params) :
      Filed (OP_NODE CALL (node .NAME_SHORT_T (.var_name name) .null .null) params)
  | declaration {name : String} {params body : TreeNode} (hparams : Filed params) (hbody : Filed body) :
      Filed (OP_NODE FUNC (node .NAME_T (.var_name name) params .null) body)

end CompilerLab.Language
