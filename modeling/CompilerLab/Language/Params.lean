import Mathlib.Data.BitVec

/-!
# Tokens and trees of the language

The enumerations of `params.h`, and the tokens and tree nodes that use them.
-/

namespace CompilerLab.Language

/-- `Types`. -/
inductive Types where
  | NUM_T | VAR_T | OP_T | SPEC_T | NAME_T | NAME_SHORT_T
  deriving DecidableEq, Repr

/-- `Options`. -/
inductive Options where
  | UNKNOWN | ADD | SUB | DIV | MUL | POW | AND | OR | EQ | SQRT | SIN | COS
  | IS_EE | IS_GE | IS_BE | IS_GT | IS_BT | IS_NE
  | ST | IF | ELSE | NIL | VAR | WHILE | FUNC | RET | CALL | PARAM
  | OUT | IN
  | OPEN_BR | CLOSE_BR | TERMINATION_SYM | SEMI_COL
  | VOID | TYPE
  deriving DecidableEq, Repr

namespace Options

/-- The options in the order of the enumeration. -/
def all : List Options :=
  [UNKNOWN, ADD, SUB, DIV, MUL, POW, AND, OR, EQ, SQRT, SIN, COS, IS_EE, IS_GE, IS_BE, IS_GT, IS_BT, IS_NE, ST, IF, ELSE, NIL,
    VAR, WHILE, FUNC, RET, CALL, PARAM, OUT, IN, OPEN_BR, CLOSE_BR, TERMINATION_SYM, SEMI_COL, VOID, TYPE]

/-- The number of an option. -/
def code (operation : Options) : Nat := all.idxOf operation

end Options

/-! ## Tokens -/

/-- `Token`. All members of `Values` are the one `value`; `name` is the string `var_name` points to. -/
structure Token where
  type : Types
  value : BitVec 64
  name : String
  deriving DecidableEq, Repr

namespace Token

/-- The member `op_val`, whatever the type of the token is: the low half of the bits. -/
def op_val (token : Token) : Option Options := Options.all[token.value.toNat % 2 ^ 32]?

/-- `CHECK_OP_T`. -/
def CHECK_OP_T (token : Token) (op : Options) : Prop := token.type = .OP_T ∧ token.op_val = some op

instance (token : Token) (op : Options) : Decidable (token.CHECK_OP_T op) := inferInstanceAs (Decidable (_ ∧ _))

end Token

/-- `CreateToken (OP_T, 0, operation)`. -/
def createToken (operation : Options) : Token := { type := .OP_T, value := BitVec.ofNat 64 operation.code, name := "" }

/-! ## Trees -/

/-- `Values` of a node, by the member that was written. -/
inductive Values where
  | dbl_val (bits : BitVec 64)
  | op_val (operation : Options)
  | var_name (name : String)
  deriving DecidableEq, Repr

/-- `TreeNode`, or the null pointer. -/
inductive TreeNode where
  | null
  | node (type : Types) (value : Values) (left right : TreeNode)
  deriving DecidableEq, Repr

/-- `DIGIT_NODE`. -/
def DIGIT_NODE (num : BitVec 64) : TreeNode := .node .NUM_T (.dbl_val num) .null .null

/-- `VAR_NODE` without children. -/
def VAR_NODE (name : String) : TreeNode := .node .VAR_T (.var_name name) .null .null

/-- `OP_NODE`. -/
def OP_NODE (op : Options) (l r : TreeNode) : TreeNode := .node .OP_T (.op_val op) l r

end CompilerLab.Language
