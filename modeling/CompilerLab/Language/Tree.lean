import CompilerLab.Language.Params

/-!
# The trees of a program
-/

namespace CompilerLab.Language

open Options TreeNode

/-- The operators of nodes in expressions, values and parameters, calls apart. -/
def simpleOperators : List Options :=
  [ADD, SUB, MUL, DIV, POW, SIN, COS, SQRT, EQ, IS_EE, IS_GE, IS_BE, IS_GT, IS_BT, IS_NE, VAR, IN, OUT, PARAM]

/-- A number or a name, which any literal may be renamed to. -/
def Values.IsLiteral : Values → Prop
  | .op_val _ => False
  | _ => True

/-- Expressions, values of variables and parameters. -/
inductive Simple : TreeNode → Prop where
  | null : Simple null
  | number (bits : BitVec 64) : Simple (DIGIT_NODE bits)
  | variable (name : String) : Simple (VAR_NODE name)
  | operation {op : Options} {left right : TreeNode} (hop : op ∈ simpleOperators) (hleft : Simple left) (hright : Simple right) :
      Simple (OP_NODE op left right)
  | call {name : Values} {right : TreeNode} (hname : name.IsLiteral) (hright : Simple right) :
      Simple (OP_NODE CALL (node .NAME_SHORT_T name .null .null) right)

/-- Statements and lists of statements. -/
inductive Block : TreeNode → Prop where
  | simple {tree : TreeNode} (h : Simple tree) : Block tree
  | statement {left right : TreeNode} (hleft : Block left) (hright : Block right) : Block (OP_NODE ST left right)
  | declaration {name : Values} {params body : TreeNode} (hname : name.IsLiteral) (hparams : Simple params) (hbody : Block body) :
      Block (OP_NODE FUNC (node .NAME_T name params .null) body)
  | conditional {condition if_body else_body : TreeNode} (hcondition : Simple condition) (hif : Block if_body)
      (helse : Block else_body) : Block (OP_NODE IF condition (OP_NODE ELSE if_body else_body))
  | loop {condition body : TreeNode} (hcondition : Simple condition) (hbody : Block body) : Block (OP_NODE WHILE condition body)
  | ret {params : TreeNode} (hparams : Simple params) : Block (OP_NODE RET params .null)

end CompilerLab.Language
