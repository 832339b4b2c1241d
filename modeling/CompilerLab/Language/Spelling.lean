import CompilerLab.Language.Grammar
import CompilerLab.Language.Syntax

/-!
# How trees are spelled

The tokens that stand for a tree: `^` binds closer than `*` and `/`, these closer than `+` and `-`, and all of them go to the left.
A comparison stands between sums, and only once.
-/

namespace CompilerLab.Language

open Options TreeNode

namespace Token

/-- A number or the address of a name that no rule takes for an operation. -/
def IsPlain (token : Token) : Prop :=
  ¬token.IsOneOf ([OPEN_BR, CLOSE_BR, SEMI_COL, TERMINATION_SYM, ELSE, ADD, SUB, MUL, DIV, POW] ++ comparisons)

instance (token : Token) (options : List Options) : Decidable (token.IsOneOf options) :=
  decidable_of_iff (∃ op ∈ options, token.op_val = some op) Iff.rfl

instance (token : Token) : Decidable token.IsPlain := inferInstanceAs (Decidable (¬_))

end Token

/-- The operators a phrase may go on with. -/
def Phrase.operators : Phrase → List Options
  | operand | arguments | parameters | block => []
  | level operators part => operators ++ part.operators
  | expression | value | argument | item => [ADD, SUB, MUL, DIV, POW] ++ comparisons

/-- The operations a phrase may begin with. -/
def Phrase.heads : Phrase → List Options
  | operand | expression => [OPEN_BR, SIN, COS, SQRT]
  | level _ part => part.heads
  | argument => [OPEN_BR, SIN, COS, SQRT, VAR]
  | value => [OPEN_BR, SIN, COS, SQRT, VAR, CALL, IN, OUT]
  | arguments | parameters => [OPEN_BR, SIN, COS, SQRT, VAR, CLOSE_BR]
  | item => [OPEN_BR, SIN, COS, SQRT, VAR, CALL, IN, OUT, FUNC, IF, WHILE, RET]
  | block => [OPEN_BR, SIN, COS, SQRT, VAR, CALL, IN, OUT, FUNC, IF, WHILE, RET, CLOSE_BR, SEMI_COL]

/-- `Spells phrase tree tokens`: the tokens are such a phrase, and stand for the tree. -/
inductive Spells : Phrase → TreeNode → List Token → Prop where
  | number {token} : token.type = .NUM_T → token.IsPlain → Spells .operand (DIGIT_NODE token.value) [token]
  | variable {token} : token.type = .VAR_T → token.IsPlain → Spells .operand (VAR_NODE token.name) [token]
  | function {op tree tokens} : op ∈ [SIN, COS, SQRT] → Spells .operand tree tokens →
      Spells .operand (OP_NODE op tree null) (createToken op :: tokens)
  | brackets {tree tokens} : Spells .expression tree tokens →
      Spells .operand tree (createToken OPEN_BR :: (tokens ++ [createToken CLOSE_BR]))
  | lone {operators part tree tokens} : Spells part tree tokens → Spells (.level operators part) tree tokens
  | operator {operators part op left right tokens tokens'} : op ∈ operators → op ∉ part.operators →
      Spells (.level operators part) left tokens → Spells part right tokens' →
      Spells (.level operators part) (OP_NODE op left right) (tokens ++ createToken op :: tokens')
  | sum {tree tokens} : Spells .sum tree tokens → Spells .expression tree tokens
  | comparison {op left right tokens tokens'} : op ∈ comparisons → Spells .sum left tokens → Spells .sum right tokens' →
      Spells .expression (OP_NODE op left right) (tokens ++ createToken op :: tokens')
  | bare {tree tokens} : Spells .expression tree tokens → Spells .argument tree tokens
  | var {name tree tokens} : name.type = .VAR_T → Spells .value tree tokens →
      Spells .argument (OP_NODE VAR (VAR_NODE name.name) tree) (createToken VAR :: name :: tokens)
  | plain {tree tokens} : Spells .argument tree tokens → Spells .value tree tokens
  | call {name tree tokens} : name.type = .VAR_T → Spells .parameters tree tokens →
      Spells .value (OP_NODE CALL (node .NAME_SHORT_T (.var_name name.name) null null) tree) (createToken CALL :: name :: tokens)
  | inOut {op tree tokens} : op = IN ∨ op = OUT → Spells .parameters tree tokens →
      Spells .value (OP_NODE op tree null) (createToken op :: tokens)
  | noArguments : Spells .arguments null [createToken CLOSE_BR]
  | another {tree rest tokens tokens'} : Spells .argument tree tokens → Spells .parameters rest tokens' →
      Spells .arguments (OP_NODE PARAM tree rest) (tokens ++ tokens')
  | opened {tree tokens} : Spells .arguments tree tokens → Spells .parameters tree (createToken OPEN_BR :: tokens)
  | unopened {tree token tokens} : ¬token.CHECK_OP_T OPEN_BR → Spells .arguments tree (token :: tokens) →
      Spells .parameters tree (token :: tokens)
  | statement {tree tokens} : Spells .value tree tokens → Spells .item tree tokens
  | ret {tree tokens} : Spells .parameters tree tokens → Spells .item (OP_NODE RET tree null) (createToken RET :: tokens)
  | loop {condition body tokens tokens'} : Spells .expression condition tokens → Spells .block body tokens' →
      Spells .item (OP_NODE WHILE condition body) (createToken WHILE :: (tokens ++ tokens'))
  | conditional {condition if_body else_body tokens tokens' tokens''} : Spells .expression condition tokens →
      Spells .block if_body tokens' → Spells .block else_body tokens'' →
      Spells .item (OP_NODE IF condition (OP_NODE ELSE if_body else_body))
        (createToken IF :: (tokens ++ (tokens' ++ createToken ELSE :: tokens'')))
  | declaration {name params body tokens tokens'} : name.type = .VAR_T → Spells .parameters params tokens →
      Spells .block body tokens' →
      Spells .item (OP_NODE FUNC (node .NAME_T (.var_name name.name) params null) body)
        (createToken FUNC :: name :: (tokens ++ tokens'))
  | close : Spells .block null [createToken CLOSE_BR]
  | empty {tree tokens} : Spells .block tree tokens → Spells .block tree (createToken SEMI_COL :: tokens)
  | item {tree rest tokens tokens'} : Spells .item tree tokens → Spells .block rest tokens' →
      Spells .block (OP_NODE ST tree rest) (tokens ++ tokens')

/-- The tokens of a file, the last one included. -/
inductive SpellsFile : TreeNode → List Token → Prop where
  | ending : SpellsFile null [createToken TERMINATION_SYM]
  | empty {tree tokens} : SpellsFile tree tokens → SpellsFile tree (createToken SEMI_COL :: tokens)
  | item {tree rest tokens tokens'} : Spells .item tree tokens → SpellsFile rest tokens' →
      SpellsFile (OP_NODE ST tree rest) (tokens ++ tokens')

/-! ## Programs -/

def numberToken (bits : BitVec 64) : Token := { type := .NUM_T, value := bits, name := "" }

/-- The token of a name at an address. -/
def nameToken (name : String) (address : BitVec 64) : Token := { type := .VAR_T, value := address, name }

section
variable (address : String → BitVec 64)

/-- The tokens of an expression, with brackets around every operation. -/
def Expr.tokens : Expr → List Token
  | number bits => [numberToken bits]
  | .variable name => [nameToken name (address name)]
  | binary op left right => createToken OPEN_BR :: (left.tokens ++ createToken op.option :: right.tokens ++ [createToken CLOSE_BR])
  | unary op operand => createToken op.option :: operand.tokens

/-- Parameters in brackets. -/
def paramsTokens (names : List String) : List Token :=
  createToken OPEN_BR :: (names.map (fun name => nameToken name (address name)) ++ [createToken CLOSE_BR])

def callTokens (func_name : String) (args : List String) : List Token :=
  createToken CALL :: nameToken func_name (address func_name) :: paramsTokens address args

/-- The end of a list of statements is a closing bracket. -/
def Stmt.tokens : Stmt → List Token
  | skip => [createToken CLOSE_BR]
  | seq first rest => first.tokens ++ rest.tokens
  | set name value => createToken VAR :: nameToken name (address name) :: value.tokens address
  | setCall name func_name args => createToken VAR :: nameToken name (address name) :: callTokens address func_name args
  | call func_name args => callTokens address func_name args
  | input names => createToken IN :: paramsTokens address names
  | output names => createToken OUT :: paramsTokens address names
  | cond comparison left right if_body else_body =>
      createToken IF :: ((left.tokens address ++ createToken comparison.option :: right.tokens address) ++
        (if_body.tokens ++ createToken ELSE :: else_body.tokens))
  | ret names => createToken RET :: paramsTokens address names

def Func.tokens (f : Func) : List Token :=
  createToken FUNC :: nameToken f.name (address f.name) :: (paramsTokens address f.params ++ f.body.tokens address)

def Program.tokens : Program → List Token
  | [] => [createToken TERMINATION_SYM]
  | f :: p => f.tokens address ++ tokens p

end

/-- The numbers are not taken for operations. -/
def Expr.Plain : Expr → Prop
  | number bits => (numberToken bits).IsPlain
  | .variable _ => True
  | binary _ left right => left.Plain ∧ right.Plain
  | unary _ operand => operand.Plain

mutual
/-- A list of statements up to its end. -/
def Stmt.IsBlock : Stmt → Prop
  | .skip => True
  | .seq first rest => first.IsItem ∧ rest.IsBlock
  | _ => False

/-- A single statement. -/
def Stmt.IsItem : Stmt → Prop
  | .skip | .seq _ _ => False
  | .set _ value => value.Plain
  | .cond _ left right if_body else_body => left.Plain ∧ right.Plain ∧ if_body.IsBlock ∧ else_body.IsBlock
  | _ => True
end

end CompilerLab.Language
