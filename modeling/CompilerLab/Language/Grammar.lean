import CompilerLab.Language.Parser

/-!
# The grammar of the language

Which stretches of a token array are the parts of a program. A rule looks at the tokens of its own stretch, and at the token
behind it where that one decides how long the stretch is.
-/

namespace CompilerLab.Language

open Options

namespace Token

/-- One of the options, whatever the type of the token is. -/
def IsOneOf (token : Token) (options : List Options) : Prop := ∃ op ∈ options, token.op_val = some op

/-- A number or a name. -/
def IsLiteral (token : Token) : Prop := token.type = .NUM_T ∨ token.type = .VAR_T

/-- The name of a function with one operand. -/
def IsFunction (token : Token) : Prop := ∃ op ∈ [SIN, COS, SQRT], token.CHECK_OP_T op

end Token

/-- The token at the index is there, and it is as said. -/
def At (token_array : List Token) (p : Nat) (holds : Token → Prop) : Prop := ∃ token, token_array[p]? = some token ∧ holds token

/-- The parts of a program. -/
inductive Phrase where
  /-- A number, a name, an expression in brackets, a function of an operand, or nothing. -/
  | operand
  | level (operators : List Options) (operand : Phrase)
  | expression
  /-- What may be the value of a variable. -/
  | value
  | argument
  /-- A list of arguments behind its opening bracket, which may be missing. -/
  | arguments
  | parameters
  | item
  | block

/-- Operands with arithmetic operators between them. -/
def Phrase.sum : Phrase := .level [ADD, SUB] (.level [MUL, DIV] (.level [POW] .operand))

/-- `Derives token_array phrase p q`: the tokens from `p` to before `q` are such a phrase. -/
inductive Derives (token_array : List Token) : Phrase → Nat → Nat → Prop where
  | brackets {p q} : At token_array p (·.op_val = some OPEN_BR) → Derives token_array .expression (p + 1) q →
      At token_array q (·.op_val = some CLOSE_BR) → Derives token_array .operand p (q + 1)
  | function {p q} : At token_array p (fun token => token.op_val ≠ some OPEN_BR ∧ token.IsFunction) →
      Derives token_array .operand (p + 1) q → Derives token_array .operand p q
  | literal {p} : At token_array p (fun token => token.op_val ≠ some OPEN_BR ∧ token.IsLiteral) →
      Derives token_array .operand p (p + 1)
  | noOperand {p} :
      At token_array p (fun token => token.op_val ≠ some OPEN_BR ∧ ¬token.IsFunction ∧ ¬token.IsLiteral) →
      Derives token_array .operand p p
  | last {operators part p q} : Derives token_array part p q → At token_array q (¬·.IsOneOf operators) →
      Derives token_array (.level operators part) p q
  | operator {operators part p q r} : Derives token_array part p q → At token_array q (·.IsOneOf operators) →
      Derives token_array (.level operators part) (q + 1) r → Derives token_array (.level operators part) p r
  | sum {p q} : Derives token_array .sum p q → At token_array q (¬·.IsOneOf comparisons) →
      Derives token_array .expression p q
  | comparison {p q r} : Derives token_array .sum p q → At token_array q (·.IsOneOf comparisons) →
      Derives token_array .sum (q + 1) r → Derives token_array .expression p r
  | call {p q} : At token_array p (·.CHECK_OP_T CALL) → At token_array (p + 1) Token.IsLiteral →
      Derives token_array .parameters (p + 2) q → Derives token_array .value p q
  | inOut {p q} : At token_array p (fun token => token.CHECK_OP_T IN ∨ token.CHECK_OP_T OUT) →
      Derives token_array .parameters (p + 1) q → Derives token_array .value p q
  | plain {p q} :
      At token_array p (fun token => ¬token.CHECK_OP_T CALL ∧ ¬token.CHECK_OP_T IN ∧ ¬token.CHECK_OP_T OUT) →
      Derives token_array .argument p q → Derives token_array .value p q
  | var {p q} : At token_array p (·.CHECK_OP_T VAR) → At token_array (p + 1) Token.IsLiteral →
      Derives token_array .value (p + 2) q → Derives token_array .argument p q
  | noName {p q} : At token_array p (·.CHECK_OP_T VAR) → At token_array (p + 1) (¬·.IsLiteral) →
      Derives token_array .value (p + 1) q → Derives token_array .argument p q
  | bare {p q} : At token_array p (¬·.CHECK_OP_T VAR) → Derives token_array .expression p q →
      Derives token_array .argument p q
  | noArguments {p} : At token_array p (·.op_val = some CLOSE_BR) → Derives token_array .arguments p (p + 1)
  | another {p q r} : At token_array p (·.op_val ≠ some CLOSE_BR) → Derives token_array .argument p q → p < q →
      Derives token_array .parameters q r → Derives token_array .arguments p r
  | opened {p q} : At token_array p (·.CHECK_OP_T OPEN_BR) → Derives token_array .arguments (p + 1) q →
      Derives token_array .parameters p q
  | unopened {p q} : At token_array p (¬·.CHECK_OP_T OPEN_BR) → Derives token_array .arguments p q →
      Derives token_array .parameters p q
  | declaration {p q r} : At token_array p (·.CHECK_OP_T FUNC) → At token_array (p + 1) Token.IsLiteral →
      Derives token_array .parameters (p + 2) q → Derives token_array .block q r → Derives token_array .item p r
  | noElse {p q r} : At token_array p (·.CHECK_OP_T IF) → Derives token_array .expression (p + 1) q →
      Derives token_array .block q r → At token_array r (·.op_val ≠ some ELSE) → Derives token_array .item p r
  | conditional {p q r s} : At token_array p (·.CHECK_OP_T IF) → Derives token_array .expression (p + 1) q →
      Derives token_array .block q r → At token_array r (·.op_val = some ELSE) → Derives token_array .block (r + 1) s →
      Derives token_array .item p s
  | loop {p q r} : At token_array p (·.CHECK_OP_T WHILE) → Derives token_array .expression (p + 1) q →
      Derives token_array .block q r → Derives token_array .item p r
  | ret {p q} : At token_array p (·.CHECK_OP_T RET) → Derives token_array .parameters (p + 1) q →
      Derives token_array .item p q
  | statement {p q} :
      At token_array p (fun token => ¬token.CHECK_OP_T FUNC ∧ ¬token.CHECK_OP_T IF ∧ ¬token.CHECK_OP_T WHILE ∧
        ¬token.CHECK_OP_T RET) →
      Derives token_array .value p q → Derives token_array .item p q
  | ending {p} : At token_array p (·.op_val = some TERMINATION_SYM) → Derives token_array .block p p
  | empty {p q} : At token_array p (·.op_val = some SEMI_COL) → Derives token_array .block (p + 1) q →
      Derives token_array .block p q
  | close {p} : At token_array p (·.op_val = some CLOSE_BR) → Derives token_array .block p (p + 1)
  | item {p q r} : At token_array p (¬·.IsOneOf [TERMINATION_SYM, SEMI_COL, CLOSE_BR]) → Derives token_array .item p q →
      p < q → Derives token_array .block q r → Derives token_array .block p r

end CompilerLab.Language
