import CompilerLab.Derivative.Parser

/-!
# How expressions are spelled

The tokens that stand for a tree: `^` binds closer than `*` and `/`, these closer than `+` and `-`, and all of them go to
the left. The operand of a function is in brackets. A token has a text, and the texts stand one after the other with white
space around them.
-/

namespace CompilerLab.Derivative

open TreeNode CompilerLab.Lib.Scanf

/-- The parts of an expression, by the function that reads them. -/
inductive Level where
  | bracketExp | power | mlt | expression
  deriving DecidableEq

namespace Level

/-- The operations between the operands of a level. -/
def operations : Level → List Operations
  | bracketExp => []
  | power => [.POW]
  | mlt => [.MUL, .DIV]
  | expression => [.ADD, .SUB]

/-- The operands of a level. -/
def operand : Level → Level
  | bracketExp | power => bracketExp
  | mlt => power
  | expression => mlt

/-- The operations that go on with the level. -/
def goingOn : Level → List Operations
  | bracketExp => []
  | power => [.POW]
  | mlt => [.MUL, .DIV, .POW]
  | expression => [.ADD, .SUB, .MUL, .DIV, .POW]

end Level

/-- `Spells level tree tokens`: the tokens are such a part, and stand for the tree. -/
inductive Spells : Level → Tree → List Token → Prop where
  | number {token} : token.type = .NUM_T → token.op_val ≠ some .OPEN_BR → Spells .bracketExp (GET_DIGIT token.value) [token]
  | variable {token} : token.type = .VAR_T → token.op_val ≠ some .OPEN_BR → Spells .bracketExp (var token.name) [token]
  | brackets {tree tokens} : Spells .expression tree tokens →
      Spells .bracketExp tree (createToken .OPEN_BR :: (tokens ++ [createToken .CLOSE_BR]))
  | function {operation tree tokens} : operation ∈ [Operations.SIN, .COS, .LN] → Spells .expression tree tokens →
      Spells .bracketExp (op operation null tree)
        (createToken operation :: createToken .OPEN_BR :: (tokens ++ [createToken .CLOSE_BR]))
  | lone {level tree tokens} : level ≠ .bracketExp → Spells level.operand tree tokens → Spells level tree tokens
  | operation {level operation left right tokens tokens'} : operation ∈ level.operations → Spells level left tokens →
      Spells level.operand right tokens' → Spells level (op operation left right) (tokens ++ createToken operation :: tokens')

/-- `Lexeme env k token text rest`: the text before the rest is that of the `k`th token. A name goes on up to the next stop,
which `^` is not. -/
inductive Lexeme (env : Environment) (k : Nat) : Token → List Char → List Char → Prop where
  | symbol {c operation rest} : (c, operation) ∈ symbols → Lexeme env k (createToken operation) [c] rest
  | function {name operation rest} : (name, operation) ∈ functionNames → Lexeme env k (createToken operation) name ('(' :: rest)
  | number {c text rest} : c.isDigit = true → IsNumber (c :: text) → (∀ c' t, rest = c' :: t → Ends c') →
      Lexeme env k { type := .NUM_T, value := env.strtod (c :: text), name := [] } (c :: text) rest
  | name {c name rest} : c.isAlpha = true → (∀ c' ∈ c :: name, c' ∉ nameStop) → (c :: name).length < MAX_TOKEN_LEN →
      (∀ c' t, rest = c' :: t → c' ∈ nameStop) → ((c :: name ++ rest).dropWhile Char.isAlpha).head? ≠ some '(' →
      Lexeme env k { type := .VAR_T, value := env.calloc k, name := c :: name } (c :: name) rest

/-- `Lexes env k tokens input`: the input is made of the texts of the tokens from the `k`th one on, with white space around
them. -/
inductive Lexes (env : Environment) : Nat → List Token → List Char → Prop where
  | ending {k input} : skip input = [] → Lexes env k [createToken .TERMINATION_SYM] input
  | token {k token tokens text rest input} : skip input = text ++ rest → text ≠ [] → Lexeme env k token text rest →
      Lexes env (k + 1) tokens rest → Lexes env k (token :: tokens) input

end CompilerLab.Derivative
