import CompilerLab.Lib.Scanf
import CompilerLab.Derivative.Tree

/-!
# The lexer

`FillTokensArray` and what it calls. A write past a buffer, and the use of a length that `sscanf` has not set, is `none`. The
bits of numbers and the addresses of names come from outside.
-/

namespace CompilerLab.Derivative

open CompilerLab.Lib CompilerLab.Lib.Scanf

def MAX_TOKENS : Nat := 200

def MAX_TOKEN_LEN : Nat := 10

/-- `Types`. -/
inductive Types where
  | NUM_T | VAR_T | OP_T
  deriving DecidableEq, Repr

namespace Operations

/-- The operations in the order of the enumeration. -/
def all : List Operations :=
  [UNKNOWN, ADD, SUB, DIV, MUL, SQR, POW, SIN, COS, TG, CTG, ARCCOS, ARCSIN, LN, LOG, OPEN_BR, CLOSE_BR, TERMINATION_SYM]

/-- The number of an operation. -/
def code (o : Operations) : Nat := all.idxOf o

end Operations

/-- What the lexer does not make itself: the bits of the double a text stands for, and the address of the name of the
`k`th token. -/
structure Environment where
  strtod : List Char → BitVec 64
  calloc : Nat → BitVec 64
  aligned : ∀ k, 16 ∣ (calloc k).toNat

/-- `Token`. All members of `Values` are the one `value`; `name` are the characters `var_name` points to. -/
structure Token where
  type : Types
  value : BitVec 64
  name : List Char
  deriving DecidableEq, Repr

/-- The member `op_val` of `Values`: the low half of the bits. -/
def opVal (value : BitVec 64) : Option Operations := Operations.all[value.toNat % 2 ^ 32]?

/-- The member `op_val`, whatever the type of the token is. -/
def Token.op_val (tok : Token) : Option Operations := opVal tok.value

/-- `CreateToken (OP_T, 0, op_t, i)`. -/
def createToken (op_t : Operations) : Token := { type := .OP_T, value := BitVec.ofNat 64 op_t.code, name := [] }

/-! ## `GetOpType` -/

def symbols : List (Char × Operations) :=
  [('+', .ADD), ('-', .SUB), ('*', .MUL), ('/', .DIV), ('^', .POW), ('(', .OPEN_BR), (')', .CLOSE_BR)]

def functionNames : List (List Char × Operations) :=
  [(['s', 'i', 'n'], .SIN), (['c', 'o', 's'], .COS), (['t', 'g'], .TG), (['c', 't', 'g'], .CTG), (['l', 'n'], .LN),
    (['a', 'r', 'c', 'c', 'o', 's'], .ARCCOS), (['a', 'r', 'c', 's', 'i', 'n'], .ARCSIN)]

/-- `GetOpType`; the string ends where the list does. -/
def getOpType : List Char → Operations
  | [] => .TERMINATION_SYM
  | c :: str =>
      match symbols.lookup c with
      | some operation => operation
      | none => (functionNames.lookup (c :: str)).getD .UNKNOWN

/-! ## `FillTokensArray` -/

/-- The characters at which `%[^+-*/() ]` stops. The range from `+` to `*` is empty; glibc takes its minus for itself. -/
def nameStop : List Char := ['+', '-', '*', '/', '(', ')', ' ']

/-- The token at the beginning of the input, and what is left. -/
def nextToken (env : Environment) (k : Nat) : List Char → Option (Token × List Char)
  | [] => some (createToken (getOpType []), [])
  | c :: input =>
      if c.isAlpha then
        if ((c :: input).dropWhile Char.isAlpha).head? = some '(' then
          match except ['(', ' '] (c :: input) with
          | .item op_name rest => if op_name.length < 100 then some (createToken (getOpType op_name), rest) else none
          | _ => none
        else
          match except nameStop (c :: input) with
          | .item name rest =>
              if name.length < MAX_TOKEN_LEN then some ({ type := .VAR_T, value := env.calloc k, name }, rest) else none
          | _ => none
      else if c.isDigit then
        match number (c :: input) with
        | .item text rest => some ({ type := .NUM_T, value := env.strtod text, name := [] }, rest)
        | _ => none
      else some (createToken (getOpType (c :: input)), input)

/-- The loop of `FillTokensArray` with `k` tokens in the array; it ends behind the terminating zero. -/
def fillTokensArray (env : Environment) : Nat → Nat → List Char → Option (List Token)
  | 0, _, _ => none
  | fuel + 1, k, input =>
      if k < MAX_TOKENS then do
        let (token, rest) ← nextToken env k (skip input)
        if skip input = [] then return [token]
        let tokens ← fillTokensArray env fuel (k + 1) rest
        return token :: tokens
      else none

end CompilerLab.Derivative
