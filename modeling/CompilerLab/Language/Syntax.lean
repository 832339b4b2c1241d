import CompilerLab.Asm.Processor
import CompilerLab.Language.Variables

/-!
# Programs and their meaning

The programs there is code for, with their trees, and what they do. Loops, calls in expressions and the operators that are printed
as nothing or as another one have no place here.
-/

namespace CompilerLab.Language

open Options TreeNode Asm

/-! ## Syntax -/

inductive BinaryOp where
  | ADD | SUB | MUL | DIV
  deriving DecidableEq, Repr

inductive UnaryOp where
  | SIN | SQRT
  deriving DecidableEq, Repr

/-- The comparisons that are printed. -/
inductive Comparison where
  | IS_EE | IS_NE | IS_BT
  deriving DecidableEq, Repr

inductive Expr where
  | number (bits : BitVec 64)
  | variable (name : String)
  | binary (op : BinaryOp) (left right : Expr)
  | unary (op : UnaryOp) (operand : Expr)
  deriving DecidableEq, Repr

inductive Stmt where
  | skip
  | seq (first rest : Stmt)
  /-- `VAR` with an expression. -/
  | set (name : String) (value : Expr)
  /-- `VAR` with a call. -/
  | setCall (name func_name : String) (args : List String)
  | call (func_name : String) (args : List String)
  | input (names : List String)
  | output (names : List String)
  | cond (comparison : Comparison) (left right : Expr) (if_body else_body : Stmt)
  | ret (names : List String)
  deriving DecidableEq, Repr

/-- A declaration. -/
structure Func where
  name : String
  params : List String
  body : Stmt
  deriving DecidableEq, Repr

abbrev Program := List Func

/-! ## Trees -/

def BinaryOp.option : BinaryOp → Options
  | ADD => .ADD
  | SUB => .SUB
  | MUL => .MUL
  | DIV => .DIV

def UnaryOp.option : UnaryOp → Options
  | SIN => .SIN
  | SQRT => .SQRT

def Comparison.option : Comparison → Options
  | IS_EE => .IS_EE
  | IS_NE => .IS_NE
  | IS_BT => .IS_BT

def Expr.tree : Expr → TreeNode
  | number bits => DIGIT_NODE bits
  | .variable name => VAR_NODE name
  | binary op left right => OP_NODE op.option left.tree right.tree
  | unary op operand => OP_NODE op.option operand.tree .null

/-- A list of parameters. -/
def paramsTree : List String → TreeNode
  | [] => .null
  | name :: names => OP_NODE PARAM (VAR_NODE name) (paramsTree names)

def callTree (func_name : String) (args : List String) : TreeNode :=
  OP_NODE CALL (.node .NAME_SHORT_T (.var_name func_name) .null .null) (paramsTree args)

def Stmt.tree : Stmt → TreeNode
  | skip => .null
  | seq first rest => OP_NODE ST first.tree rest.tree
  | set name value => OP_NODE VAR (VAR_NODE name) value.tree
  | setCall name func_name args => OP_NODE VAR (VAR_NODE name) (callTree func_name args)
  | call func_name args => callTree func_name args
  | input names => OP_NODE IN (paramsTree names) .null
  | output names => OP_NODE OUT (paramsTree names) .null
  | cond comparison left right if_body else_body =>
      OP_NODE IF (OP_NODE comparison.option left.tree right.tree) (OP_NODE ELSE if_body.tree else_body.tree)
  | ret names => OP_NODE RET (paramsTree names) .null

def Func.tree (f : Func) : TreeNode :=
  OP_NODE FUNC (.node .NAME_T (.var_name f.name) (paramsTree f.params) .null) f.body.tree

def Program.tree : Program → TreeNode
  | [] => .null
  | f :: p => OP_NODE ST f.tree (tree p)

/-! ## Meaning -/

/-- The numbers that are still to be read and those that have been written. -/
structure Console where
  input : List Elem
  output : List Elem
  deriving DecidableEq, Repr

/-- The values of the variables that have one. -/
abbrev Vars := String → Option Elem

/-- How a statement ends. -/
inductive Flow where
  | next (vars : Vars)
  | returned (values : List Elem)

/-- What a call does, from the name, the arguments, the position of the new frame and the console. -/
abbrev Invoke := String → List Elem → Nat → Console → Option (List Elem × Console)

/-- The right operand of `ADD` and of `MUL` is the upper one on the stack, and the left one of the others. -/
def BinaryOp.apply (d : Doubles) : BinaryOp → Elem → Elem → Elem
  | ADD, x, y => d.add y x
  | SUB, x, y => d.sub x y
  | MUL, x, y => d.mul y x
  | DIV, x, y => d.div x y

def UnaryOp.apply (d : Doubles) : UnaryOp → Elem → Elem
  | SIN => d.sin
  | SQRT => d.sqrt

def Comparison.holds (d : Doubles) : Comparison → Elem → Elem → Bool
  | IS_EE, x, y => d.eq y x
  | IS_NE, x, y => !d.eq y x
  | IS_BT, x, y => !d.le y x

section
variable (d : Doubles) (number : BitVec 64 → Elem)

def Expr.eval (vars : Vars) : Expr → Option Elem
  | .number bits => some (number bits)
  | .variable name => vars name
  | binary op left right => do return op.apply d (← left.eval vars) (← right.eval vars)
  | unary op operand => do return op.apply d (← operand.eval vars)

/-- The variables are read one after the other. -/
def readInput : List String → Vars → Console → Option (Vars × Console)
  | [], vars, console => some (vars, console)
  | name :: names, vars, console =>
      match console.input with
      | x :: input => readInput names (Function.update vars name (some x)) { console with input }
      | [] => none

/-- The names get the values in their order. -/
def bindParams : List String → List Elem → Vars → Vars
  | name :: names, x :: values, vars => bindParams names values (Function.update vars name (some x))
  | _, _, vars => vars

/-- `names` are those the function has before the statement, and `base` is where its frame begins. -/
def Stmt.exec (invoke : Invoke) (base : Nat) : Stmt → List String → Vars → Console → Option (Flow × Console)
  | skip, _, vars, console => some (.next vars, console)
  | seq first rest, names, vars, console => do
      match ← first.exec invoke base names vars console with
      | (.next vars, console) => rest.exec invoke base (first.tree.namesAfter names) vars console
      | (.returned values, console) => some (.returned values, console)
  | set name value, _, vars, console => do
      let x ← value.eval d number vars
      some (.next (Function.update vars name (some x)), console)
  | setCall name func_name args, names, vars, console => do
      let values ← args.mapM vars
      match ← invoke func_name values (base + (addName names name).length + 1) console with
      | ([x], console) => some (.next (Function.update vars name (some x)), console)
      | _ => none
  | call func_name args, names, vars, console => do
      let values ← args.mapM vars
      match ← invoke func_name values (base + names.length + 1) console with
      | ([], console) => some (.next vars, console)
      | _ => none
  | input params, _, vars, console => do
      let (vars, console) ← readInput params vars console
      some (.next vars, console)
  | output params, _, vars, console => do
      let values ← params.mapM vars
      some (.next vars, { console with output := console.output ++ values })
  | cond comparison left right if_body else_body, names, vars, console => do
      let x ← left.eval d number vars
      let y ← right.eval d number vars
      let names := (OP_NODE comparison.option left.tree right.tree).namesAfter names
      if comparison.holds d x y then if_body.exec invoke base names vars console
      else else_body.exec invoke base (if_body.tree.namesAfter names) vars console
  | ret params, _, vars, console => do
      let values ← params.mapM vars
      some (.returned values, console)

/-- The names of the parameters in the order of their slots. -/
def Func.paramNames (f : Func) : List String := (paramsTree f.params).namesAfter []

/-- All names of a function. -/
def Func.names (f : Func) : List String := f.body.tree.namesAfter f.paramNames

/-- A call of one of the functions. The first parameter gets the last argument. The frame has to be in memory. -/
def Program.invoke (p : Program) : Nat → Invoke
  | 0, _, _, _, _ => none
  | fuel + 1, func_name, args, base, console => do
      let f ← p.find? fun f => f.name = func_name
      if f.params.length = args.length ∧ base + f.names.length ≤ 3000 then
        match ← f.body.exec d number (invoke p fuel) base f.paramNames (bindParams f.params args.reverse fun _ => none) console with
        | (.returned values, console) => some (values, console)
        | _ => none
      else none

/-- What is left to read and has been written when `main` returns. -/
def Program.run (p : Program) (fuel : Nat) (input : List Elem) : Option Console := do
  let (_, console) ← p.invoke d number fuel "main" [] 0 { input, output := [] }
  return console

end

end CompilerLab.Language
