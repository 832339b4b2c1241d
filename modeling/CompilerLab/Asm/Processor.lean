import CompilerLab.Asm.Cmds

/-!
# The processor

`proc.cpp` and the commands of `cmds.h`. A result is `none` where the source reads or writes outside of an array or reads from an
empty stack; the array of the stack is taken to be long enough.
-/

namespace CompilerLab.Asm

open Lib

/-- The first element of the stack is its top. Input and output are the numbers that are still to be read and that have been
written. -/
structure Processor where
  Regs : Fin 10 → Elem
  Ram : Fin 3000 → Elem
  stack : List Elem
  input : List Elem
  output : List Elem

/-- A pointer to a register or into the memory. -/
inductive Ptr where
  | reg (i : Fin 10)
  | ram (i : Fin 3000)
  deriving DecidableEq, Repr

/-- Whether the processor stops, the instruction pointer before it is increased, and the state. -/
abbrev Outcome := Bool × Int × Processor

namespace Processor

def deref (s : Processor) : Ptr → Elem
  | .reg i => s.Regs i
  | .ram i => s.Ram i

def assign (s : Processor) (p : Ptr) (x : Elem) : Processor :=
  match p with
  | .reg i => { s with Regs := Function.update s.Regs i x }
  | .ram i => { s with Ram := Function.update s.Ram i x }

def StackPop (s : Processor) : Option (Elem × Processor) :=
  match s.stack with
  | x :: stack => some (x, { s with stack })
  | [] => none

def StackPush (s : Processor) (x : Elem) : Processor := { s with stack := x :: s.stack }

end Processor

open Processor

section Commands

variable (d : Doubles) (code : Int → Byte) (ip : Int) (s : Processor)

def index (n : Nat) (i : Int) : Option (Fin n) := if h : 0 ≤ i ∧ i < n then some ⟨i.toNat, by omega⟩ else none

/-- `CpuInfo->Regs + reg_indx`. -/
def regPtr : Option (Fin 10) := index 10 (code MULTI_BYTE_OFFSET).toInt

/-- The value of an argument before the memory is looked at, and the pointer to it. -/
def GetReg (cmd : Byte) : Option (Option Ptr × Elem) :=
  let val := if hasBit cmd ARG_IMMED then peek code 1 else 0
  if hasBit cmd ARG_REG then
    if hasBit cmd ARG_IMMED then (regPtr code).map fun i => (none, d.add val (s.Regs i))
    else (regPtr code).map fun i => (some (.reg i), s.Regs i)
  else some (none, val)

def GetArg (cmd : Byte) : Option (Option Ptr × Elem) := do
  let (arg_ptr, val) ← GetReg d code s cmd
  if hasBit cmd ARG_MEM then (index 3000 (d.toInt val)).map fun i => (some (.ram i), val) else some (arg_ptr, val)

/-- `LABLE_POS`. -/
def lablePos : Int := d.toInt (d.sub (peek code 1) (d.ofInt 1))

def push : Option Outcome := do
  let (arg, value) ← GetArg d code s (code 0)
  let value := match arg with
    | some p => s.deref p
    | none => value
  return (false, ip + MULTI_BYTE_OFFSET, s.StackPush value)

def pop : Option Outcome := do
  let (arg, _) ← GetArg d code s (code 0)
  match arg with
  | some p => do
      let (x, s) ← s.StackPop
      return (false, ip + MULTI_BYTE_OFFSET, s.assign p x)
  | none => return (false, ip + MULTI_BYTE_OFFSET, s)

/-- The commands that replace the two topmost elements, of which the upper one is the left operand. -/
def binary (op : Elem → Elem → Elem) : Option Outcome := do
  let (x, s) ← s.StackPop
  let (y, s) ← s.StackPop
  return (false, ip, s.StackPush (op x y))

/-- The commands that replace the topmost element. -/
def unary (op : Elem → Elem) : Option Outcome := do
  let (x, s) ← s.StackPop
  return (false, ip, s.StackPush (op x))

/-- The conditional jumps; the upper one of the two topmost elements is the left operand. -/
def jumpIf (cond : Elem → Elem → Bool) : Option Outcome := do
  let (x, s) ← s.StackPop
  let (y, s) ← s.StackPop
  return (false, if cond x y then lablePos d code else ip + MULTI_BYTE_OFFSET, s)

/-- The code of a command. -/
def perform : Commands → Option Outcome
  | .HLT => some (true, ip, s)
  | .PUSH => push d code ip s
  | .POP => pop d code ip s
  | .MUL => binary ip s d.mul
  | .ADD => binary ip s d.add
  | .SUB => binary ip s d.sub
  | .DIV => binary ip s d.div
  | .OUT => do
      let (x, s) ← s.StackPop
      return (false, ip, { s with output := s.output ++ [x] })
  | .DMP => some (false, ip, s)
  | .JMP => some (false, lablePos d code, s)
  | .JB => jumpIf d code ip s d.lt
  | .JBE => jumpIf d code ip s d.le
  | .JA => jumpIf d code ip s fun x y => d.lt y x
  | .JAE => jumpIf d code ip s fun x y => d.le y x
  | .JE => jumpIf d code ip s d.eq
  | .JNE => jumpIf d code ip s fun x y => !d.eq x y
  | .IN =>
      match s.input with
      | x :: input => some (false, ip, { s with input, stack := x :: s.stack })
      | [] => none
  | .CALL => some (false, lablePos d code, s.StackPush (d.ofInt (ip + MULTI_BYTE_OFFSET)))
  | .RET =>
      match s.stack with
      | [] => some (true, ip, s)
      | x :: stack => some (false, d.toInt x, { s with stack })
  | .SQR => unary ip s d.sqrt
  | .SIN => unary ip s d.sin
  | .COS => unary ip s d.cos
  | .ABS => unary ip s d.abs
  | .ROUND => unary ip s d.ceil
  | .END => some (false, ip, s)

/-- An unknown command stops the processor. -/
def ProcessCommand : Option Outcome :=
  match Commands.ofByte (code 0 &&& CMD_BITMASK) with
  | some cmd => perform d code ip s cmd
  | none => some (true, ip, s)

end Commands

/-- One round of the loop of `Execute`. -/
def executeRound (d : Doubles) (cmds : Int → Byte) (ip : Int) (s : Processor) : Option Outcome := do
  let (exit_flag, ip, s) ← ProcessCommand d (fun k => cmds (ip + k)) ip s
  return (exit_flag, if exit_flag then ip else ip + 1, s)

/-- At most `n` rounds of the loop of `Execute`. -/
def Execute (d : Doubles) (cmds : Int → Byte) (cmds_amount : Int) : Nat → Int → Processor → Option Outcome
  | 0, ip, s => some (false, ip, s)
  | n + 1, ip, s =>
      if ip < cmds_amount then do
        let (exit_flag, ip, s) ← executeRound d cmds ip s
        if exit_flag then return (true, ip, s) else Execute d cmds cmds_amount n ip s
      else some (true, ip, s)

end CompilerLab.Asm
