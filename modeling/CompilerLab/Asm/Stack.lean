import CompilerLab.Asm.Processor

/-!
# The stack of the processor

`stack.cpp`, and the commands of `cmds.h` on it. A run ends where the source reads or writes outside of an array. In `StackPop` and
`StackPush` the calls of `StackResize` are commented out, so the array keeps the capacity it was made with.
-/

namespace CompilerLab.Asm

/-- What goes wrong: an element of the stack that is read or written outside of it, another access, a number that is not there. -/
inductive Fault where
  | read | write | memory | input
  deriving DecidableEq, Repr

structure Stack where
  data : Int → Elem
  size : Int
  capacity : Int

namespace Stack

/-- `StackCtor`. -/
def ctor (capacity : Int) : Stack := { data := fun _ => 0, size := 0, capacity }

def StackPop (self : Stack) : Except Fault (Elem × Stack) :=
  let i := self.size - 1
  if 0 ≤ i then .ok (self.data i, { self with size := i }) else .error .read

def StackPush (self : Stack) (value : Elem) : Except Fault Stack :=
  if self.size < self.capacity then
    .ok { self with data := Function.update self.data self.size value, size := self.size + 1 }
  else .error .write

/-- The elements from the top down. -/
def toList (self : Stack) : List Elem := (List.range self.size.toNat).map fun k : Nat => self.data (self.size - 1 - k)

end Stack

/-- `Execute`'s stack with the registers, the memory, the input and the output. -/
structure Machine where
  MainStack : Stack
  Regs : Fin 10 → Elem
  Ram : Fin 3000 → Elem
  input : List Elem
  output : List Elem

namespace Machine

/-- The processor that the machine implements. -/
def cpu (s : Machine) : Processor where
  Regs := s.Regs
  Ram := s.Ram
  stack := s.MainStack.toList
  input := s.input
  output := s.output

def assign (s : Machine) (p : Ptr) (x : Elem) : Machine :=
  match p with
  | .reg i => { s with Regs := Function.update s.Regs i x }
  | .ram i => { s with Ram := Function.update s.Ram i x }

def StackPop (s : Machine) : Except Fault (Elem × Machine) := do
  let (x, MainStack) ← s.MainStack.StackPop
  return (x, { s with MainStack })

def StackPush (s : Machine) (x : Elem) : Except Fault Machine := do
  let MainStack ← s.MainStack.StackPush x
  return { s with MainStack }

section Commands

variable (d : Doubles) (code : Int → Byte) (ip : Int) (s : Machine)

def getArg : Except Fault (Option Ptr × Elem) :=
  match GetArg d code s.cpu (code 0) with
  | some a => .ok a
  | none => .error .memory

def push : Except Fault (Bool × Int × Machine) := do
  let (arg, value) ← s.getArg d code
  let value := match arg with
    | some p => s.cpu.deref p
    | none => value
  let s ← s.StackPush value
  return (false, ip + MULTI_BYTE_OFFSET, s)

def pop : Except Fault (Bool × Int × Machine) := do
  let (arg, _) ← s.getArg d code
  match arg with
  | some p => do
      let (x, s) ← s.StackPop
      return (false, ip + MULTI_BYTE_OFFSET, s.assign p x)
  | none => return (false, ip + MULTI_BYTE_OFFSET, s)

def binary (op : Elem → Elem → Elem) : Except Fault (Bool × Int × Machine) := do
  let (x, s) ← s.StackPop
  let (y, s) ← s.StackPop
  let s ← s.StackPush (op x y)
  return (false, ip, s)

def unary (op : Elem → Elem) : Except Fault (Bool × Int × Machine) := do
  let (x, s) ← s.StackPop
  let s ← s.StackPush (op x)
  return (false, ip, s)

def jumpIf (cond : Elem → Elem → Bool) : Except Fault (Bool × Int × Machine) := do
  let (x, s) ← s.StackPop
  let (y, s) ← s.StackPop
  return (false, if cond x y then lablePos d code else ip + MULTI_BYTE_OFFSET, s)

/-- The code of a command. -/
def perform : Commands → Except Fault (Bool × Int × Machine)
  | .HLT => .ok (true, ip, s)
  | .PUSH => push d code ip s
  | .POP => pop d code ip s
  | .MUL => binary ip s d.mul
  | .ADD => binary ip s d.add
  | .SUB => binary ip s d.sub
  | .DIV => binary ip s d.div
  | .OUT => do
      let (x, s) ← s.StackPop
      return (false, ip, { s with output := s.output ++ [x] })
  | .DMP => .ok (false, ip, s)
  | .JMP => .ok (false, lablePos d code, s)
  | .JB => jumpIf d code ip s d.lt
  | .JBE => jumpIf d code ip s d.le
  | .JA => jumpIf d code ip s fun x y => d.lt y x
  | .JAE => jumpIf d code ip s fun x y => d.le y x
  | .JE => jumpIf d code ip s d.eq
  | .JNE => jumpIf d code ip s fun x y => !d.eq x y
  | .IN =>
      match s.input with
      | x :: input => do
          let s ← { s with input }.StackPush x
          return (false, ip, s)
      | [] => .error .input
  | .CALL => do
      let s ← s.StackPush (d.ofInt (ip + MULTI_BYTE_OFFSET))
      return (false, lablePos d code, s)
  | .RET =>
      if s.MainStack.size = 0 then .ok (true, ip, s)
      else do
        let (x, s) ← s.StackPop
        return (false, d.toInt x, s)
  | .SQR => unary ip s d.sqrt
  | .SIN => unary ip s d.sin
  | .COS => unary ip s d.cos
  | .ABS => unary ip s d.abs
  | .ROUND => unary ip s d.ceil
  | .END => .ok (false, ip, s)

def ProcessCommand : Except Fault (Bool × Int × Machine) :=
  match Commands.ofByte (code 0 &&& CMD_BITMASK) with
  | some cmd => perform d code ip s cmd
  | none => .ok (true, ip, s)

end Commands

/-- One round of the loop of `Execute`. -/
def executeRound (d : Doubles) (cmds : Int → Byte) (ip : Int) (s : Machine) : Except Fault (Bool × Int × Machine) := do
  let (exit_flag, ip, s) ← ProcessCommand d (fun k => cmds (ip + k)) ip s
  return (exit_flag, if exit_flag then ip else ip + 1, s)

/-- A round after which the loop of `Execute` goes on. -/
def Step (d : Doubles) (cmds : Int → Byte) (cmds_amount : Int) (p q : Int × Machine) : Prop :=
  p.1 < cmds_amount ∧ executeRound d cmds p.1 p.2 = .ok (false, q.1, q.2)

/-- The states of `Execute` before a round. -/
def Reaches (d : Doubles) (cmds : Int → Byte) (cmds_amount : Int) : Int × Machine → Int × Machine → Prop :=
  Relation.ReflTransGen (Step d cmds cmds_amount)

/-- The machine when `Execute` begins. -/
def IsStart (p : Int × Machine) : Prop := p.1 = SERVICE_DATA_LEN ∧ p.2.MainStack = Stack.ctor 2

end Machine

end CompilerLab.Asm
