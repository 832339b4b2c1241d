import CompilerLab.Asm.Cmds
import CompilerLab.Lib.Scanf

/-!
# The assembler

`asm.cpp`. The lines of the text are those `HandleTextStruct` makes, without their line ends. A result is `none` where the source
reads or writes outside of an array.
-/

namespace CompilerLab.Asm

open Lib.Scanf

def MAX_LABELS : Nat := 100
def MAX_CMD_LEN : Nat := 20

structure Label where
  name : Str
  label_pos : Int
  deriving DecidableEq, Repr

structure Assembler where
  commands : Int → Byte
  /-- The number of bytes that have been allocated for the commands. -/
  capacity : Nat
  cur_len : Int
  labels : List Label

/-! ## Strings -/

/-- A copy of a string in an array. -/
def strcpy (size : Nat) (s : Str) : Option Str := if s.length < size then some s else none

/-- The string from a position on. -/
def after (n : Nat) (s : Str) : Option Str := if n ≤ s.length then some (s.drop n) else none

/-! ## Commands -/

namespace Assembler

def write (a : Assembler) (i : Int) (bytes : List Byte) : Option Assembler :=
  if 0 ≤ i ∧ i + bytes.length ≤ a.capacity then some { a with commands := poke a.commands i bytes } else none

end Assembler

def GetRegNum (reg : Str) : Byte :=
  if reg[0]? = some 'r' ∧ reg[2]? = some 'x' then BitVec.ofNat 8 (reg.getD 1 '\x00').toNat - BitVec.ofNat 8 'a'.toNat else 0

def GetCmdNum (cmd : Str) : Byte :=
  match Commands.table.find? fun entry => cmd == entry.1 with
  | some entry => entry.2.byte
  | none => -1

/-- A bracket and the last character of the first word are replaced by blanks. -/
def HandleRam (cmd_line : Str) : Option (Str × Bool) :=
  if cmd_line.head? = some '[' then
    let cmd_line := ' ' :: cmd_line.tail
    match word cmd_line with
    | .item tmp_str rest => do
        let _ ← strcpy 10 tmp_str
        let cmd_len := cmd_line.length - rest.length
        return (cmd_line.set (cmd_len - 1) ' ', true)
    | _ => none
  else some (cmd_line, false)

/-- `sscanf (line, "%lg+%s", ..)`, when both are read. -/
def scanImmReg (line : Str) : Option (Str × Str) :=
  match number line with
  | .item imm rest =>
      match literal '+' rest with
      | some rest =>
          match word rest with
          | .item reg _ => some (imm, reg)
          | _ => none
      | none => none
  | _ => none

/-- `sscanf (line, " %[^+ ] + %lg", ..)`, when both are read. -/
def scanRegImm (line : Str) : Option (Str × Str) :=
  match except ['+', ' '] (skip line) with
  | .item reg rest =>
      match literal '+' (skip rest) with
      | some rest =>
          match number (skip rest) with
          | .item imm _ => some (imm, reg)
          | _ => none
      | none => none
  | _ => none

section Lines

variable (d : Doubles)

/-- The argument of a command: its bits, its value and its register. -/
inductive Arg where
  | immReg (imm : Elem) (reg : Byte)
  | imm (imm : Elem)
  | reg (reg : Byte)
  deriving DecidableEq, Repr

/-- The cases of `HandlePushPop`. At the end of the input `sscanf` returns `EOF`, which is not zero. -/
def parseArg (cmd_line_copy : Str) : Arg :=
  match (scanImmReg cmd_line_copy).or (scanRegImm cmd_line_copy) with
  | some (tmp_imm, tmp_reg) => .immReg (d.strtod tmp_imm) (GetRegNum tmp_reg)
  | none =>
      match number cmd_line_copy with
      | .item tmp_imm _ => .imm (d.strtod tmp_imm)
      | .eof => .imm (d.ofInt 0)
      | .mismatch => .reg (GetRegNum cmd_line_copy)

/-- The stores of `HandlePushPop`. -/
def writeArg (a : Assembler) (cmd_byte : Byte) : Arg → Option Assembler
  | .immReg tmp_imm reg_number => do
      let a ← a.write a.cur_len [cmd_byte ||| ARG_IMMED ||| ARG_REG]
      let a ← a.write (a.cur_len + 1) (elemBytes tmp_imm)
      a.write (a.cur_len + MULTI_BYTE_OFFSET) [reg_number]
  | .imm tmp_imm => do
      let a ← a.write a.cur_len [cmd_byte ||| ARG_IMMED]
      a.write (a.cur_len + 1) (elemBytes tmp_imm)
  | .reg reg_number => do
      let a ← a.write a.cur_len [cmd_byte ||| ARG_REG]
      a.write (a.cur_len + MULTI_BYTE_OFFSET) [reg_number]

def HandlePushPop (a : Assembler) (cur_cmd_line : Str) (cmd_type : Commands) : Option (Assembler × Int) := do
  let cmd_line_copy ← strcpy MAX_CMD_LEN cur_cmd_line
  let (cmd_line_copy, ram) ← HandleRam cmd_line_copy
  let cmd_byte := if ram then cmd_type.byte ||| ARG_MEM else cmd_type.byte
  return (← writeArg a cmd_byte (parseArg d cmd_line_copy), 10)

/-! ## Labels -/

/-- The length of a label with its colon, zero when the line is not a label. -/
def IsLabel (line : Str) : Option Nat :=
  match word line with
  | .item tmp_line rest => do
      let _ ← strcpy MAX_CMD_LEN tmp_line
      let label_len := line.length - rest.length
      return if getElem? line (label_len - 1) = some ':' then label_len else 0
  | _ => none

def InsertLabel (a : Assembler) (label : Str) (label_len : Nat) : Option Assembler := do
  let label_copy ← strcpy MAX_CMD_LEN label
  let label_copy := label_copy.take (label_len - 1)
  if label_copy ∈ a.labels.map Label.name then return a
  else if a.labels.length < MAX_LABELS then return { a with labels := a.labels ++ [⟨label_copy, a.cur_len⟩] }
  else none

def FindLabel (a : Assembler) (label_name : Str) : Option Label := a.labels.find? fun label => label_name == label.name

def ParseJmp (a : Assembler) (cur_cmd_line : Str) (jmp_type : Commands) : Option (Assembler × Int) := do
  let cur_cmd_line ← after 1 cur_cmd_line
  let label_name ← match word cur_cmd_line with
    | .item label_name _ => strcpy MAX_CMD_LEN label_name
    | _ => some []
  let label_pos := match FindLabel a label_name with
    | some label => label.label_pos
    | none => -1
  let a ← a.write (a.cur_len + 1) (elemBytes (d.ofInt label_pos))
  let a ← a.write a.cur_len [jmp_type.byte]
  return (a, 10)

def IsJmp (a : Assembler) (line : Str) : Option (Assembler × Int) :=
  match Commands.table.find? fun entry => entry.1.isPrefixOf line with
  | some entry => ParseJmp d a (line.drop entry.1.length) entry.2
  | none => some (a, -1)

/-! ## Lines -/

/-- The cases of `line_to_cmds.h` and the case after them. -/
def generate (a : Assembler) (line : Str) : Option (Assembler × Int) :=
  if ['p', 'u', 's', 'h'].isPrefixOf line then do HandlePushPop d a (← after 5 line) .PUSH
  else if ['p', 'o', 'p'].isPrefixOf line then do HandlePushPop d a (← after 4 line) .POP
  else if ['j', 'm', 'p'].isPrefixOf line then ParseJmp d a (line.drop 3) .JMP
  else if ['j'].isPrefixOf line then IsJmp d a line
  else if ['c', 'a', 'l', 'l'].isPrefixOf line then IsJmp d a line
  else do return (← a.write a.cur_len [GetCmdNum line], 1)

def LineToCommands (a : Assembler) (line : Str) : Option (Assembler × Int) :=
  if line.head? = some ';' then some (a, 0)
  else do
    let label_len ← IsLabel line
    if label_len ≠ 0 then return (← InsertLabel a line label_len, 0) else generate d a line

/-- One round of the loop of `EachLineToBin`. -/
def nextLine (a : Assembler) (line : Str) : Option Assembler := do
  let (a, len) ← LineToCommands d a line
  return { a with cur_len := a.cur_len + len }

def EachLineToBin (RawCmd : List Str) (a : Assembler) : Option Assembler := RawCmd.foldlM (nextLine d) a

def AsmInfoCtor (RawCmd : List Str) : Assembler where
  commands := fun _ => 0
  capacity := 32 * RawCmd.length
  cur_len := SERVICE_DATA_LEN
  labels := []

def CmdsToZero (RawCmd : List Str) (a : Assembler) : Option Assembler :=
  { a with cur_len := SERVICE_DATA_LEN }.write 0 (List.replicate (2 * RawCmd.length) 0)

/-- The signature, the version of the assembler and the length. -/
def WriteProgramHeader (a : Assembler) : Option Assembler :=
  a.write 0 ([0x43, 0x55, 0x4d, 2] ++ Lib.toBytes 4 (BitVec.ofInt 32 a.cur_len).toNat)

def RawToBin (RawCmd : List Str) : Option Assembler := do
  let a ← EachLineToBin d RawCmd (AsmInfoCtor RawCmd)
  let a ← CmdsToZero RawCmd a
  let a ← EachLineToBin d RawCmd a
  WriteProgramHeader a

end Lines

end CompilerLab.Asm
