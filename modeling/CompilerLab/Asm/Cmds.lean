import CompilerLab.Lib.ByteStream

/-!
# Commands of the stack processor

The tables `cmds.h` and `line_to_cmds.h`, and what the assembler and the processor share.
-/

namespace CompilerLab.Asm

open Lib

abbrev Byte := BitVec 8

/-- A C string without its terminator. -/
abbrev Str := List Char

instance : LawfulBEq Str := inferInstanceAs (LawfulBEq (List Char))

/-- The bits of an `elem_t`. -/
abbrev Elem := BitVec 64

/-- The operations on doubles. `strtod` is the value of the text of a number. -/
structure Doubles where
  strtod : Str → Elem
  ofInt : Int → Elem
  toInt : Elem → Int
  add : Elem → Elem → Elem
  sub : Elem → Elem → Elem
  mul : Elem → Elem → Elem
  div : Elem → Elem → Elem
  sqrt : Elem → Elem
  sin : Elem → Elem
  cos : Elem → Elem
  abs : Elem → Elem
  ceil : Elem → Elem
  lt : Elem → Elem → Bool
  le : Elem → Elem → Bool
  eq : Elem → Elem → Bool

inductive Commands where
  | HLT | PUSH | POP | MUL | ADD | SUB | DIV | OUT | DMP | JMP | JB | JBE | JA | JAE | JE | JNE | IN | CALL | RET | SQR | SIN
  | COS | ABS | ROUND | END
  deriving DecidableEq, Repr

namespace Commands

def num : Commands → Nat
  | HLT => 0
  | PUSH => 1
  | POP => 6
  | MUL => 2
  | ADD => 3
  | SUB => 4
  | DIV => 5
  | OUT => 7
  | DMP => 8
  | JMP => 9
  | JB => 10
  | JBE => 11
  | JA => 12
  | JAE => 13
  | JE => 14
  | JNE => 15
  | IN => 16
  | CALL => 17
  | RET => 18
  | SQR => 19
  | SIN => 23
  | COS => 25
  | ABS => 26
  | ROUND => 27
  | END => 28

/-- The names in the order of `cmds.h`. -/
def table : List (Str × Commands) :=
  [(['h', 'l', 't'], HLT), (['p', 'u', 's', 'h'], PUSH), (['p', 'o', 'p'], POP), (['m', 'u', 'l'], MUL),
    (['a', 'd', 'd'], ADD), (['s', 'u', 'b'], SUB), (['d', 'i', 'v'], DIV), (['o', 'u', 't'], OUT), (['d', 'm', 'p'], DMP),
    (['j', 'm', 'p'], JMP), (['j', 'b'], JB), (['j', 'b', 'e'], JBE), (['j', 'a'], JA), (['j', 'a', 'e'], JAE),
    (['j', 'e'], JE), (['j', 'n', 'e'], JNE), (['i', 'n'], IN), (['c', 'a', 'l', 'l'], CALL), (['r', 'e', 't'], RET),
    (['s', 'q', 'r'], SQR), (['s', 'i', 'n'], SIN), (['c', 'o', 's'], COS), (['a', 'b', 's'], ABS),
    (['r', 'o', 'u', 'n', 'd'], ROUND), (['e', 'n', 'd'], END)]

def byte (cmd : Commands) : Byte := BitVec.ofNat 8 cmd.num

/-- The `case` of a command. -/
def ofByte (b : Byte) : Option Commands := (table.map Prod.snd).find? fun cmd => cmd.byte == b

@[simp] theorem ofByte_byte (cmd : Commands) : ofByte cmd.byte = some cmd := by cases cmd <;> rfl

end Commands

def CMD_BITMASK : Byte := 0b00011111
def ARG_IMMED : Byte := 0b00100000
def ARG_REG : Byte := 0b01000000
def ARG_MEM : Byte := 0b10000000

/-- The test `cmd & mask`. -/
def hasBit (cmd mask : Byte) : Bool := cmd &&& mask != 0

def SERVICE_DATA_LEN : Int := 8
def MULTI_BYTE_OFFSET : Int := 9

/-! ## The array of commands -/

/-- Bytes are stored from an index on. -/
def poke (commands : Int → Byte) (i : Int) (bytes : List Byte) : Int → Byte := fun k =>
  if i ≤ k ∧ k < i + bytes.length then bytes.getD (k - i).toNat 0 else commands k

/-- The `elem_t` at an index. -/
def peek (commands : Int → Byte) (i : Int) : Elem :=
  BitVec.ofNat 64 (ofBytes ((List.range 8).map fun k : Nat => commands (i + k)))

def elemBytes (x : Elem) : List Byte := toBytes 8 x.toNat

@[simp] theorem length_elemBytes (x : Elem) : (elemBytes x).length = 8 := length_toBytes 8 _

variable {commands commands' : Int → Byte} {i k : Int} {bytes : List Byte} {x : Elem}

theorem poke_of_lt (h : k < i) : poke commands i bytes k = commands k := if_neg (by omega)

theorem poke_of_le (h : i + bytes.length ≤ k) : poke commands i bytes k = commands k := if_neg (by omega)

theorem poke_at {n : Nat} (h : n < bytes.length) : poke commands i bytes (i + n) = bytes[n] := by
  have hsub : (i + n - i).toNat = n := by omega
  rw [poke, if_pos (by omega), hsub, List.getD_eq_getElem?_getD, List.getElem?_eq_getElem h, Option.getD_some]

theorem peek_congr (h : ∀ n : Nat, n < 8 → commands (i + n) = commands' (i + n)) :
    peek commands i = peek commands' i := by
  rw [peek, peek]
  congr 2
  exact List.map_congr_left fun n hn => h n (List.mem_range.mp hn)

theorem peek_poke : peek (poke commands i (elemBytes x)) i = x := by
  have hbytes : ((List.range 8).map fun k : Nat => poke commands i (elemBytes x) (i + k)) = elemBytes x := by
    refine List.ext_getElem (by simp) fun n hn hn' => ?_
    rw [List.getElem_map, List.getElem_range]
    exact poke_at hn'
  have hlt : x.toNat < 256 ^ 8 := x.isLt
  rw [peek, hbytes, elemBytes, ofBytes_toBytes_of_lt hlt, BitVec.ofNat_toNat, BitVec.setWidth_eq]

theorem peek_poke_of_lt (h : i + 8 ≤ k) : peek (poke commands k bytes) i = peek commands i :=
  peek_congr fun n hn => poke_of_lt (by omega)

theorem peek_poke_of_le (h : k + bytes.length ≤ i) : peek (poke commands k bytes) i = peek commands i :=
  peek_congr fun n hn => poke_of_le (by omega)

end CompilerLab.Asm
