import CompilerLab.Leech.LeechObj
import Mathlib.Data.List.AList

/-!
# Leech files

`leechfile.cc` and the instructions of `common.hh`.
-/

namespace CompilerLab.Leech

open Lib

/-- `Instruction`; the callback of an opcode is found when the instruction is executed. -/
structure Instruction where
  opcode : Opcodes := .UNKNOWN
  arg : Byte := 0
  deriving DecidableEq, Repr

namespace Instruction

/-- The constructor of `Instruction` from the underlying value of an opcode. -/
def make (opcode : Byte) (arg : Byte := 0) : Except Error Instruction :=
  match Opcodes.cast opcode with
  | some .UNKNOWN => .error (.invalid_argument "Trying to create Instruction with UNKNOWN opcode")
  | some opcode => .ok { opcode, arg }
  | none => .error (.runtime_error ("Unknown inst opcode: " ++ toString opcode.toNat))

def serialize (inst : Instruction) : List Byte := toBytes 1 inst.opcode.toUnderlying.toNat ++ toBytes 1 inst.arg.toNat

def deserialize : Istream Instruction := do
  let opcodeVal ← deserializeNum 1
  let arg ← deserializeNum 1
  make (BitVec.ofNat 8 opcodeVal) (BitVec.ofNat 8 arg)

end Instruction

structure FuncMeta where
  addr : BitVec 64 := 0
  argNum : BitVec 64 := 0
  cstPool : List LeechObj := []
  names : List Str := []

namespace FuncMeta

/-- The clones of the constants; there are no class objects when a file is read. -/
def clones (fm : FuncMeta) : Except Error (List LeechObj) := (LeechObj.cloneAll fm.cstPool).run' []

/-- The copy constructor. -/
def copy (fm : FuncMeta) : Except Error FuncMeta := do
  return { addr := fm.addr, names := fm.names, cstPool := ← fm.clones }

/-- `operator=`. -/
def assign (self fm : FuncMeta) : Except Error FuncMeta := do
  return { self with addr := fm.addr, names := fm.names, cstPool := self.cstPool ++ (← fm.clones) }

def serialize (fm : FuncMeta) : Except Error (List Byte) := do
  let csts ← LeechObj.serializeAll fm.cstPool
  return toBytes 8 fm.addr.toNat ++ toBytes 8 fm.argNum.toNat ++ toBytes 8 fm.cstPool.length ++ csts ++
    toBytes 8 fm.names.length ++ (fm.names.map serializeString).flatten

/-- `FuncMeta::deserialize`, for a stream of at most `fuel` bytes. -/
def deserialize (fuel : Nat) : Istream (Str × FuncMeta) := do
  let nameLen ← deserializeNum 8
  let name ← deserializeString nameLen
  let addr ← deserializeNum 8
  let argNum ← deserializeNum 8
  let cstNum ← deserializeNum 8
  let cstPool ← readMany (deserializeObj fuel) cstNum
  let nameNum ← deserializeNum 8
  let names ← readMany (do deserializeString (← deserializeNum 8)) nameNum
  return (name, { addr := BitVec.ofNat 64 addr, argNum := BitVec.ofNat 64 argNum, cstPool, names })

end FuncMeta

/-- The functions of a file by their names, in the order in which the map is traversed. -/
abbrev Funcs := AList fun _ : Str => FuncMeta

/-- `Meta`. -/
structure FileMeta where
  funcs : Funcs := ∅

namespace FileMeta

def serialize (fileMeta : FileMeta) : Except Error (List Byte) := do
  let funcs ← fileMeta.funcs.entries.mapM fun entry => do
    return serializeString entry.1 ++ (← entry.2.serialize)
  return toBytes 8 fileMeta.funcs.entries.length ++ funcs.flatten

/-- `funcs[name] = meta`. -/
def setFunc (funcs : Funcs) (entry : Str × FuncMeta) : Except Error Funcs := do
  return funcs.insert entry.1 (← ((funcs.lookup entry.1).getD {}).assign entry.2)

/-- The copy of a map of functions. -/
def copyFuncs (funcs : Funcs) : Except Error Funcs :=
  funcs.entries.foldlM (fun (copies : Funcs) entry => do return copies.insert entry.1 (← entry.2.copy)) ∅

/-- The loop of `Meta::deserialize`. -/
def readFuncs (fuel : Nat) (funcs : Funcs) : Nat → Istream Funcs
  | 0 => return funcs
  | n + 1 => do
      let entry ← FuncMeta.deserialize fuel
      let funcs ← setFunc funcs entry
      readFuncs fuel funcs n

/-- `Meta::deserialize`; the map is copied into the result. -/
def deserialize (fuel : Nat) : Istream FileMeta := do
  let fnum ← deserializeNum 8
  let funcs ← readFuncs fuel ∅ fnum
  return { funcs := ← copyFuncs funcs }

end FileMeta

structure LeechFile where
  fileMeta : FileMeta := {}
  code : List Instruction := []

namespace LeechFile

/-- `"theLEECH"`. -/
def theLEECH : Str := [0x74, 0x68, 0x65, 0x4c, 0x45, 0x45, 0x43, 0x48]

def serialize (file : LeechFile) : Except Error (List Byte) := do
  let fileMeta ← file.fileMeta.serialize
  return theLEECH ++ fileMeta ++ toBytes 8 file.code.length ++ (file.code.map Instruction.serialize).flatten

/-- `LeechFile::deserialize`; the functions are copied once more by the constructor of the file. -/
def deserializeFrom (fuel : Nat) : Istream LeechFile := do
  let magic ← deserializeString theLEECH.length
  if magic = theLEECH then do
    let fileMeta ← FileMeta.deserialize fuel
    let instNum ← deserializeNum 8
    let code ← readMany Instruction.deserialize instNum
    return { fileMeta := { funcs := ← FileMeta.copyFuncs fileMeta.funcs }, code }
  else throw (.runtime_error "Wrong magic number value")

def deserialize (bytes : List Byte) : Except Error LeechFile := (deserializeFrom bytes.length).run' bytes

end LeechFile

end CompilerLab.Leech
