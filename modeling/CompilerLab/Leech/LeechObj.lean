import CompilerLab.Leech.Opcodes
import CompilerLab.Lib.ByteStream

/-!
# Objects of the Leech machine

`leechobj.hh` and the serialization of `common.hh`. Only class objects are changed after they have been made, so a pointer to
another object is given by the object, and a pointer to a class object by its address.
-/

namespace CompilerLab.Leech

open Lib

inductive ValueType where
  | Unknown | Integer | Float | String | Tuple | Class | None
  deriving DecidableEq, Repr

def ValueType.toUnderlying (type : ValueType) : Byte := BitVec.ofNat 8 type.ctorIdx

/-- How a type appears in a message: its underlying value is written as a character. -/
def typeText (type : ValueType) : String := (Char.ofNat type.ctorIdx).toString

inductive CmpOp where
  | LE | LEQ | EQ | NEQ | GR | GREQ
  deriving DecidableEq, Repr

def CmpOp.cast (val : Byte) : Option CmpOp := if val.toNat < 6 then some (CmpOp.ofNat val.toNat) else none

/-- What a `pLeechObj` points to. -/
inductive LeechObj where
  | nullptr
  | NoneObj
  | IntObj (value : BitVec 64)
  | FloatObj (value : BitVec 64)
  | StringObj (string : Str)
  | TupleObj (tuple : List LeechObj)
  | ClassObj (addr : Nat)

/-- What is stored in a class object. -/
structure ClassData where
  fields : Str → Option LeechObj := fun _ => none
  methods : List Str := []

/-- The class objects made so far. -/
abbrev Heap := List ClassData

abbrev OnHeap := StateT Heap (Except Error)

namespace LeechObj

def getType : LeechObj → Except Error ValueType
  | nullptr => .error .nullDereference
  | NoneObj => .ok .None
  | IntObj _ => .ok .Integer
  | FloatObj _ => .ok .Float
  | StringObj _ => .ok .String
  | TupleObj _ => .ok .Tuple
  | ClassObj _ => .ok .Class

/-! ## Copies -/

mutual
def clone : LeechObj → OnHeap LeechObj
  | nullptr => throw .nullDereference
  | NoneObj => return NoneObj
  | IntObj value => return IntObj value
  | FloatObj value => return FloatObj value
  | StringObj string => return StringObj string
  | TupleObj tuple => return TupleObj (← cloneAll tuple)
  | ClassObj addr => fun heap =>
      match heap[addr]? with
      | some data => .ok (ClassObj heap.length, heap ++ [data])
      | none => .error .nullDereference

def cloneAll : List LeechObj → OnHeap (List LeechObj)
  | [] => return []
  | obj :: objs => return (← clone obj) :: (← cloneAll objs)
end

/-! ## Operations -/

/-- The operations on doubles. -/
structure FloatOps where
  add : BitVec 64 → BitVec 64 → BitVec 64
  sub : BitVec 64 → BitVec 64 → BitVec 64
  div : BitVec 64 → BitVec 64 → BitVec 64
  ofInt : BitVec 64 → BitVec 64

/-- An operation `LeechObj` does not support. -/
def notSupported {α : Type} (what : String) (self obj : LeechObj) : Except Error α := do
  let type ← self.getType
  let type' ← obj.getType
  throw (.invalid_argument (what ++ " of " ++ typeText type ++ " and " ++ typeText type' ++ " is not supported yet."))

def compare (self obj : LeechObj) (op : Byte) : Except Error Bool := do
  let type ← self.getType
  let type' ← obj.getType
  match self, obj with
  | IntObj value, IntObj value' =>
      match CmpOp.cast op with
      | some .LE => return value.slt value'
      | some .LEQ => return value.sle value'
      | some .EQ => return value == value'
      | some .NEQ => return value != value'
      | some .GR => return value'.slt value
      | some .GREQ => return value'.sle value
      | none => throw (.runtime_error "Uknown cmp op type")
  | IntObj _, _ => throw (.invalid_argument "Can't compare")
  | FloatObj _, _ => throw (.invalid_argument "Can't compare")
  | _, _ =>
      throw (.invalid_argument ("Comparing of " ++ typeText type ++ " and " ++ typeText type' ++ " is not supported yet."))

def add (ops : FloatOps) (self obj : LeechObj) : Except Error LeechObj :=
  match self, obj with
  | IntObj value, IntObj value' => .ok (IntObj (value' + value))
  | FloatObj value, FloatObj value' => .ok (FloatObj (ops.add value' value))
  | IntObj _, _ => .error (.runtime_error "Dynamic cast failed")
  | FloatObj _, _ => .error (.runtime_error "Dynamic cast failed")
  | _, _ => notSupported "Adding" self obj

def sub (ops : FloatOps) (self obj : LeechObj) : Except Error LeechObj :=
  match self, obj with
  | IntObj value, IntObj value' => .ok (IntObj (value - value'))
  | FloatObj value, FloatObj value' => .ok (FloatObj (ops.sub value value'))
  | IntObj _, _ => .error (.runtime_error "Dynamic cast failed")
  | FloatObj _, _ => .error (.runtime_error "Dynamic cast failed")
  | _, _ => notSupported "Substracting" self obj

def div (ops : FloatOps) (self obj : LeechObj) : Except Error LeechObj :=
  match self, obj with
  | IntObj value, IntObj value' => .ok (FloatObj (ops.div (ops.ofInt value) (ops.ofInt value')))
  | FloatObj value, FloatObj value' => .ok (FloatObj (ops.div value value'))
  | IntObj _, _ => .error (.invalid_argument "Can't divide")
  | FloatObj _, _ => .error (.invalid_argument "Can't divide")
  | _, _ => notSupported "Division" self obj

def subscript (self obj : LeechObj) : Except Error LeechObj := do
  match self with
  | TupleObj tuple =>
      match obj with
      | IntObj value => if h : value.toNat < tuple.length then return tuple[value.toNat] else throw .out_of_range
      | _ => throw (.invalid_argument "Incorrect subscription index")
  | _ => throw (.invalid_argument ("Subscription of " ++ typeText (← self.getType) ++ " is not supported yet."))

end LeechObj

/-! ## Serialization -/

/-- Readers of a `std::istream`. -/
abbrev Istream := StateT (List Byte) (Except Error)

/-- A number of `size` bytes. -/
def deserializeNum (size : Nat) : Istream Nat :=
  ofBytes <$> readExactly (.runtime_error "Can't read number from istream") size

def deserializeString (size : Nat) : Istream Str := readExactly (.runtime_error "Can't read string from istream") size

def serializeString (sv : Str) : List Byte := toBytes 8 sv.length ++ sv

def serializeTypeNSize (type : ValueType) (size : Nat) : List Byte :=
  if type ≠ .None then type.toUnderlying :: toBytes 8 size else [type.toUnderlying]

namespace LeechObj

mutual
def serialize : LeechObj → Except Error (List Byte)
  | nullptr => .error .nullDereference
  | NoneObj => .ok (serializeTypeNSize .None 0)
  | IntObj value => .ok (serializeTypeNSize .Integer 8 ++ toBytes 8 value.toNat)
  | FloatObj value => .ok (serializeTypeNSize .Float 8 ++ toBytes 8 value.toNat)
  | StringObj string => .ok (serializeTypeNSize .String string.length ++ string)
  | TupleObj tuple => do
      let val ← serializeAll tuple
      return serializeTypeNSize .Tuple tuple.length ++ val
  | ClassObj _ => .error (.runtime_error
      "Hey buddy, I think you've got the wrong door, the leather club's two blocks down. ")

def serializeAll : List LeechObj → Except Error (List Byte)
  | [] => .ok []
  | obj :: objs => do
      let val ← serialize obj
      let vals ← serializeAll objs
      return val ++ vals
end

end LeechObj

/-- The part of `deserializeObj` after the type has been read. -/
def deserializeVal (deserializeObj : Istream LeechObj) (cstTyVal : Nat) : Istream LeechObj :=
  if cstTyVal = ValueType.Integer.ctorIdx then do
    let _ ← deserializeNum 8
    let val ← deserializeNum 8
    return .IntObj (BitVec.ofNat 64 val)
  else if cstTyVal = ValueType.Float.ctorIdx then do
    let _ ← deserializeNum 8
    let val ← deserializeNum 8
    return .FloatObj (BitVec.ofNat 64 val)
  else if cstTyVal = ValueType.String.ctorIdx then do
    let strlen ← deserializeNum 8
    let str ← deserializeString strlen
    return .StringObj str
  else if cstTyVal = ValueType.Tuple.ctorIdx then do
    let len ← deserializeNum 8
    let tuple ← readMany deserializeObj len
    return .TupleObj tuple
  else return .nullptr

/-- `deserializeObj`, for a stream of at most `fuel` bytes; every object takes at least one of them. -/
def deserializeObj : Nat → Istream LeechObj
  | 0 => throw (.runtime_error "Can't read number from istream")
  | fuel + 1 => deserializeNum 1 >>= deserializeVal (deserializeObj fuel)

end CompilerLab.Leech
