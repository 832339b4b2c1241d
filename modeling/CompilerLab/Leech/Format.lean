import CompilerLab.Leech.LeechFile

/-!
# The format of Leech files

What the bytes of a file are when they are read: the formats of constants and functions, and the files of which a null constant
is copied.
-/

namespace CompilerLab.Leech

open Lib

/-- The types `deserializeObj` knows. -/
def readTypes : List Byte :=
  [ValueType.Integer.toUnderlying, ValueType.Float.toUnderlying, ValueType.String.toUnderlying, ValueType.Tuple.toUnderlying]

/-- The bytes of a constant, with what is read for them. The size of a number is not looked at, and a null pointer is read for
a type that is not known. -/
inductive ConstantBytes : List Byte → LeechObj → Prop where
  | int (size value : BitVec 64) :
      ConstantBytes (ValueType.Integer.toUnderlying :: (toBytes 8 size.toNat ++ toBytes 8 value.toNat)) (.IntObj value)
  | float (size value : BitVec 64) :
      ConstantBytes (ValueType.Float.toUnderlying :: (toBytes 8 size.toNat ++ toBytes 8 value.toNat)) (.FloatObj value)
  | string {s : Str} : s.length < 2 ^ 64 →
      ConstantBytes (ValueType.String.toUnderlying :: (toBytes 8 s.length ++ s)) (.StringObj s)
  | tuple {parts : List (List Byte × LeechObj)} : parts.length < 2 ^ 64 → (∀ p ∈ parts, ConstantBytes p.1 p.2) →
      ConstantBytes (ValueType.Tuple.toUnderlying :: (toBytes 8 parts.length ++ (parts.map Prod.fst).flatten))
        (.TupleObj (parts.map Prod.snd))
  | unknown {type : Byte} : type ∉ readTypes → ConstantBytes [type] .nullptr

/-- The bytes of a function, with what is read for them. -/
inductive FunctionBytes : List Byte → Str × FuncMeta → Prop where
  | intro {name : Str} {addr argNum : BitVec 64} {csts : List (List Byte × LeechObj)} {names : List Str} :
      name.length < 2 ^ 64 → csts.length < 2 ^ 64 → (∀ p ∈ csts, ConstantBytes p.1 p.2) → names.length < 2 ^ 64 →
      (∀ n ∈ names, n.length < 2 ^ 64) →
      FunctionBytes (serializeString name ++ (toBytes 8 addr.toNat ++ (toBytes 8 argNum.toNat ++ (toBytes 8 csts.length ++
        ((csts.map Prod.fst).flatten ++ (toBytes 8 names.length ++ (names.map serializeString).flatten))))))
        (name, { addr, argNum, cstPool := csts.map Prod.snd, names })

namespace LeechObj

mutual
/-- There is a null pointer in the object. -/
def hasNull : LeechObj → Bool
  | nullptr => true
  | TupleObj tuple => anyNull tuple
  | _ => false

def anyNull : List LeechObj → Bool
  | [] => false
  | obj :: objs => hasNull obj || anyNull objs
end

mutual
/-- The number of objects an object is read from. -/
def elements : LeechObj → Nat
  | TupleObj tuple => elementsAll tuple + 1
  | _ => 1

def elementsAll : List LeechObj → Nat
  | [] => 0
  | obj :: objs => elements obj + elementsAll objs
end

end LeechObj

namespace FuncMeta

/-- There is a null pointer among the constants, at any depth. -/
def hasNull (fm : FuncMeta) : Bool := LeechObj.anyNull fm.cstPool

/-- The number of constants and names of a function, and the function itself. -/
def elements (fm : FuncMeta) : Nat := LeechObj.elementsAll fm.cstPool + fm.names.length + 1

end FuncMeta

namespace LeechFile

/-- The bytes are the ones of a file up to a function with a constant of a type that is not known; the functions before it have
no such constants. -/
def CopiesNull (bytes : List Byte) : Prop :=
  ∃ (fnum : Nat) (before : List (List Byte)) (part rest : List Byte),
    bytes = theLEECH ++ (toBytes 8 fnum ++ (before.flatten ++ (part ++ rest))) ∧ fnum < 2 ^ 64 ∧ before.length < fnum ∧
    (∀ p ∈ before, ∃ entry, FunctionBytes p entry ∧ entry.2.hasNull = false) ∧
    ∃ entry, FunctionBytes part entry ∧ entry.2.hasNull = true

/-- Reading ends, whatever the stream: an object takes a byte for each object in it, a function one for each of its constants and
names, and every name and instruction takes one. -/
structure Ends (bytes : List Byte) : Prop where
  objects : ∀ fuel, Consumes (deserializeObj fuel) LeechObj.elements
  names : Consumes (do deserializeString (← deserializeNum 8)) fun _ => 1
  functions : ∀ fuel, Consumes (FuncMeta.deserialize fuel) fun entry => entry.2.elements
  instructions : Consumes Instruction.deserialize fun _ => 1
  /-- The depth of the recursion is bounded by the number of bytes. -/
  depth : ∀ fuel, bytes.length ≤ fuel → (deserializeFrom fuel).run' bytes = deserialize bytes

/-- An exception is raised, or every constant of the file is an object and every instruction has an opcode. -/
structure FailsCleanly (bytes : List Byte) : Prop where
  raises : ∀ e, deserialize bytes = .error e → e ≠ .nullDereference
  constants : ∀ file, deserialize bytes = .ok file → ∀ entry ∈ file.fileMeta.funcs.entries, entry.2.hasNull = false
  opcodes : ∀ file, deserialize bytes = .ok file → ∀ inst ∈ file.code, inst.opcode ≠ .UNKNOWN
  ends : Ends bytes

end LeechFile

end CompilerLab.Leech
