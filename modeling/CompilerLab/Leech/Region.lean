import Mathlib.Data.BitVec
import Mathlib.Data.Int.Order.Basic

/-!
# The region allocator

`Region` of `gc.hh`. An address is a number: the arithmetic on the pointer `getStartPtr()` does not wrap around.
-/

namespace CompilerLab.Leech

/-- `Region`, by its template parameters. -/
structure Region where
  StartAddr : BitVec 64
  Size : BitVec 64

/-- The size and the alignment of a type; the elements of an array follow each other without gaps. -/
structure ElementType where
  sizeof : BitVec 64
  alignof : Nat
  pos : 0 < sizeof.toNat
  dvd : alignof ∣ sizeof.toNat

/-- `std::runtime_error`. -/
inductive RuntimeError where
  | runtime_error (what : String)
  deriving DecidableEq

namespace Region

/-- `getStartPtr`. -/
def getStartPtr (r : Region) : Int := r.StartAddr.toNat

/-- `newOffset`; `curOffset` is an `int`. -/
def newOffset (curOffset : BitVec 32) (num_of_bytes : BitVec 64) : BitVec 64 := curOffset.signExtend 64 + num_of_bytes

/-- `allocateRaw`: what it returns or throws, and `curOffset` after it. -/
def allocateRaw (r : Region) (num_of_bytes : BitVec 64) (curOffset : BitVec 32) : Except RuntimeError Int × BitVec 32 :=
  if (newOffset curOffset num_of_bytes).toNat > r.Size.toNat then (.error (.runtime_error "Out of memory"), curOffset)
  else (.ok (r.getStartPtr + curOffset.toInt), (newOffset curOffset num_of_bytes).setWidth 32)

/-- `allocateInstance`. -/
def allocateInstance (r : Region) (T : ElementType) (num_elems : BitVec 64) (curOffset : BitVec 32) :
    Except RuntimeError Int × BitVec 32 :=
  r.allocateRaw (num_elems * T.sizeof) curOffset

/-! ## Sequences of calls -/

inductive Call where
  | allocateRaw (num_of_bytes : BitVec 64)
  | allocateInstance (T : ElementType) (num_elems : BitVec 64)

namespace Call

/-- The number of bytes that is handed to `allocateRaw`. -/
def num_of_bytes : Call → BitVec 64
  | .allocateRaw n => n
  | .allocateInstance T n => n * T.sizeof

/-- The number of bytes that has been asked for. -/
def bytes : Call → Nat
  | .allocateRaw n => n.toNat
  | .allocateInstance T n => n.toNat * T.sizeof.toNat

/-- The alignment that has been asked for. -/
def alignof : Call → Nat
  | .allocateRaw _ => 1
  | .allocateInstance T _ => T.alignof

def perform (r : Region) : Call → BitVec 32 → Except RuntimeError Int × BitVec 32
  | .allocateRaw n => r.allocateRaw n
  | .allocateInstance T n => r.allocateInstance T n

end Call

/-- A successful allocation. -/
structure Allocation where
  address : Int
  bytes : Nat
  alignof : Nat

/-- The offset and the allocations since the last `reset`, the latest one first. -/
structure State where
  curOffset : BitVec 32 := 0
  allocations : List Allocation := []

def step (r : Region) (s : State) (call : Call) : State :=
  match call.perform r s.curOffset with
  | (.ok address, curOffset) =>
    { curOffset, allocations := { address, bytes := call.bytes, alignof := call.alignof } :: s.allocations }
  | (.error _, curOffset) => { s with curOffset }

/-- The state after the given calls. -/
def run (r : Region) (s : State) (calls : List Call) : State := calls.foldl r.step s

end Region

end CompilerLab.Leech
