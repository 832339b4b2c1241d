import CompilerLab.Leech.Executor

/-!
# Instances

What can be seen of an object through its attributes, and what is written through a reference to a class object.
-/

namespace CompilerLab.Leech

/-! ## What is seen of an object -/

/-- A step from an object to one that is in it. -/
inductive Access where
  | attr (name : Str)
  | item (i : Nat)
  deriving DecidableEq

/-- What is seen of an object without looking into it. -/
inductive Seen where
  | null
  | none
  | int (value : BitVec 64)
  | float (value : BitVec 64)
  | string (string : Str)
  | tuple (size : Nat)
  | classObj
  deriving DecidableEq

namespace LeechObj

def seen : LeechObj → Seen
  | nullptr => .null
  | NoneObj => .none
  | IntObj value => .int value
  | FloatObj value => .float value
  | StringObj string => .string string
  | TupleObj tuple => .tuple tuple.length
  | ClassObj _ => .classObj

mutual
/-- The class objects in an object, but for the ones in their fields. -/
def addrs : LeechObj → List Nat
  | TupleObj tuple => addrsAll tuple
  | ClassObj addr => [addr]
  | _ => []

def addrsAll : List LeechObj → List Nat
  | [] => []
  | obj :: objs => addrs obj ++ addrsAll objs
end

def access (heap : Heap) : LeechObj → Access → Option LeechObj
  | ClassObj addr, .attr name => do (← heap[addr]?).fields name
  | TupleObj tuple, .item i => tuple[i]?
  | _, _ => none

def follow (heap : Heap) (obj : LeechObj) (path : List Access) : Option LeechObj := path.foldlM (access heap) obj

end LeechObj

namespace Heap

/-- What is seen of a class object through a path. -/
def observe (heap : Heap) (addr : Nat) (path : List Access) : Option Seen :=
  ((LeechObj.ClassObj addr).follow heap path).map LeechObj.seen

/-- The class object `d` is in the one at `addr`, at some depth. -/
def Observes (heap : Heap) (addr d : Nat) : Prop := ∃ path, (LeechObj.ClassObj addr).follow heap path = some (.ClassObj d)

/-- The class object is the value of a field of a class object. -/
def Held (heap : Heap) (d : Nat) : Prop := ∃ (addr : Nat) (data : ClassData) (name : Str),
  heap[addr]? = some data ∧ data.fields name = some (.ClassObj d)

end Heap

/-! ## Writing through a reference -/

/-- A reference to a class object is pushed, attributes are loaded one from another, and one of the last of them is stored. -/
def storeThrough (addr : Nat) (loads : List Instruction) (attr : LeechObj) (store : Instruction) : Exec Unit := do
  push (.ClassObj addr)
  loads.forM execute_LOAD_ATTR
  push attr
  execute_STORE_ATTR store

/-- What becomes of the class objects when attributes are stored through one of them; between the stores the frames may change. -/
inductive Through (addr : Nat) : Heap → Heap → Prop where
  | refl (heap : Heap) : Through addr heap heap
  | store {heap : Heap} {s s' : State} {loads : List Instruction} {attr : LeechObj} {store : Instruction} :
      Through addr heap s.heap → (storeThrough addr loads attr store).run s = .ok ((), s') → Through addr heap s'.heap

/-- Nothing that is stored through the class object `copy` is seen through the class object `obj`. -/
def Heap.Independent (heap : Heap) (copy obj : Nat) : Prop :=
  ∀ heap', Through copy heap heap' → ∀ path, heap'.observe obj path = heap.observe obj path

/-! ## Reachable states -/

/-- The constants of a file have no class objects in them. -/
def LeechFile.Classless (file : LeechFile) : Prop :=
  ∀ entry ∈ file.fileMeta.funcs.entries, ∀ o ∈ entry.2.cstPool, o.addrs = []

/-- The states of the loop of `Executor::execute`. -/
inductive Reachable (ops : LeechObj.FloatOps) (file : LeechFile) : State → Prop where
  | initial {s : State} : State.initial file = .ok s → Reachable ops file s
  | step {s s' : State} : Reachable ops file s → s.funcStack.isEmpty = false → Executor.step ops file s = .ok s' →
      Reachable ops file s'

end CompilerLab.Leech
