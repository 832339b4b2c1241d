import CompilerLab.Jit.LiveIntervals
import CompilerLab.Jit.RegMap
import Mathlib.Data.List.Sort

/-!
# Linear scan register allocation

`LinearScanRegAlloc` up to the resolution of phis. An interval object is an interval with its index in
`LiveIntervals`; `location` is the location field of the objects.
-/

namespace CompilerLab.Jit

/-- `LocationType`. -/
inductive LocationType where
  | REGISTER | STACK | INVALID
  deriving DecidableEq, Repr

/-- `ValueLocation`. -/
structure ValueLocation where
  type : LocationType := .INVALID
  id : Nat := 0
  deriving DecidableEq, Repr

/-- `MAX_REG_NUMBER`, the largest `uint16_t`. -/
def MAX_REG_NUMBER : Nat := 65535

namespace LinearScan

/-- A pointer to a live interval. -/
abbrev IntervalPtr := LiveInterval × Nat

/-- The fields of the pass, and the locations of the intervals. -/
structure State where
  location : Nat → ValueLocation := fun _ => {}
  active : List IntervalPtr := []
  regMap : RegMap
  slotCounter : Nat := 0

namespace State

variable (s : State)

/-- `SetLocation`. -/
def setLocation (iv : IntervalPtr) (loc : ValueLocation) : State :=
  { s with location := Function.update s.location iv.2 loc }

/-- `expireOldIntervals`, from a place in `active` on. -/
def expireFrom (begin : Nat) : List IntervalPtr → State → Option State
  | [], s => some { s with active := [] }
  | iv :: rest, s =>
      if begin < iv.1.getEnd then some { s with active := iv :: rest }
      else do
        let regMap ← s.regMap.releaseReg (s.location iv.2).id
        expireFrom begin rest { s with regMap }

/-- `expireOldIntervals`. -/
def expireOldIntervals (iv : IntervalPtr) : Option State := expireFrom iv.1.getBegin s.active s

/-- `spillToStack`, with `getNextSlot`. -/
def spillToStack (iv : IntervalPtr) : Option (ValueLocation × State) := do
  let prevLoc := s.location iv.2
  ASSERT (s.slotCounter < MAX_REG_NUMBER)
  let s' := s.setLocation iv ⟨.STACK, s.slotCounter⟩
  return (prevLoc, { s' with slotCounter := s.slotCounter + 1 })

/-- `spillAtInterval`; the last element of an empty list is undefined. -/
def spillAtInterval (iv : IntervalPtr) : Option State := do
  let spilled ← s.active.getLast?
  if spilled.1.getEnd < iv.1.getEnd then
    let (_, s) ← s.spillToStack iv
    return s
  else
    let (reg, s) ← s.spillToStack spilled
    ASSERT (reg.type = .REGISTER)
    let s := s.setLocation iv reg
    return { s with active := s.active.dropLast }

/-- `assignToReg`. -/
def assignToReg (iv : IntervalPtr) : Option State := do
  let (reg, regMap) ← s.regMap.acquireReg
  let reg ← reg
  return { s.setLocation iv ⟨.REGISTER, reg⟩ with regMap }

/-- `addActiveInterval`: in front of the first interval that does not end earlier. -/
def addActiveInterval (iv : IntervalPtr) : Option State := do
  ASSERT (s.regMap.isFull = false)
  return { s with active := s.active.orderedInsert (fun a b => a.1.getEnd ≤ b.1.getEnd) iv }

/-- The body of the loop of `allocateAndAssignRegs`. -/
def allocateInterval (iv : IntervalPtr) : Option State := do
  let s ← s.expireOldIntervals iv
  if s.regMap.isFull then s.spillAtInterval iv
  else
    let s ← s.assignToReg iv
    s.addActiveInterval iv

end State

/-- The order in which `LiveIntervals` is iterated: from the back of its vector. -/
def iterate (liveIntervals : List LiveInterval) : List IntervalPtr := liveIntervals.zipIdx.reverse

/-- `allocateAndAssignRegs` of a pass made for `regsCount` registers: the locations of the intervals. -/
def allocateAndAssignRegs (regsCount : Nat) (liveIntervals : List LiveInterval) : Option (Nat → ValueLocation) := do
  let regMap ← RegMap.make regsCount
  let s ← (iterate liveIntervals).foldlM State.allocateInterval { regMap }
  return s.location

end LinearScan

end CompilerLab.Jit
