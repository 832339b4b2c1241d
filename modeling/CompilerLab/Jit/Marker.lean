import CompilerLab.Jit.Ir
import CompilerLab.Lib.Run

/-!
# Markers

Blocks and instructions are marked for a graph traversal. A marker packs a slot with the count of acquisitions at the time
it was handed out, and marks are never wiped.
-/

namespace CompilerLab.Jit

/-- `Marker`, `uint32_t`. -/
abbrev Marker := BitVec 32

namespace MarkersConstants
def BIT_LENGTH : Nat := 2
def MAX_MARKERS : Nat := 1 <<< BIT_LENGTH
def INDEX_MASK : Marker := 3
def MAX_VALUE : Nat := 1 <<< (32 - BIT_LENGTH) - 1
def UNDEF_VALUE : Marker := 0
end MarkersConstants

open MarkersConstants

namespace Marker

/-- The slot of a marker. -/
def index (mark : Marker) : Fin MAX_MARKERS :=
  ⟨(mark &&& INDEX_MASK).toNat, by
    rw [BitVec.toNat_and]
    exact Nat.lt_of_le_of_lt Nat.and_le_right (by decide)⟩

/-- The count of acquisitions in a marker. -/
def value (mark : Marker) : Marker := mark >>> BIT_LENGTH

end Marker

/-- `MarkerManager`. -/
structure MarkerManager where
  currentIndex : Nat := 0
  markersSlots : Fin MAX_MARKERS → Bool := fun _ => false

namespace MarkerManager

/-- `GetNewMarker`: the first free slot; without one the program stops. -/
def getNewMarker (m : MarkerManager) : Option (MarkerManager × Marker) := do
  ASSERT (m.currentIndex < MAX_VALUE)
  let currentIndex := m.currentIndex + 1
  let i ← (List.finRange MAX_MARKERS).find? fun i => !m.markersSlots i
  let mark : Marker := BitVec.ofNat 32 (currentIndex <<< BIT_LENGTH ||| i)
  return ({ currentIndex, markersSlots := Function.update m.markersSlots i true }, mark)

/-- `ReleaseMarker`. -/
def releaseMarker (m : MarkerManager) (mark : Marker) : MarkerManager :=
  { m with markersSlots := Function.update m.markersSlots mark.index false }

/-- `SetMarkerIndex`. -/
def setMarkerIndex (m : MarkerManager) (newIndex : Nat) : Option MarkerManager := do
  ASSERT (newIndex < MAX_VALUE)
  return { m with currentIndex := max m.currentIndex newIndex }

/-- The number of slots in use. -/
def occupied (m : MarkerManager) : Nat := (List.finRange MAX_MARKERS).countP m.markersSlots

end MarkerManager

/-- `Markable`: the marks on a block or an instruction, one for each slot. -/
structure Markable where
  markers : Fin MAX_MARKERS → Marker := fun _ => UNDEF_VALUE

namespace Markable

/-- `SetMarker`, with its result: the mark is new. -/
def setMarker (x : Markable) (mark : Marker) : Markable × Bool :=
  ({ markers := Function.update x.markers mark.index mark.value }, x.markers mark.index != mark.value)

/-- `IsMarkerSet`. -/
def isMarkerSet (x : Markable) (mark : Marker) : Bool := x.markers mark.index == mark.value

/-- `ClearMarker`. -/
def clearMarker (x : Markable) (mark : Marker) : Markable :=
  { markers := Function.update x.markers mark.index UNDEF_VALUE }

end Markable

/-! ## Graphs that hand out markers -/

/-- The managers of the graphs, and the blocks and instructions with the graph each of them is in. `acquired` and `held`
record which markers a graph has handed out and which of them have not been released. -/
structure Marking where
  manager : Nat → MarkerManager
  object : Nat → Markable
  owner : Nat → Nat
  acquired : Nat → List Marker
  held : Nat → List Marker

namespace Marking

/-- Nothing has been marked yet. -/
def start (owner : Nat → Nat) : Marking where
  manager _ := {}
  object _ := {}
  owner := owner
  acquired _ := []
  held _ := []

/-- What is done with markers. `inline` is the merge of a callee: the objects `moved` selects go to the caller. -/
inductive Op where
  | acquire (graph : Nat)
  | set (graph : Nat) (mark : Marker) (object : Nat)
  | test (graph : Nat) (mark : Marker) (object : Nat)
  | clear (graph : Nat) (mark : Marker) (object : Nat)
  | release (graph : Nat) (mark : Marker)
  | create (graph object : Nat)
  | inline (caller callee : Nat) (moved : Nat → Bool)

/-- One use of a marker. A graph marks its own objects, with markers it has handed out, and releases markers it holds. -/
def step (s : Marking) : Op → Option Marking
  | .acquire graph => do
      let (manager, mark) ← (s.manager graph).getNewMarker
      return { s with
        manager := Function.update s.manager graph manager
        acquired := Function.update s.acquired graph (mark :: s.acquired graph)
        held := Function.update s.held graph (mark :: s.held graph) }
  | .set graph mark object => do
      ASSERT (mark ∈ s.acquired graph ∧ s.owner object = graph)
      return { s with object := Function.update s.object object ((s.object object).setMarker mark).1 }
  | .test graph mark object => do
      ASSERT (mark ∈ s.acquired graph ∧ s.owner object = graph)
      return s
  | .clear graph mark object => do
      ASSERT (mark ∈ s.acquired graph ∧ s.owner object = graph)
      return { s with object := Function.update s.object object ((s.object object).clearMarker mark) }
  | .release graph mark => do
      ASSERT (mark ∈ s.held graph)
      return { s with
        manager := Function.update s.manager graph ((s.manager graph).releaseMarker mark)
        held := Function.update s.held graph ((s.held graph).erase mark) }
  | .create graph object =>
      some { s with
        object := Function.update s.object object {}
        owner := Function.update s.owner object graph }
  | .inline caller callee moved => do
      let manager ← (s.manager caller).setMarkerIndex (s.manager callee).currentIndex
      return { s with
        manager := Function.update s.manager caller manager
        owner := fun o => if s.owner o = callee ∧ moved o then caller else s.owner o }

/-- The states the uses of markers lead to. -/
abbrev Reaches (s : Marking) (ops : List Op) (s' : Marking) : Prop :=
  Lib.Run (fun t op u => t.step op = some u) s ops s'

end Marking

end CompilerLab.Jit
