import CompilerLab.Jit.DomTree

/-!
# Building the dominator tree

`DomTreeBuilder` and its `DSU`. The arrays are indexed by the ids of the blocks, `orderedBBlocks` by the numbers of the
traversal. `none` is a failed assertion, or a read through a null entry.
-/

namespace CompilerLab.Jit

open CompilerLab.Lib

/-- `DominatorInfo`. -/
structure DominatorInfo where
  dominator : Option Nat := none
  dominated : List Nat := []
  deriving DecidableEq, Repr

/-- The fields of `DomTreeBuilder`; `universum` is the one of the `DSU` the builder works with. -/
structure DomTreeBuilder where
  lastNumber : Int := 0
  idoms : List (Option Nat) := []
  sdoms : List Nat := []
  sdomsSet : List (List Nat) := []
  labels : List (Option Nat) := []
  orderedBBlocks : List (Option Nat) := []
  bblocksParents : List (Option Nat) := []
  universum : List (Option Nat) := []

namespace DomTreeBuilder

/-- `std::vector::resize`. -/
def resize {α : Type} (l : List α) (n : Nat) (x : α) : List α := l.take n ++ List.replicate (n - l.length) x

/-- Writing to an array at an index that is asserted. -/
def setAt {α : Type} (l : List α) (i : Nat) (x : α) : Option (List α) := do
  ASSERT (i < l.length)
  return l.set i x

/-- `resetStructs`. -/
def resetStructs (g : Graph) (s : DomTreeBuilder) : Graph × DomTreeBuilder :=
  let g := g.blocks.foldl (fun g b => g.modifyBlock b fun x => { x with dominated := [], dominator := none }) g
  let bblocksCount := g.bblocks.length
  let s := { s with
    lastNumber := -1
    sdoms := resize s.sdoms bblocksCount Graph.INVALID_ID
    sdomsSet := resize s.sdomsSet bblocksCount []
    idoms := resize s.idoms bblocksCount none
    labels := resize s.labels bblocksCount none
    orderedBBlocks := resize s.orderedBBlocks bblocksCount none
    bblocksParents := resize s.bblocksParents bblocksCount none }
  (g, { s with universum := List.replicate s.labels.length none })

section

variable (g : Graph)

/-! ## The traversal -/

/-- `dfsTraverse` before its loop. -/
def enter (s : DomTreeBuilder) (bblock : Nat) : Option DomTreeBuilder := do
  let lastNumber := s.lastNumber + 1
  ASSERT (lastNumber < s.idoms.length)
  return { s with
    lastNumber
    labels := ← setAt s.labels (g.block bblock).id (some bblock)
    sdoms := ← setAt s.sdoms (g.block bblock).id lastNumber.toNat
    orderedBBlocks := ← setAt s.orderedBBlocks lastNumber.toNat (some bblock) }

/-- `dfsTraverse`. -/
def dfsTraverse : Dfs DomTreeBuilder Nat where
  next _ bblock := (g.block bblock).succs
  seen s bblock := match s.labels[(g.block bblock).id]? with
    | some (some _) => true
    | _ => false
  enter := enter g
  forth s bblock succ := do
    ASSERT ((g.block succ).id < s.labels.length)
    return { s with bblocksParents := ← setAt s.bblocksParents (g.block succ).id (some bblock) }

/-! ## The disjoint sets -/

/-- `getSemiDomNumber`, and `getSemiDominator` of the `DSU`. -/
def getSemiDomNumber (s : DomTreeBuilder) (bblock : Nat) : Option Nat := s.sdoms[(g.block bblock).id]?

/-- `getOrderedBlock` of a number that is not that of a null entry. -/
def getOrderedBlock (s : DomTreeBuilder) (visitNumber : Nat) : Option Nat := do ← s.orderedBBlocks[visitNumber]?

/-- The update of the label of a block in `compressUniversum`. -/
def updateLabel (s : DomTreeBuilder) (bblock anc : Nat) : Option DomTreeBuilder := do
  let minForBBlock ← (← s.labels[(g.block bblock).id]?)
  let minForAnc ← (← s.labels[(g.block anc).id]?)
  if (← getSemiDomNumber g s minForAnc) < (← getSemiDomNumber g s minForBBlock) then
    return { s with labels := ← setAt s.labels (g.block bblock).id (some minForAnc) }
  else return s

/-- `compressUniversum`, at most `fuel` links deep. -/
def compressUniversum : Nat → DomTreeBuilder → Nat → Option DomTreeBuilder
  | 0, _, _ => none
  | n + 1, s, bblock => do
      let anc ← (← s.universum[(g.block bblock).id]?)
      if (← s.universum[(g.block anc).id]?) = none then
        return s
      let s ← updateLabel g (← compressUniversum n s anc) bblock anc
      return { s with universum := ← setAt s.universum (g.block bblock).id (← s.universum[(g.block anc).id]?) }

/-- `DSU::Find`; its callers assert that what it returns is not null. -/
def find (s : DomTreeBuilder) (bblock : Nat) : Option (Nat × DomTreeBuilder) := do
  if (← s.universum[(g.block bblock).id]?) = none then
    return (bblock, s)
  let s ← compressUniversum g (s.universum.length + 1) s bblock
  return (← (← s.labels[(g.block bblock).id]?), s)

/-- `DSU::Unite`. -/
def unite (s : DomTreeBuilder) (target : Nat) (parent : Option Nat) : Option DomTreeBuilder := do
  return { s with universum := ← setAt s.universum (g.block target).id parent }

/-! ## Semidominators -/

/-- The body of the loop of `computeSDoms` over the predecessors of a block. -/
def lowerSemiDom (currentBlock : Nat) (s : DomTreeBuilder) (pred : Nat) : Option DomTreeBuilder := do
  let (nodeWithMinLabel, s) ← find g s pred
  let id := min (← getSemiDomNumber g s currentBlock) (← getSemiDomNumber g s nodeWithMinLabel)
  return { s with sdoms := ← setAt s.sdoms (g.block currentBlock).id id }

/-- `registerSemiDom`. -/
def registerSemiDom (s : DomTreeBuilder) (bblock : Nat) : Option DomTreeBuilder := do
  let semiDom ← getOrderedBlock s (← getSemiDomNumber g s bblock)
  let registered ← s.sdomsSet[(g.block semiDom).id]?
  return { s with sdomsSet := s.sdomsSet.set (g.block semiDom).id (registered ++ [bblock]) }

/-- The body of the loop of `computeSDoms` over the blocks a block semidominates. -/
def setIDom (s : DomTreeBuilder) (dominatee : Nat) : Option DomTreeBuilder := do
  let (minSDom, s) ← find g s dominatee
  let semi ← getSemiDomNumber g s dominatee
  let idom ←
    if (← getSemiDomNumber g s minSDom) = semi then s.orderedBBlocks[semi]?
    else pure (some minSDom)
  return { s with idoms := ← setAt s.idoms (g.block dominatee).id idom }

/-- The second part of the body of the loop of `computeSDoms`. -/
def registerAndUnite (s : DomTreeBuilder) (i currentBlock : Nat) : Option DomTreeBuilder :=
  if 0 < i then do
    let s ← registerSemiDom g s currentBlock
    unite g s currentBlock (← s.bblocksParents[(g.block currentBlock).id]?)
  else some s

/-- The body of the loop of `computeSDoms`. -/
def computeSDom (s : DomTreeBuilder) (i : Nat) : Option DomTreeBuilder := do
  let currentBlock ← getOrderedBlock s i
  let s ← (g.block currentBlock).preds.foldlM (lowerSemiDom g currentBlock) s
  let s ← registerAndUnite g s i currentBlock
  (← s.sdomsSet[(g.block currentBlock).id]?).foldlM (setIDom g) s

/-- `computeSDoms`. -/
def computeSDoms (s : DomTreeBuilder) : Option DomTreeBuilder :=
  (List.range s.idoms.length).reverse.foldlM (computeSDom g) s

end

/-! ## Immediate dominators -/

/-- What `computeIDoms` works with: the graph, the builder and the vector of infos. -/
structure Doms where
  graph : Graph
  builder : DomTreeBuilder
  doms : List DominatorInfo

/-- The body of the loop of `computeIDoms`, up to where the dominator is stored. -/
def updateIDom (g : Graph) (s : DomTreeBuilder) (currentBlock : Nat) : Option DomTreeBuilder := do
  let currentBlockId := (g.block currentBlock).id
  let idom ← s.idoms[currentBlockId]?
  let semiDom ← s.orderedBBlocks[← getSemiDomNumber g s currentBlock]?
  if idom ≠ semiDom then
    let d ← idom
    return { s with idoms := ← setAt s.idoms currentBlockId (← s.idoms[(g.block d).id]?) }
  else return s

/-- The body of the loop of `computeIDoms`. -/
def computeIDom (inPlace : Bool) (t : Doms) (i : Nat) : Option Doms := do
  let currentBlock ← getOrderedBlock t.builder i
  let s ← updateIDom t.graph t.builder currentBlock
  let id := (t.graph.block currentBlock).id
  let immDom ← (← s.idoms[id]?)
  if inPlace then
    let g := t.graph.modifyBlock currentBlock fun x => { x with dominator := some immDom }
    return { t with
      graph := g.modifyBlock immDom fun x => { x with dominated := x.dominated ++ [currentBlock] }, builder := s }
  else
    let domId := (t.graph.block immDom).id
    ASSERT (id < t.doms.length ∧ domId < t.doms.length)
    let doms := t.doms.modify id fun info => { info with dominator := some immDom }
    return { t with
      builder := s, doms := doms.modify domId fun info => { info with dominated := info.dominated ++ [currentBlock] } }

/-- `computeIDoms`. -/
def computeIDoms (inPlace : Bool) (t : Doms) : Option Doms :=
  (List.range' 1 (t.builder.idoms.length - 1)).foldlM (computeIDom inPlace) t

/-! ## The two entry points -/

/-- `build`. -/
def build (inPlace : Bool) (g : Graph) (s : DomTreeBuilder) (doms : List DominatorInfo) : Option Doms :=
  if g.isEmpty then some ⟨g, s, doms⟩
  else do
    let (g, s) := resetStructs g s
    let s ← (dfsTraverse g).visit (s.idoms.length + 1) s (← g.firstBlock)
    ASSERT (s.lastNumber = (g.getBasicBlocksCount : Int) - 1)
    computeIDoms inPlace ⟨g, ← computeSDoms g s, doms⟩

/-- `DomTreeBuilder::Run` of a new builder. -/
def run (g : Graph) : Option Graph := (build true g {} []).map Doms.graph

/-- `DomTreeBuilder::Build`: the vector that is returned, with the graph as the call leaves it. -/
def buildInfos (g : Graph) (s : DomTreeBuilder) : Option (Graph × List DominatorInfo) :=
  (build false g s []).map fun t => (t.graph, t.doms)

/-- `sameBasicBlocks`. -/
def sameBasicBlocks (g : Graph) (lhs rhs : List Nat) : Option Unit := do
  ASSERT (lhs.length = rhs.length)
  let sorted := fun l : List Nat => l.mergeSort fun l r => decide ((g.block l).id ≤ (g.block r).id)
  ASSERT (sorted lhs = sorted rhs)

/-- `VerifyDomTree`: the graph as the check leaves it. -/
def verifyDomTree (g : Graph) : Option Graph :=
  if g.valid .DOM_TREE = false then some g
  else do
    let (g, doms) ← buildInfos g {}
    g.blocks.foldlM (fun g bblock => do
      let info ← doms[(g.block bblock).id]?
      ASSERT (info.dominator = (g.block bblock).dominator)
      sameBasicBlocks g info.dominated (g.block bblock).dominated
      return g) g

end DomTreeBuilder

end CompilerLab.Jit
