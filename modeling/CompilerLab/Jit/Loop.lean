import CompilerLab.Jit.Ir

/-!
# Loops

The operations of `Loop`. The loops of a graph are numbered in the order in which they are made.
-/

namespace CompilerLab.Jit.Graph

/-- `Loop::IsIn`: the walk up the outer loops, at most `fuel` of them. -/
def isInWalk (g : Graph) (other : Nat) : Nat → Option Nat → Bool
  | _, none => false
  | 0, some _ => false
  | n + 1, some l => l == other || isInWalk g other n (g.loop l).outerLoop

/-- `Loop::IsIn`. -/
def isIn (g : Graph) (l other : Nat) : Bool := g.isInWalk other g.loopCount (g.loop l).outerLoop

/-- `graph->New<Loop>`. -/
def newLoop (g : Graph) (id : Nat) (header : Option Nat) (isIrreducible isRoot : Bool) : Graph × Nat :=
  ({ g with
    loop := Function.update g.loop g.loopCount { id, header, isIrreducible, isRoot }
    loopCount := g.loopCount + 1 }, g.loopCount)

/-- `Loop::AddBasicBlock`. -/
def loopAddBasicBlock (g : Graph) (l : Nat) (b : Nat) : Option Graph := do
  ASSERT ((g.block b).loop = none ∧ b ∉ (g.loop l).basicBlocks)
  let g := g.modifyBlock b fun x => { x with loop := some l }
  return g.modifyLoop l fun x => { x with basicBlocks := x.basicBlocks ++ [b] }

/-- `Loop::AddBackEdge`. -/
def addBackEdge (g : Graph) (l : Nat) (backEdgeSource : Nat) : Option Graph := do
  ASSERT (backEdgeSource ∉ (g.loop l).backEdges)
  return g.modifyLoop l fun x => { x with backEdges := x.backEdges ++ [backEdgeSource] }

/-- `Loop::SetOuterLoop`. -/
def setOuterLoop (g : Graph) (l : Nat) (outer : Nat) : Graph :=
  g.modifyLoop l fun x => { x with outerLoop := some outer }

/-- `Loop::AddInnerLoop`. -/
def addInnerLoop (g : Graph) (l : Nat) (inner : Nat) : Option Graph := do
  ASSERT (inner ∉ (g.loop l).innerLoops)
  return g.modifyLoop l fun x => { x with innerLoops := x.innerLoops ++ [inner] }

/-! ## What the operations do -/

variable {g : Graph} {b c k l inner outer : Nat} {f : Loop → Loop}

theorem modifyLoop_loop : (g.modifyLoop l f).loop k = if k = l then f (g.loop l) else g.loop k := by
  simp [modifyLoop, Function.update_apply]

@[simp] theorem modifyLoop_loop_self : (g.modifyLoop l f).loop l = f (g.loop l) := by
  simp [modifyLoop]

@[simp] theorem modifyLoop_loop_ne (h : k ≠ l) : (g.modifyLoop l f).loop k = g.loop k := by
  simp [modifyLoop, h]

@[simp] theorem modifyLoop_loopCount : (g.modifyLoop l f).loopCount = g.loopCount := rfl
@[simp] theorem modifyBlock_loopCount {f : BasicBlock → BasicBlock} : (g.modifyBlock b f).loopCount = g.loopCount := rfl

theorem loopAddBasicBlock_eq (h : (g.block b).loop = none) (hb : b ∉ (g.loop l).basicBlocks) :
    g.loopAddBasicBlock l b = some ((g.modifyBlock b fun x => { x with loop := some l }).modifyLoop l fun x =>
      { x with basicBlocks := x.basicBlocks ++ [b] }) := by
  rw [loopAddBasicBlock, ASSERT_of ⟨h, hb⟩]
  rfl

theorem addBackEdge_eq (h : b ∉ (g.loop l).backEdges) :
    g.addBackEdge l b = some (g.modifyLoop l fun x => { x with backEdges := x.backEdges ++ [b] }) := by
  rw [addBackEdge, ASSERT_of h]
  rfl

theorem addInnerLoop_eq (h : inner ∉ (g.loop l).innerLoops) :
    g.addInnerLoop l inner = some (g.modifyLoop l fun x => { x with innerLoops := x.innerLoops ++ [inner] }) := by
  rw [addInnerLoop, ASSERT_of h]
  rfl

theorem addBasicBlock_loop {u : BasicBlock → BasicBlock} :
    ((g.modifyBlock b u).modifyLoop l fun x => { x with basicBlocks := x.basicBlocks ++ [b] }).loop k =
      { g.loop k with basicBlocks := if k = l then (g.loop k).basicBlocks ++ [b] else (g.loop k).basicBlocks } := by
  by_cases hk : k = l <;> simp [hk]

theorem addInnerLoop_loop :
    ((g.setOuterLoop inner l).modifyLoop l fun x => { x with innerLoops := x.innerLoops ++ [inner] }).loop k =
      { g.loop k with
        outerLoop := if k = inner then some l else (g.loop k).outerLoop
        innerLoops := if k = l then (g.loop k).innerLoops ++ [inner] else (g.loop k).innerLoops } := by
  by_cases hl : k = l
  · subst hl
    by_cases hk : k = inner <;> simp [setOuterLoop, hk]
  · rw [modifyLoop_loop_ne hl, setOuterLoop, modifyLoop_loop, if_neg hl]
    by_cases hk : k = inner <;> simp [hk]

end CompilerLab.Jit.Graph
