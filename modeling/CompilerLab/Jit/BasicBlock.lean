import CompilerLab.Jit.DefUse

/-!
# Basic blocks

The instruction list of a block is one chain of `next`/`prev` links in two segments: the phis, then the other
instructions. `firstPhi`, `lastPhi`, `firstInst` and `lastInst` are the ends of the segments.
-/

namespace CompilerLab.Jit.Graph

open CompilerLab.Lib

def setPrev (g : Graph) (i : Nat) (p : Option Nat) : Graph :=
  g.modifyInstr i fun x => { x with prev := p }

def setNext (g : Graph) (i : Nat) (n : Option Nat) : Graph :=
  g.modifyInstr i fun x => { x with next := n }

def setParent (g : Graph) (i : Nat) (b : Option Nat) : Graph :=
  g.modifyInstr i fun x => { x with parent := b }

/-! ## Edges -/

def hasPredecessor (g : Graph) (b pred : Nat) : Bool := pred ∈ (g.block b).preds

/-- `AddPredecessor`. -/
def addPredecessor (g : Graph) (b pred : Nat) : Option Graph := do
  ASSERT (pred ∉ (g.block b).preds)
  return g.modifyBlock b fun x => { x with preds := x.preds ++ [pred] }

/-- `AddSuccessor`. -/
def addSuccessor (g : Graph) (b succ : Nat) : Option Graph := do
  ASSERT ((g.block b).succs.length < 2)
  ASSERT (succ ∉ (g.block b).succs)
  return g.modifyBlock b fun x => { x with succs := x.succs ++ [succ] }

/-- `RemovePredecessor`: the last predecessor takes the place. -/
def removePredecessor (g : Graph) (b pred : Nat) : Option Graph := do
  ASSERT (pred ∈ (g.block b).preds)
  return g.modifyBlock b fun x => { x with preds := swapErase x.preds pred }

/-- `RemoveSuccessor`: the order of the others is kept. -/
def removeSuccessor (g : Graph) (b succ : Nat) : Option Graph := do
  ASSERT (succ ∈ (g.block b).succs)
  return g.modifyBlock b fun x => { x with succs := x.succs.erase succ }

/-- `ReplaceSuccessor`. -/
def replaceSuccessor (g : Graph) (b prevSucc newSucc : Nat) : Option Graph := do
  ASSERT (prevSucc ∈ (g.block b).succs)
  return g.modifyBlock b fun x => { x with succs := x.succs.replace prevSucc newSucc }

/-- `ReplacePredecessor`. -/
def replacePredecessor (g : Graph) (b prevPred newPred : Nat) : Option Graph := do
  ASSERT (prevPred ∈ (g.block b).preds)
  return g.modifyBlock b fun x => { x with preds := x.preds.replace prevPred newPred }

/-! ## Conditional branches -/

/-- `EndsWithConditionalJump`: `some none` when the block does not end with a JCMP. -/
def endsWithConditionalJump (g : Graph) (b : Nat) : Option (Option Nat) :=
  match (g.block b).lastInst with
  | none => some none
  | some jcmp =>
      if (g.instr jcmp).opcode ≠ .JCMP then some none
      else do
        ASSERT ((g.block b).succs.length = 2)
        let cmp ← (g.instr jcmp).prev
        ASSERT ((g.instr cmp).opcode = .CMP)
        return some cmp

/-- `CompareInstruction::Inverse`: the condition code is inverted and the operands are swapped. -/
def inverse (g : Graph) (cmp : Nat) : Graph :=
  g.modifyInstr cmp fun x =>
    { x with
      ccode := inverseCondCode x.ccode
      inputs := match x.inputs with
        | [a, b] => [b, a]
        | l => l }

/-- `InverseConditionalBranch`. -/
def inverseConditionalBranch (g : Graph) (b : Nat) : Option Graph := do
  let cmp ← (← g.endsWithConditionalJump b)
  return (g.inverse cmp).modifyBlock b fun x =>
    { x with
      succs := match x.succs with
        | t :: f :: l => f :: t :: l
        | l => l }

/-- `Dominates`: the walk up the stored dominators, at most `fuel` of them. -/
def dominatesWalk (g : Graph) (b : Nat) : Nat → Option Nat → Bool
  | _, none => false
  | 0, some _ => false
  | n + 1, some dom => dom == b || dominatesWalk g b n (g.block dom).dominator

/-- `BasicBlock::Dominates`. -/
def dominates (g : Graph) (b other : Nat) : Bool :=
  other == b || g.dominatesWalk b g.blockCount (g.block other).dominator

/-- `RemoveDominatedBlock`. -/
def removeDominatedBlock (g : Graph) (b bblock : Nat) : Option Graph := do
  ASSERT (bblock ∈ (g.block b).dominated)
  return g.modifyBlock b fun x => { x with dominated := swapErase x.dominated bblock }

/-- `IsLoopHeader`. -/
def isLoopHeader (g : Graph) (b : Nat) : Bool :=
  match (g.block b).loop with
  | some l => (g.loop l).header == some b
  | none => false

/-! ## The instruction list -/

/-- `MoveConstantUnsafe`: the block of the instruction is left as it was. -/
def moveConstantUnsafe (g : Graph) (b : Nat) (i : Nat) : Option Graph := do
  ASSERT (g.firstBlock = some b)
  ASSERT ((g.instr i).isConst = true)
  let g := g.setNext i none
  let g ← match (g.block b).lastInst with
    | none =>
        ASSERT ((g.block b).firstInst = none)
        some ((g.setPrev i none).modifyBlock b fun x => { x with firstInst := some i, lastInst := some i })
    | some last =>
        some (((g.setNext last (some i)).setPrev i (some last)).modifyBlock b fun x =>
          { x with lastInst := some i })
  return g.modifyBlock b fun x => { x with instrsCount := x.instrsCount + 1 }

/-- `pushPhi`: a phi goes in front of the others, whichever end is asked for. -/
def pushPhi (g : Graph) (b : Nat) (i : Nat) : Graph :=
  match (g.block b).firstPhi with
  | none =>
      let g := g.modifyBlock b fun x => { x with firstPhi := some i, lastPhi := some i }
      let g := g.setNext i (g.block b).firstInst
      match (g.block b).firstInst with
      | some first => g.setPrev first (some i)
      | none => g
  | some firstPhi =>
      let g := g.setNext i (some firstPhi)
      let g := g.setPrev firstPhi (some i)
      g.modifyBlock b fun x => { x with firstPhi := some i }

/-- `pushInstruction<PushBack>`. -/
def pushInstruction (pushBack : Bool) (g : Graph) (b : Nat) (i : Nat) : Option Graph := do
  ASSERT ((g.instr i).parent = none)
  ASSERT ((g.instr i).prev = none)
  let g := g.setParent i (some b)
  let g ← if (g.instr i).isPhi then some (g.pushPhi b i)
    else match (g.block b).firstInst with
      | none =>
          let g := g.setPrev i (g.block b).lastPhi
          let g := g.modifyBlock b fun x => { x with firstInst := some i, lastInst := some i }
          match (g.block b).lastPhi with
          | some lastPhi => some (g.setNext lastPhi (some i))
          | none => some g
      | some first =>
          if pushBack then
            let last ← (g.block b).lastInst
            let g := g.setPrev i (some last)
            let g := g.setNext last (some i)
            some (g.modifyBlock b fun x => { x with lastInst := some i })
          else
            let g := g.setNext i (some first)
            let g := g.setPrev first (some i)
            some (g.modifyBlock b fun x => { x with firstInst := some i })
  return g.modifyBlock b fun x => { x with instrsCount := x.instrsCount + 1 }

/-- `PushForwardInstruction`. -/
def pushForwardInstruction (g : Graph) (b : Nat) (i : Nat) : Option Graph :=
  pushInstruction false g b i

/-- `PushBackInstruction`. -/
def pushBackInstruction (g : Graph) (b : Nat) (i : Nat) : Option Graph :=
  pushInstruction true g b i

/-- `InsertBefore`. -/
def insertBefore (g : Graph) (b : Nat) (before target : Nat) : Option Graph := do
  ASSERT ((g.instr target).parent = none)
  ASSERT ((g.instr target).isPhi = false)
  ASSERT ((g.instr before).parent = some b)
  let g := g.setParent target (some b)
  let prev := (g.instr before).prev
  let g := g.setPrev before (some target)
  let g := g.setPrev target prev
  let g := g.setNext target (some before)
  let g ← match prev with
    | some prev => some (g.setNext prev (some target))
    | none =>
        ASSERT ((g.block b).firstInst = some before)
        ASSERT ((g.block b).firstPhi = none)
        ASSERT ((g.block b).lastPhi = none)
        some (g.modifyBlock b fun x => { x with firstInst := some target })
  return g.modifyBlock b fun x => { x with instrsCount := x.instrsCount + 1 }

/-- `InsertAfter`: the ends of the segments change only at the end of the list. -/
def insertAfter (g : Graph) (b : Nat) (after target : Nat) : Option Graph := do
  ASSERT ((g.instr target).parent = none)
  ASSERT ((g.instr target).isPhi = false)
  ASSERT ((g.instr after).parent = some b)
  let g := g.setParent target (some b)
  let next := (g.instr after).next
  let g := g.setNext after (some target)
  let g := g.setPrev target (some after)
  let g := g.setNext target next
  let g ← match next with
    | some next => some (g.setPrev next (some target))
    | none =>
        ASSERT ((g.block b).lastInst = some after)
        some (g.modifyBlock b fun x => { x with lastInst := some target })
  return g.modifyBlock b fun x => { x with instrsCount := x.instrsCount + 1 }

/-- The part of `UnlinkInstruction` that moves the ends of the segments off `target`. -/
def unlinkEnds (g : Graph) (b : Nat) (target : Nat) (prev next : Option Nat) : Option Graph :=
  if (g.instr target).isPhi then
    if (g.block b).firstPhi = some target then
      if (g.block b).lastPhi = some target then
        some (g.modifyBlock b fun x => { x with firstPhi := none, lastPhi := none })
      else do
        let n ← next
        ASSERT ((g.instr n).isPhi = true)
        return g.modifyBlock b fun x => { x with firstPhi := some n }
    else if (g.block b).lastPhi = some target then do
      let p ← prev
      ASSERT ((g.instr p).isPhi = true)
      return g.modifyBlock b fun x => { x with lastPhi := some p }
    else some g
  else
    let last := match prev with
      | some p => if (g.instr p).isPhi then none else some p
      | none => none
    some (g.modifyBlock b fun x =>
      { x with
        firstInst := if x.firstInst = some target then next else x.firstInst
        lastInst := if x.lastInst = some target then last else x.lastInst })

/-- `UnlinkInstruction`: the input slots and users lists are left as they were. -/
def unlinkInstruction (g : Graph) (b : Nat) (target : Nat) : Option Graph := do
  ASSERT ((g.instr target).parent = some b)
  let g := g.setParent target none
  let prev := (g.instr target).prev
  let next := (g.instr target).next
  let g := g.setPrev target none
  let g := g.setNext target none
  let g := match prev with
    | some p => g.setNext p next
    | none => g
  let g := match next with
    | some n => g.setPrev n prev
    | none => g
  let g ← g.unlinkEnds b target prev next
  return g.modifyBlock b fun x => { x with instrsCount := x.instrsCount - 1 }

/-- `replaceInControlFlow`. -/
def replaceInControlFlow (g : Graph) (b : Nat) (prevInstr newInstr : Nat) : Option Graph := do
  ASSERT ((g.instr prevInstr).parent = some b)
  let g ← match (g.instr prevInstr).prev with
    | some p => g.insertAfter b p newInstr
    | none =>
        match (g.instr prevInstr).next with
        | some n => g.insertBefore b n newInstr
        | none => g.pushForwardInstruction b newInstr
  g.unlinkInstruction b prevInstr

/-- `ReplaceInstruction`: the inputs of `prevInstr` keep it among their users. -/
def replaceInstruction (g : Graph) (b : Nat) (prevInstr newInstr : Nat) : Option Graph := do
  let g ← g.replaceInputInUsers prevInstr newInstr
  g.replaceInControlFlow b prevInstr newInstr

/-! ## Iterating over a block -/

/-- The step of the phi iterator. -/
def nextPhi (g : Graph) (i : Nat) : Option Nat :=
  match (g.instr i).next with
  | some n => if (g.instr n).isPhi then some n else none
  | none => none

/-- `for (auto *phi : bblock->IteratePhi())` from `cur` on, over a state with a graph: the next phi is read after the body
has run. -/
def forPhi {σ : Type*} (graph : σ → Graph) (body : σ → Nat → Option σ) : Nat → σ → Option Nat → Option σ
  | _, s, none => some s
  | 0, _, some _ => none
  | n + 1, s, some phi => do
      let s ← body s phi
      forPhi graph body n s ((graph s).nextPhi phi)

/-- `begin()` of a block. -/
def beginInstr (g : Graph) (b : Nat) : Option Nat := (g.block b).firstPhi <|> (g.block b).firstInst

/-- The instructions met by following the `next` links from `cur`. -/
def walk (g : Graph) : Nat → Option Nat → List Nat
  | _, none => []
  | 0, some _ => []
  | n + 1, some i => i :: walk g n (g.instr i).next

/-- The instructions of a block in order, the phis first. -/
def instrs (g : Graph) (b : Nat) : List Nat := g.walk g.instrCount (g.beginInstr b)

/-- The phis of a block in order. -/
def phis (g : Graph) (b : Nat) : List Nat := (g.instrs b).takeWhile fun i => (g.instr i).isPhi

/-- The instructions of a block after its phis. -/
def insts (g : Graph) (b : Nat) : List Nat := (g.instrs b).drop (g.phis b).length

end CompilerLab.Jit.Graph
