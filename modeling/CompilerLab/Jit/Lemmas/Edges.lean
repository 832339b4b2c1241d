import CompilerLab.Jit.GraphOps
import CompilerLab.Lib.OptionFold

/-!
# What leaves the edges alone

The operations on instructions and phis change instructions and the lists that hold them, and nothing else.
-/

namespace CompilerLab.Jit

/-- A block without its instruction list. -/
def BasicBlock.withoutList (x : BasicBlock) : BasicBlock :=
  { x with instrsCount := 0, firstPhi := none, lastPhi := none, firstInst := none, lastInst := none }

namespace Graph

open CompilerLab.Lib

variable {g g' : Graph}

/-- The two graphs have the same edges, in the same order. -/
def SameEdges (g g' : Graph) : Prop :=
  ∀ c, (g'.block c).succs = (g.block c).succs ∧ (g'.block c).preds = (g.block c).preds

namespace SameEdges

theorem refl (g : Graph) : SameEdges g g := fun _ => ⟨rfl, rfl⟩

theorem trans {g₁ g₂ g₃ : Graph} (h₁ : SameEdges g₁ g₂) (h₂ : SameEdges g₂ g₃) : SameEdges g₁ g₃ :=
  fun c => ⟨(h₂ c).1.trans (h₁ c).1, (h₂ c).2.trans (h₁ c).2⟩

end SameEdges

/-- The two graphs differ in instructions and instruction lists only. -/
structure InstrsOnly (g g' : Graph) : Prop where
  block : ∀ c, (g'.block c).withoutList = (g.block c).withoutList
  graph : { g' with instr := g.instr, block := g.block } = g

namespace InstrsOnly

theorem refl (g : Graph) : InstrsOnly g g := ⟨fun _ => rfl, rfl⟩

theorem trans {g₁ g₂ g₃ : Graph} (h₁ : InstrsOnly g₁ g₂) (h₂ : InstrsOnly g₂ g₃) : InstrsOnly g₁ g₃ where
  block c := (h₂.block c).trans (h₁.block c)
  graph :=
    have h := congrArg (fun g : Graph => { g with instr := g₁.instr, block := g₁.block }) h₂.graph
    h.trans h₁.graph

theorem modifyInstr (g : Graph) (i f) : InstrsOnly g (g.modifyInstr i f) := ⟨fun _ => rfl, rfl⟩

theorem modifyBlock {b : Nat} {f : BasicBlock → BasicBlock} (h : ∀ x, (f x).withoutList = x.withoutList) :
    InstrsOnly g (g.modifyBlock b f) := by
  refine ⟨fun c => ?_, rfl⟩
  rw [modifyBlock_block]
  split
  · subst c; exact h _
  · rfl

theorem sameEdges (h : InstrsOnly g g') : SameEdges g g' := by
  intro c
  have hs := congrArg BasicBlock.succs (h.block c)
  have hp := congrArg BasicBlock.preds (h.block c)
  exact ⟨hs, hp⟩

end InstrsOnly

/-! ## Users and inputs -/

theorem removePhiInput_instrsOnly {phi b} (h : g.removePhiInput phi b = some g') : InstrsOnly g g' := by
  obtain ⟨-, rfl⟩ := removePhiInput_eq_some.1 h
  exact .modifyInstr ..

theorem replaceInput_instrsOnly {i o n} (h : g.replaceInput i o n = some g') : InstrsOnly g g' := by
  obtain ⟨-, rfl⟩ := replaceInput_eq_some.1 h
  exact .modifyInstr ..

theorem replaceInputInUsers_instrsOnly {i n} (h : g.replaceInputInUsers i n = some g') : InstrsOnly g g' := by
  refine foldlM_invariant (P := fun x => InstrsOnly g x) ?_ (.modifyInstr ..) h
  intro s u s' _ hs hstep
  simp only [Option.bind_eq_bind, ASSERT_bind] at hstep
  exact hs.trans (replaceInput_instrsOnly hstep.2)

/-! ## The instruction list -/

theorem unlinkEnds_instrsOnly {b t p n} (h : g.unlinkEnds b t p n = some g') : InstrsOnly g g' := by
  have keep {g : Graph} {f : BasicBlock → BasicBlock} (h : ∀ x, (f x).withoutList = x.withoutList) :
      InstrsOnly g (g.modifyBlock b f) := .modifyBlock h
  unfold unlinkEnds at h
  split at h
  · split at h
    · split at h
      · cases h; exact keep fun _ => rfl
      · simp only [Option.bind_eq_bind, Option.bind_eq_some_iff, ASSERT_eq_some, Option.pure_def,
          Option.some.injEq] at h
        obtain ⟨_, _, _, _, rfl⟩ := h
        exact keep fun _ => rfl
    · split at h
      · simp only [Option.bind_eq_bind, Option.bind_eq_some_iff, ASSERT_eq_some, Option.pure_def,
          Option.some.injEq] at h
        obtain ⟨_, _, _, _, rfl⟩ := h
        exact keep fun _ => rfl
      · cases h; exact .refl _
  · cases h; exact keep fun _ => rfl

theorem unlinkInstruction_instrsOnly {b t} (h : g.unlinkInstruction b t = some g') : InstrsOnly g g' := by
  simp only [unlinkInstruction, Option.bind_eq_bind, Option.bind_eq_some_iff, ASSERT_eq_some, exists_const,
    Option.pure_def, Option.some.injEq] at h
  obtain ⟨-, g₁, h₁, rfl⟩ := h
  refine InstrsOnly.trans ?_ ((unlinkEnds_instrsOnly h₁).trans (.modifyBlock fun _ => rfl))
  split <;> split <;> exact ⟨fun _ => rfl, rfl⟩

/-! ## Phis -/

theorem forPhi_instrsOnly {body : Graph → Nat → Option Graph}
    (step : ∀ g phi g', body g phi = some g' → InstrsOnly g g') {n : Nat} {cur}
    (h : forPhi id body n g cur = some g') : InstrsOnly g g' := by
  induction n generalizing g cur with
  | zero =>
      cases cur with
      | none => cases h; exact .refl _
      | some phi => cases h
  | succ n ih =>
      cases cur with
      | none => cases h; exact .refl _
      | some phi =>
          simp only [forPhi, Option.bind_eq_bind, Option.bind_eq_some_iff] at h
          obtain ⟨g₁, h₁, h⟩ := h
          exact (step _ _ _ h₁).trans (ih h)

theorem fixPhiOfTwo_instrsOnly {s t phi} (h : fixPhiOfTwo s t g phi = some g') : InstrsOnly g g' := by
  simp only [fixPhiOfTwo, Option.bind_eq_bind, Option.bind_eq_some_iff, ASSERT_eq_some, exists_const] at h
  obtain ⟨-, -, _, -, g₁, h₁, h⟩ := h
  exact (replaceInputInUsers_instrsOnly h₁).trans (unlinkInstruction_instrsOnly h)

theorem fixPHIAfterDisconnect_instrsOnly {s t} (h : g.fixPHIAfterDisconnect s t = some g') : InstrsOnly g g' := by
  simp only [fixPHIAfterDisconnect, Option.bind_eq_bind, ASSERT_bind] at h
  obtain ⟨-, h⟩ := h
  split at h
  · exact forPhi_instrsOnly (fun _ _ _ => fixPhiOfTwo_instrsOnly) h
  · split at h
    · exact forPhi_instrsOnly (fun _ _ _ => removePhiInput_instrsOnly) h
    · cases h; exact .refl _

/-! ## Removing an edge -/

/-- The edge from `b` to `r` has been taken out; instruction lists may have changed, and no analysis is valid. -/
structure Disconnects (g : Graph) (b r : Nat) (g' : Graph) : Prop where
  block : ∀ c, (g'.block c).withoutList =
    { (g.block c).withoutList with
      succs := if c = b then (g.block b).succs.erase r else (g.block c).succs
      preds := if c = r then swapErase (g.block r).preds b else (g.block c).preds }
  graph : { g' with instr := g.instr, block := g.block, valid := g.valid } = g

theorem disconnectBasicBlocks_disconnects {b r} (h : g.disconnectBasicBlocks b r = some g') : Disconnects g b r g' := by
  simp only [disconnectBasicBlocks, removeSuccessor, removePredecessor, Option.bind_eq_bind, Option.bind_eq_some_iff,
    ASSERT_eq_some, exists_const, Option.pure_def, Option.some.injEq] at h
  obtain ⟨g₁, h₁, g₂, ⟨_, rfl⟩, g₃, ⟨_, rfl⟩, rfl⟩ := h
  have h₁ := fixPHIAfterDisconnect_instrsOnly h₁
  refine ⟨fun c => ?_, ?_⟩
  · rw [← h₁.block c, ← (h₁.sameEdges c).1, ← (h₁.sameEdges c).2, ← (h₁.sameEdges b).1, ← (h₁.sameEdges r).2]
    simp only [invalidateAfterChangedCFG, modifyBlock_block]
    split_ifs <;> simp_all [BasicBlock.withoutList]
  · have hg := congrArg (fun x : Graph => { x with valid := g.valid }) h₁.graph
    exact hg

namespace Disconnects

variable {b r c : Nat}

theorem succs (h : Disconnects g b r g') (c : Nat) :
    (g'.block c).succs = if c = b then (g.block b).succs.erase r else (g.block c).succs := by
  have hc := congrArg BasicBlock.succs (h.block c)
  exact hc

theorem dominator (h : Disconnects g b r g') (c : Nat) : (g'.block c).dominator = (g.block c).dominator := by
  have hc := congrArg BasicBlock.dominator (h.block c)
  exact hc

theorem dominated (h : Disconnects g b r g') (c : Nat) : (g'.block c).dominated = (g.block c).dominated := by
  have hc := congrArg BasicBlock.dominated (h.block c)
  exact hc

end Disconnects

end Graph

end CompilerLab.Jit
