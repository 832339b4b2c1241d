import CompilerLab.Jit.LinearOrdering
import CompilerLab.Jit.Lemmas.Edges

/-!
# What the steps of the linear ordering do to branches

Ordering inserts blocks that only jump and rewrites the sources of phis. The other instructions of the graph stay as
they are, except the comparisons it inverts.
-/

namespace CompilerLab.Jit

/-- An instruction without the sources it has as a phi. -/
def Instruction.withoutSources (i : Instruction) : Instruction := { i with sourceBBlocks := [] }

namespace Graph

open CompilerLab.Lib

variable {g g' : Graph}

/-! ## Splitting an edge -/

/-- The blocks are the same, the instructions the same up to the sources of phis. -/
structure SourcesOnly (g g' : Graph) : Prop where
  block : g'.block = g.block
  instr : ∀ i, (g'.instr i).withoutSources = (g.instr i).withoutSources
  blockCount : g'.blockCount = g.blockCount
  instrCount : g'.instrCount = g.instrCount

theorem SourcesOnly.refl (g : Graph) : SourcesOnly g g := ⟨rfl, fun _ => rfl, rfl, rfl⟩

theorem SourcesOnly.trans {g₁ g₂ g₃ : Graph} (h₁ : SourcesOnly g₁ g₂) (h₂ : SourcesOnly g₂ g₃) : SourcesOnly g₁ g₃ :=
  ⟨h₂.block.trans h₁.block, fun i => (h₂.instr i).trans (h₁.instr i), h₂.blockCount.trans h₁.blockCount,
    h₂.instrCount.trans h₁.instrCount⟩

theorem replaceSourceBasicBlock_sourcesOnly {phi b c} (h : g.replaceSourceBasicBlock phi b c = some g') :
    SourcesOnly g g' := by
  obtain ⟨-, rfl⟩ := replaceSourceBasicBlock_eq_some.1 h
  refine ⟨rfl, fun i => ?_, rfl, rfl⟩
  rw [modifyInstr_instr]
  split
  · subst i; rfl
  · rfl

theorem forPhi_sourcesOnly {body : Graph → Nat → Option Graph}
    (step : ∀ g phi g', body g phi = some g' → SourcesOnly g g') {n : Nat} {cur}
    (h : forPhi id body n g cur = some g') : SourcesOnly g g' := by
  induction n generalizing g cur with
  | zero =>
      cases cur with
      | none => cases h; exact .refl _
      | some phi => cases h
  | succ n ih =>
      cases cur with
      | none => cases h; exact .refl _
      | some phi =>
          simp only [forPhi, Option.bind_eq_bind, Option.bind_eq_some_iff] at h
          obtain ⟨g₁, h₁, h⟩ := h
          exact (step _ _ _ h₁).trans (ih h)

/-- `InsertBetween` puts the block on the edge; apart from that edge only phi sources change. -/
structure SplitsEdge (g : Graph) (bblock pred succ : Nat) (g' : Graph) : Prop where
  mem : succ ∈ (g.block pred).succs
  new : succ ∉ (g.block bblock).succs
  pred_succs : (g'.block pred).succs = (g.block pred).succs.replace succ bblock
  bblock_succs : (g'.block bblock).succs = (g.block bblock).succs ++ [succ]
  succs : ∀ c, c ≠ pred → c ≠ bblock → (g'.block c).succs = (g.block c).succs
  lastInst : ∀ c, (g'.block c).lastInst = (g.block c).lastInst
  instr : ∀ i, (g'.instr i).withoutSources = (g.instr i).withoutSources
  blockCount : g'.blockCount = g.blockCount
  instrCount : g'.instrCount = g.instrCount

theorem insertBetween_splitsEdge {bblock pred succ} (hne : pred ≠ bblock)
    (h : g.insertBetween bblock pred succ = some g') : SplitsEdge g bblock pred succ g' := by
  simp only [insertBetween, replaceSuccessor, addPredecessor, replacePredecessor, addSuccessor, Option.bind_eq_bind,
    Option.bind_eq_some_iff, ASSERT_eq_some, exists_const, Option.pure_def, Option.some.injEq] at h
  obtain ⟨_, ⟨hmem, rfl⟩, _, ⟨-, rfl⟩, _, ⟨-, rfl⟩, g₁, ⟨-, hnew, hg₁⟩, h⟩ := h
  have edges : SplitsEdge g bblock pred succ g₁ := by
    subst hg₁
    have hne' := hne.symm
    refine ⟨hmem, ?_, ?_, ?_, ?_, ?_, fun _ => rfl, rfl, rfl⟩ <;> grind [modifyBlock_block]
  split at h
  · cases h; exact edges
  · rw [ASSERT_bind] at h
    have same : SourcesOnly g₁ g' :=
      forPhi_sourcesOnly (fun _ _ _ h => replaceSourceBasicBlock_sourcesOnly h) h.2
    exact
      { edges with
        pred_succs := by rw [same.block, edges.pred_succs]
        bblock_succs := by rw [same.block, edges.bblock_succs]
        succs := fun c hp hb => by rw [same.block, edges.succs c hp hb]
        lastInst := fun c => by rw [same.block, edges.lastInst]
        instr := fun i => (same.instr i).trans (edges.instr i)
        blockCount := same.blockCount.trans edges.blockCount
        instrCount := same.instrCount.trans edges.instrCount }

/-! ## A new block that jumps -/

/-- A new empty block: it has no successors, or the last block as its only one when it is terminal. -/
structure AddsBlock (g : Graph) (isTerminal : Bool) (n : Nat) (g' : Graph) : Prop where
  eq : n = g.blockCount
  blockCount : g'.blockCount = n + 1
  succs_new : (g'.block n).succs = if isTerminal then g.lastBlock.toList else []
  firstInst_new : (g'.block n).firstInst = none
  lastPhi_new : (g'.block n).lastPhi = none
  succs : ∀ c, c ≠ n → (g'.block c).succs = (g.block c).succs
  lastInst : ∀ c, c ≠ n → (g'.block c).lastInst = (g.block c).lastInst
  instr : g'.instr = g.instr
  instrCount : g'.instrCount = g.instrCount

theorem newBasicBlock_addsBlock (g : Graph) : AddsBlock g false g.newBasicBlock.2 g.newBasicBlock.1 := by
  have block := g.newBasicBlock_block
  have new : g.newBasicBlock.2 = g.blockCount := rfl
  refine ⟨rfl, rfl, ?_, ?_, ?_, fun c hc => ?_, fun c hc => ?_, rfl, rfl⟩ <;> grind

theorem createEmptyBasicBlock_addsBlock {isTerminal : Bool} {n : Nat}
    (ht : isTerminal = true → g.lastBlock.isSome) (h : g.createEmptyBasicBlock isTerminal = some (g', n)) :
    AddsBlock g isTerminal n g' := by
  have base := newBasicBlock_addsBlock g
  cases isTerminal with
  | false =>
      simp only [createEmptyBasicBlock, Bool.false_eq_true, if_false, Option.some.injEq, Prod.mk.injEq] at h
      obtain ⟨rfl, rfl⟩ := h
      exact base
  | true =>
      obtain ⟨last, hl⟩ := Option.isSome_iff_exists.1 (ht rfl)
      have hl' : g.newBasicBlock.1.lastBlock = some last := hl
      simp only [createEmptyBasicBlock, if_true, hl', connectBasicBlocks, addSuccessor, addPredecessor,
        Option.bind_eq_bind, Option.bind_some, Option.bind_eq_some_iff, ASSERT_eq_some, exists_const, Option.pure_def,
        Option.some.injEq, Prod.mk.injEq] at h
      obtain ⟨_, ⟨_, ⟨-, -, rfl⟩, _, ⟨-, rfl⟩, rfl⟩, rfl, rfl⟩ := h
      have hs : (g.newBasicBlock.1.block g.newBasicBlock.2).succs = [] := by
        simp [newBasicBlock, addBasicBlock, invalidateAfterChangedCFG]
      exact
        { base with
          succs_new := by
            simp only [invalidateAfterChangedCFG, hl, if_true, Option.toList_some]
            grind [modifyBlock_block]
          firstInst_new := by
            have := base.firstInst_new
            simp only [invalidateAfterChangedCFG]
            grind [modifyBlock_block]
          lastPhi_new := by
            have := base.lastPhi_new
            simp only [invalidateAfterChangedCFG]
            grind [modifyBlock_block]
          succs := fun c hc => by
            have := base.succs c hc
            simp only [invalidateAfterChangedCFG]
            grind [modifyBlock_block]
          lastInst := fun c hc => by
            have := base.lastInst c hc
            simp only [invalidateAfterChangedCFG]
            grind [modifyBlock_block] }

/-- Pushing an instruction that is not a phi to an empty block. -/
theorem pushBackInstruction_empty {b i} (hphi : (g.instr i).isPhi = false) (hf : (g.block b).firstInst = none)
    (hl : (g.block b).lastPhi = none) (h : g.pushBackInstruction b i = some g') :
    (∀ j, j ≠ i → g'.instr j = g.instr j) ∧ (∀ c, (g'.block c).succs = (g.block c).succs) ∧
      (∀ c, c ≠ b → (g'.block c).lastInst = (g.block c).lastInst) ∧ g'.blockCount = g.blockCount ∧
      g'.instrCount = g.instrCount := by
  have hphi' : ((g.setParent i (some b)).instr i).isPhi = false := by
    rw [setParent, modifyInstr_instr_self]
    exact hphi
  have hf' : ((g.setParent i (some b)).block b).firstInst = none := hf
  have hl' : ((g.setParent i (some b)).block b).lastPhi = none := hl
  simp only [pushBackInstruction, pushInstruction, hphi', hf', hl', Bool.false_eq_true, if_false, Option.bind_eq_bind,
    ASSERT_bind, Option.pure_def, modifyBlock_block_self] at h
  obtain ⟨-, -, h⟩ := h
  simp only [setPrev, setParent, modifyInstr_block, hl, Option.bind_some, Option.some.injEq] at h
  subst h
  refine ⟨fun j hj => ?_, fun c => ?_, fun c hc => ?_, rfl, rfl⟩
  · simp only [modifyBlock_instr, modifyInstr_instr_ne _ _ hj]
  · grind [modifyBlock_block, modifyInstr_block]
  · grind [modifyBlock_block, modifyInstr_block]

theorem loopAddBasicBlock_frame {l b} (h : g.loopAddBasicBlock l b = some g') :
    (∀ c, (g'.block c).succs = (g.block c).succs ∧ (g'.block c).lastInst = (g.block c).lastInst) ∧
      g'.instr = g.instr ∧ g'.blockCount = g.blockCount ∧ g'.instrCount = g.instrCount := by
  simp only [loopAddBasicBlock, Option.bind_eq_bind, ASSERT_bind, Option.pure_def, Option.some.injEq] at h
  obtain ⟨-, rfl⟩ := h
  refine ⟨fun c => ?_, rfl, rfl, rfl⟩
  rw [modifyLoop_block]
  grind [modifyBlock_block]

/-- What `insertJmpBlock` does: a new block stands on the edge, and nothing else about branches changes. -/
structure InsertsJump (g : Graph) (pred succ : Nat) (g' : Graph) : Prop where
  mem : succ ∈ (g.block pred).succs
  pred_succs : (g'.block pred).succs = (g.block pred).succs.replace succ g.blockCount
  new_succs : (g'.block g.blockCount).succs = [succ]
  succs : ∀ c, c ≠ pred → c ≠ g.blockCount → (g'.block c).succs = (g.block c).succs
  lastInst : ∀ c, c ≠ g.blockCount → (g'.block c).lastInst = (g.block c).lastInst
  instr : ∀ i < g.instrCount, (g'.instr i).withoutSources = (g.instr i).withoutSources
  blockCount : g'.blockCount = g.blockCount + 1
  instrCount : g.instrCount ≤ g'.instrCount

theorem insertJmpBlock_insertsJump {pred succ n : Nat} (hp : pred < g.blockCount)
    (h : LinearOrdering.State.insertJmpBlock g pred succ = some (g', n)) :
    n = g.blockCount ∧ InsertsJump g pred succ g' := by
  simp only [LinearOrdering.State.insertJmpBlock, createJMP, createInst, List.foldl_nil, Option.bind_eq_bind,
    Option.bind_eq_some_iff, Option.pure_def, Option.some.injEq, Prod.mk.injEq] at h
  obtain ⟨⟨g₁, m⟩, h₁, g₂, h₂, l, -, g₃, h₃, g₄, h₄, rfl, rfl⟩ := h
  have new := createEmptyBasicBlock_addsBlock (by
    intro ht
    rw [beq_iff_eq] at ht
    rw [ht]
    rfl) h₁
  obtain ⟨hi, hs, hl, hb, hc⟩ := pushBackInstruction_empty (g := { g₁ with
      instr := Function.update g₁.instr g₁.instrCount
        { opcode := .JMP, type := .I64, properties := CF_SIDE_EFFECTS }
      instrCount := g₁.instrCount + 1 }) (by simp [Instruction.isPhi]) new.firstInst_new new.lastPhi_new h₂
  obtain ⟨hf, hfi, hfb, hfc⟩ := loopAddBasicBlock_frame h₃
  have hne : pred ≠ m := by rw [new.eq]; exact hp.ne
  have split := insertBetween_splitsEdge hne h₄
  have succs c : (g₃.block c).succs = (g₁.block c).succs := (hf c).1.trans (hs c)
  have lastInst c (hcm : c ≠ m) : (g₃.block c).lastInst = (g₁.block c).lastInst := (hf c).2.trans (hl c hcm)
  have instr i (hi' : i < g.instrCount) : g₃.instr i = g.instr i := by
    have hne' : i ≠ g₁.instrCount := by rw [new.instrCount]; exact hi'.ne
    rw [hfi, hi i hne']
    simp only [Function.update_of_ne hne', new.instr]
  have hm := new.eq
  subst hm
  refine ⟨rfl, ⟨?_, ?_, ?_, ?_, ?_, ?_, ?_, ?_⟩⟩
  · rw [← new.succs pred hne, ← succs]
    exact split.mem
  · rw [split.pred_succs, succs, new.succs pred hne]
  · have hnew := split.new
    have hsucc := split.bblock_succs
    rw [succs] at hnew hsucc
    rw [new.succs_new] at hnew hsucc
    split at hnew
    · next ht =>
        -- a jump to the last block already has it as its successor
        rw [beq_iff_eq.1 ht] at hnew
        simp at hnew
    · next hf => rw [hsucc, if_neg hf]; rfl
  · intro c hcp hcm
    rw [split.succs c hcp hcm, succs, new.succs c hcm]
  · intro c hcm
    rw [split.lastInst, lastInst c hcm, new.lastInst c hcm]
  · intro i hi'
    rw [split.instr, instr i hi']
  · rw [split.blockCount, hfb, hb, new.blockCount]
  · rw [split.instrCount, hfc, hc]
    simp only [new.instrCount]
    exact Nat.le_succ _

end Graph

namespace LinearOrdering

variable {s s' : State} {a : Action}

/-! ## What one step can do -/

theorem State.addIntoQueue_graph {b} (h : s.addIntoQueue b = some s') :
    s'.graph = s.graph ∧ s'.visited = s.visited ∧ s'.pending = s.pending := by
  simp only [State.addIntoQueue, Option.bind_eq_bind, Option.pure_def] at h
  split at h
  · cases h; exact ⟨rfl, rfl, rfl⟩
  · simp only [Option.bind_eq_some_iff] at h
    obtain ⟨u, -, h⟩ := h
    split at h
    · cases h; exact ⟨rfl, rfl, rfl⟩
    · simp only [Option.bind_eq_some_iff, Option.some.injEq] at h
      obtain ⟨_, -, _, -, rfl⟩ := h
      exact ⟨rfl, rfl, rfl⟩

/-- A step of the ordering visits a block, or puts a jump on an edge to a visited block, or inverts a branch, or only
changes the queue. -/
theorem step_cases (h : Step s a s') :
    (∃ b, a = .visit b ∧ s.visited b = false ∧ s'.graph = s.graph ∧ s'.visited = Function.update s.visited b true ∧
      (s'.pending = none ∨ s'.pending = some b)) ∨
    (∃ b t f, a = .jump b ∧ s.pending = some b ∧ (s.graph.block b).succs = [t, f] ∧
      (∃ n, State.insertJmpBlock s.graph b f = some (s'.graph, n)) ∧ s'.visited = s.visited ∧ s'.pending = none) ∨
    (∃ b, a = .inverse b ∧ s.pending = some b ∧ (s.graph.block b).succs.length = 2 ∧
      s.graph.inverseConditionalBranch b = some s'.graph ∧ s'.visited = s.visited ∧ s'.pending = some b) ∨
    (∃ b, a = .queue b ∧ s.pending = some b ∧ s'.graph = s.graph ∧ s'.visited = s.visited ∧ s'.pending = none) := by
  unfold Step State.step at h
  split at h
  · next b hp =>
      simp only [State.queueCond, Option.bind_eq_bind, Option.bind_eq_some_iff, ASSERT_eq_some, exists_const] at h
      obtain ⟨l, -, h2, t, ht, f, hf, h⟩ := h
      have hs : (s.graph.block b).succs = [t, f] := by
        match hs : (s.graph.block b).succs with
        | [] | [_] | _ :: _ :: _ :: _ => rw [hs] at h2; simp at h2
        | [t', f'] => rw [hs] at ht hf; simp_all
      split at h
      · simp only [Option.bind_eq_some_iff, Option.pure_def, Option.some.injEq, Prod.mk.injEq] at h
        obtain ⟨⟨g, n⟩, hj, rfl, rfl⟩ := h
        exact .inr (.inl ⟨b, t, f, rfl, hp, hs, ⟨n, hj⟩, rfl, rfl⟩)
      · simp only [Option.bind_eq_some_iff] at h
        obtain ⟨m, -, h⟩ := h
        split at h
        · simp only [Option.bind_eq_some_iff, Option.pure_def, Option.some.injEq, Prod.mk.injEq] at h
          obtain ⟨g, hg, rfl, rfl⟩ := h
          exact .inr (.inr (.inl ⟨b, rfl, hp, h2, hg, rfl, hp⟩))
        · split at h
          · simp only [Option.bind_eq_some_iff, Option.pure_def, Option.some.injEq, Prod.mk.injEq] at h
            obtain ⟨s₁, h₁, s₂, h₂, rfl, rfl⟩ := h
            obtain ⟨g₁, v₁, p₁⟩ := State.addIntoQueue_graph h₁
            obtain ⟨g₂, v₂, p₂⟩ := State.addIntoQueue_graph h₂
            exact .inr (.inr (.inr ⟨b, rfl, hp, g₂.trans g₁, v₂.trans v₁, p₂.trans p₁⟩))
          · simp only [Option.bind_some, Option.bind_eq_some_iff, Option.pure_def, Option.some.injEq,
              Prod.mk.injEq] at h
            obtain ⟨s₂, h₂, rfl, rfl⟩ := h
            obtain ⟨g₂, v₂, p₂⟩ := State.addIntoQueue_graph h₂
            exact .inr (.inr (.inr ⟨b, rfl, hp, g₂, v₂, p₂⟩))
  · next b rest hp _ =>
      simp only [State.visitBlock, Option.bind_eq_bind, ASSERT_bind] at h
      obtain ⟨hv, h⟩ := h
      refine .inl ⟨b, ?_⟩
      split at h
      · simp only [Option.pure_def] at h
        split at h
        · cases h; exact ⟨rfl, hv, rfl, rfl, .inl hp⟩
        · simp only [Option.bind_eq_some_iff] at h
          obtain ⟨u, -, h⟩ := h
          split at h
          · cases h; exact ⟨rfl, hv, rfl, rfl, .inl hp⟩
          · cases h; exact ⟨rfl, hv, rfl, rfl, .inl hp⟩
      · cases h; exact ⟨rfl, hv, rfl, rfl, .inr rfl⟩
      · cases h; exact ⟨rfl, hv, rfl, rfl, .inl hp⟩
  · cases h

end LinearOrdering

end CompilerLab.Jit
