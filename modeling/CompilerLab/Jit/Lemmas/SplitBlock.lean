import CompilerLab.Jit.Lemmas.PhiEdges

/-!
# Taking a block apart

The stages of `SplitAfterInstruction` without its connection: a new block, the edges moved to it, the instructions moved to it.
-/

namespace CompilerLab.Jit.Graph

open CompilerLab.Lib

variable {g g' : Graph} {b c i m n t : Nat} {phis rest l : List Nat}

/-- The number the next block gets is not in use. -/
structure Fresh (g : Graph) : Prop where
  loose : g.Loose g.blockCount
  empty : g.instrs g.blockCount = []
  loops : ∀ l, g.blockCount ∉ (g.loop l).basicBlocks

/-! ## Moving the edges -/

/-- The edges after those from `b` to `done` have been given to `n`. -/
structure Handed (g : Graph) (b n : Nat) (done : List Nat) (g' : Graph) : Prop where
  new : g'.block n = { g.block n with succs := done }
  block : ∀ c, c ≠ n → g'.block c = { g.block c with
    preds := if c ∈ done then swapErase (g.block c).preds b ++ [n] else (g.block c).preds }
  instr : g'.instr = g.instr
  instrCount : g'.instrCount = g.instrCount

theorem moveSuccessor_eq {done : List Nat} (h : Handed g b n done g') (hbt : b ∈ (g.block t).preds) (hn : n ∉ (g.block t).preds)
    (htn : t ≠ n) (hdone : t ∉ done) (hlen : done.length < 2) :
    ∃ g'', moveSuccessor b n g' t = some g'' ∧ Handed g b n (done ++ [t]) g'' := by
  have hpreds : (g'.block t).preds = (g.block t).preds := by rw [h.block t htn, if_neg hdone]
  have hsuccs : (g'.block n).succs = done := by rw [h.new]
  have hnt : n ≠ t := htn.symm
  refine ⟨(((g'.modifyBlock t fun x => { x with preds := swapErase x.preds b }).modifyBlock n fun x =>
    { x with succs := x.succs ++ [t] }).modifyBlock t fun x => { x with preds := x.preds ++ [n] }).invalidateAfterChangedCFG,
    ?_, ?_⟩
  · rw [moveSuccessor, removePredecessor_eq (by rw [hpreds]; exact hbt)]
    simp only [Option.bind_eq_bind, Option.bind_some]
    have hmem : n ∉ swapErase (g'.block t).preds b := fun hmem => hn (hpreds ▸ mem_swapErase hmem)
    rw [connectBasicBlocks, addSuccessor_eq (by simpa [hnt, hsuccs] using hlen) (by simpa [hnt, hsuccs] using hdone)]
    simp only [Option.bind_eq_bind, Option.bind_some]
    rw [addPredecessor_eq (by simpa [htn] using hmem)]
    rfl
  · refine ⟨?_, fun c hc => ?_, h.instr, h.instrCount⟩
    · simp [invalidateAfterChangedCFG, hnt, h.new]
    · by_cases hct : c = t
      · subst hct
        simp [invalidateAfterChangedCFG, hc, h.block c hc, hdone]
      · simp [invalidateAfterChangedCFG, hc, hct, h.block c hc]

/-! ## Moving the instructions -/

theorem moveInstructions_eq {fuel : Nat} {next : Nat → Option Nat} (hnext : ∀ j, (g.instr j).next = next j)
    (hl : ∀ l₁ j l₂, l = l₁ ++ j :: l₂ → next j = l₂.head?) (hfuel : l.length ≤ fuel) :
    ∃ g', moveInstructions n fuel g l.head? = some g' ∧
      g'.block = (g.modifyBlock n fun x => { x with instrsCount := x.instrsCount + l.length }).block ∧
      (∀ j, g'.instr j = { g.instr j with parent := if j ∈ l then some n else (g.instr j).parent }) ∧
      g'.instrCount = g.instrCount := by
  induction l generalizing g fuel with
  | nil =>
      refine ⟨g, by cases fuel <;> rfl, ?_, fun j => by simp, rfl⟩
      funext c
      rw [modifyBlock_block]
      split_ifs with hc
      · rw [hc]
        rfl
      · rfl
  | cons i l ih =>
      cases fuel with
      | zero => cases hfuel
      | succ fuel =>
          let g₁ := (g.setParent i (some n)).modifyBlock n fun x => { x with instrsCount := x.instrsCount + 1 }
          have hinstr : ∀ j, g₁.instr j = { g.instr j with parent := if j = i then some n else (g.instr j).parent } := by
            intro j
            simp only [g₁, setParent, modifyBlock_instr, modifyInstr_instr]
            split_ifs with hj
            · rw [hj]
            · rfl
          have hnext₁ : ∀ j, (g₁.instr j).next = next j := fun j => by rw [hinstr, ← hnext]
          have htail : ∀ l₁ j l₂, l = l₁ ++ j :: l₂ → next j = l₂.head? := fun l₁ j l₂ heq =>
            hl (i :: l₁) j l₂ (by rw [heq]; rfl)
          obtain ⟨g', hrun, hblock, hparent, hcount⟩ := ih hnext₁ htail (Nat.le_of_succ_le_succ hfuel)
          refine ⟨g', ?_, ?_, fun j => ?_, hcount⟩
          · have hhead : (g₁.instr i).next = l.head? := (hnext₁ i).trans (hl [] i l rfl)
            rw [List.head?_cons, moveInstructions]
            change moveInstructions n fuel g₁ (g₁.instr i).next = some g'
            rw [hhead]
            exact hrun
          · rw [hblock]
            funext c
            simp only [g₁, setParent, modifyBlock_block, modifyInstr_block, List.length_cons]
            split_ifs
            · dsimp only
              congr 1
              omega
            · rfl
          · rw [hparent, hinstr]
            by_cases hj : j = i
            · subst hj
              simp
            · simp [hj]

/-! ## The whole operation -/

/-- The graph before the ends of the segments are set: `m :: l` has been given to the new block. -/
structure SplitOff (g : Graph) (b i m : Nat) (l : List Nat) (g' : Graph) : Prop where
  new : g'.block g.blockCount = { id := g.bblocks.length, inGraph := true, loop := (g.block b).loop, succs := (g.block b).succs,
                                  instrsCount := (m :: l).length }
  block : ∀ c, c ≠ g.blockCount → g'.block c = { g.block c with
    preds := if c ∈ (g.block b).succs then swapErase (g.block c).preds b ++ [g.blockCount] else (g.block c).preds
    succs := if c = b then [] else (g.block c).succs
    instrsCount := if c = b then (g.block b).instrsCount - (m :: l).length else (g.block c).instrsCount }
  instr : ∀ j, g'.instr j = { g.instr j with
    parent := if j ∈ m :: l then some g.blockCount else (g.instr j).parent
    next := if j = i then none else (g.instr j).next
    prev := if j = m then none else (g.instr j).prev }
  instrCount : g'.instrCount = g.instrCount

theorem Fresh.ne (hf : g.Fresh) (h : g.Lists) (hi : (g.instr i).parent = some b) : b ≠ g.blockCount := by
  rintro rfl
  have hmem := h.mem_instrs.mpr hi
  rw [hf.empty] at hmem
  cases hmem

/-- The new block joins the loop of the old one. -/
theorem newBlock_loop (hf : g.Fresh) (hb : b ≠ g.blockCount) :
    ∃ g', (match (g.newBasicBlock.1.block b).loop with
      | some loop => g.newBasicBlock.1.loopAddBasicBlock loop g.blockCount
      | none => some g.newBasicBlock.1) = some g' ∧
      (∀ c, g'.block c = if c = g.blockCount then
        { id := g.bblocks.length, inGraph := true, loop := (g.block b).loop } else g.block c) ∧
      g'.instr = g.instr ∧ g'.instrCount = g.instrCount := by
  have hloop : (g.newBasicBlock.1.block b).loop = (g.block b).loop := by rw [newBasicBlock_block, if_neg hb]
  rw [hloop]
  cases hl : (g.block b).loop with
  | none =>
      refine ⟨g.newBasicBlock.1, rfl, fun c => ?_, rfl, rfl⟩
      rw [newBasicBlock_block]
  | some loop =>
      have hnone : (g.newBasicBlock.1.block g.blockCount).loop = none := by rw [newBasicBlock_block, if_pos rfl]
      refine ⟨_, loopAddBasicBlock_eq hnone (hf.loops loop), fun c => ?_, rfl, rfl⟩
      rw [modifyLoop_block, modifyBlock_block, newBasicBlock_block, if_pos rfl, newBasicBlock_block]
      split_ifs <;> rfl

theorem splitAfterInstruction_start {l₁ l₂ : List Nat} (h : g.Lists) (hg : g.Connected) (hf : g.Fresh)
    (hl : g.Listed b phis rest) (heq : phis ++ rest = l₁ ++ i :: m :: l₂) :
    ∃ g', g.splitAfterInstruction b i false = ((g'.splitEnds b g.blockCount i m).map fun u => (u, g.blockCount)) ∧
      SplitOff g b i m l₂ g' := by
  have hi : (g.instr i).parent = some b := hl.parent i (by simp [heq])
  have hnext : (g.instr i).next = some m := hl.next_eq heq
  have hb := hf.ne h hi
  obtain ⟨g₂, hloop, hblock₂, hinstr₂, hcount₂⟩ := newBlock_loop hf hb
  have hold : ∀ c, c ≠ g.blockCount → g₂.block c = g.block c := fun c hc => by rw [hblock₂, if_neg hc]
  obtain ⟨g₃, hmove, hhanded⟩ : ∃ g₃, (g.block b).succs.foldlM (moveSuccessor b g.blockCount) g₂ = some g₃ ∧
      Handed g₂ b g.blockCount (g.block b).succs g₃ := by
    refine foldlM_completes (P := fun done u => Handed g₂ b g.blockCount done u) (fun done t l u heq hu => ?_) ?_
    · have hnodup := hg.succs_nodup b
      have hlen := hg.succs_le b
      rw [heq] at hnodup hlen
      have ht : t ∈ (g.block b).succs := by simp [heq]
      have htn : t ≠ g.blockCount := fun he => hf.loose.not_succ hg b (he ▸ ht)
      refine moveSuccessor_eq hu ?_ ?_ htn (fun hmem => List.disjoint_of_nodup_append hnodup hmem List.mem_cons_self) ?_
      · rw [hold t htn]
        exact (hg.edges b t).mp ht
      · rw [hold t htn]
        exact hf.loose.not_pred hg t
      · rw [List.length_append, List.length_cons] at hlen
        omega
    · refine ⟨?_, fun c _ => by simp, rfl, rfl⟩
      rw [hblock₂, if_pos rfl]
  -- the link between `i` and `m` is cut, and what comes after is given to the new block
  let g₄ := ((g₃.modifyBlock b fun x => { x with succs := [] }).setNext i none).setPrev m none
  have hinstr₄ : ∀ j, g₄.instr j = { g.instr j with
      next := if j = i then none else (g.instr j).next
      prev := if j = m then none else (g.instr j).prev } := by
    intro j
    simp only [g₄, setPrev, setNext, modifyInstr_instr, modifyBlock_instr, hhanded.instr, hinstr₂]
    split_ifs <;> simp_all
  have hblock₄ : g₄.block = (g₃.modifyBlock b fun x => { x with succs := [] }).block := rfl
  have hcount₄ : g₄.instrCount = g.instrCount := hhanded.instrCount.trans hcount₂
  have hnodup := hl.nodup
  rw [heq] at hnodup
  have hlinks : ∀ l₁' j l₂', m :: l₂ = l₁' ++ j :: l₂' →
      (if j = i then none else (g.instr j).next) = l₂'.head? := by
    intro l₁' j l₂' hj
    have hji : j ≠ i := by
      rintro rfl
      have hmem : j ∈ m :: l₂ := by simp [hj]
      exact (List.nodup_cons.mp hnodup.of_append_right).1 hmem
    have heq' : phis ++ rest = (l₁ ++ i :: l₁') ++ j :: l₂' := by simp [heq, hj]
    rw [if_neg hji, hl.next_eq heq']
  have hfuel : (m :: l₂).length ≤ g₄.instrCount := by
    have := hl.length_le
    rw [heq, List.length_append, List.length_cons] at this
    omega
  obtain ⟨g₅, hrun, hblock₅, hinstr₅, hcount₅⟩ := moveInstructions_eq (n := g.blockCount)
    (fun j => congrArg Instruction.next (hinstr₄ j)) hlinks hfuel
  have hrun' : moveInstructions g.blockCount g₄.instrCount g₄ (some m) = some g₅ := hrun
  refine ⟨g₅.modifyBlock b fun x => { x with instrsCount := x.instrsCount - (g₅.block g.blockCount).instrsCount }, ?_, ?_⟩
  · have base : g.createEmptyBasicBlock false = some (g.newBasicBlock.1, g.blockCount) := rfl
    have hsuccs : (g₂.block b).succs = (g.block b).succs := by rw [hold b hb]
    rw [splitAfterInstruction, ASSERT_of hi, hnext, base]
    simp only [Option.bind_eq_bind, Option.bind_some, Bool.false_eq_true, if_false]
    cases hcase : (g.newBasicBlock.1.block b).loop with
    | none =>
        rw [hcase] at hloop
        obtain rfl := Option.some.inj hloop
        simp only [hsuccs, hmove, Option.bind_some]
        rw [hrun', Option.bind_some]
        exact Option.map_eq_bind.symm
    | some loop =>
        rw [hcase] at hloop
        simp only [hloop, hsuccs, hmove, Option.bind_some]
        rw [hrun', Option.bind_some]
        exact Option.map_eq_bind.symm
  · refine ⟨?_, fun c hc => ?_, fun j => ?_, hcount₅.trans hcount₄⟩
    · rw [modifyBlock_block_ne _ _ hb.symm, hblock₅, modifyBlock_block_self, hblock₄, modifyBlock_block_ne _ _ hb.symm,
        hhanded.new, hblock₂, if_pos rfl]
      simp
    · have hnew : (g₅.block g.blockCount).instrsCount = (m :: l₂).length := by
        rw [hblock₅, modifyBlock_block_self, hblock₄, modifyBlock_block_ne _ _ hb.symm, hhanded.new, hblock₂, if_pos rfl]
        exact Nat.zero_add _
      have hc₅ : g₅.block c = (g₃.modifyBlock b fun x => { x with succs := [] }).block c := by
        rw [hblock₅, modifyBlock_block_ne _ _ hc, hblock₄]
      by_cases hcb : c = b
      · subst hcb
        rw [modifyBlock_block_self, hc₅, modifyBlock_block_self, hhanded.block c hc, hold c hc, hnew]
        simp
      · rw [modifyBlock_block_ne _ _ hcb, hc₅, modifyBlock_block_ne _ _ hcb, hhanded.block c hc, hold c hc]
        simp [hcb]
    · rw [modifyBlock_instr, hinstr₅, hinstr₄]

end CompilerLab.Jit.Graph
