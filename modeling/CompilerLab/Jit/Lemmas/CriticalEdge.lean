import CompilerLab.Jit.Lemmas.Layout
import CompilerLab.Jit.ResolvePhis
import CompilerLab.Lib.OptionFold

/-!
# Breaking a critical edge

`InsertBetween` on an edge into a block with phis, and `breakCriticalEdge` as a whole.
-/

namespace CompilerLab.Jit.LinearScan

open CompilerLab.Lib CompilerLab.Jit.Graph

variable {g : Graph} {b p : Nat} {phis rest : List Nat}

/-- The phis of `b` get `n` as a source in the place of `p`. -/
theorem forPhi_replaceSource {n : Nat} (h : g.Layout b phis rest)
    (hsrc : ∀ phi ∈ phis, p ∈ (g.instr phi).sourceBBlocks) :
    ∃ g', forPhi id (fun g phi => g.replaceSourceBasicBlock phi p n) g.instrCount g phis.head? = some g' ∧
      g'.block = g.block ∧ g'.loop = g.loop ∧ g'.instrCount = g.instrCount ∧ g'.blockCount = g.blockCount ∧
      ∀ i, g'.instr i = if i ∈ phis then
          { g.instr i with sourceBBlocks := (g.instr i).sourceBBlocks.replace p n } else g.instr i := by
  let P (done : List Nat) (s : Graph) : Prop :=
    s.block = g.block ∧ s.loop = g.loop ∧ s.instrCount = g.instrCount ∧ s.blockCount = g.blockCount ∧
      ∀ i, s.instr i = if i ∈ done then
          { g.instr i with sourceBBlocks := (g.instr i).sourceBBlocks.replace p n } else g.instr i
  have layout done s (hP : P done s) : ∃ rest, (id s).Layout b phis rest := by
    obtain ⟨hb, -, hic, -, hi⟩ := hP
    refine ⟨rest, h.congr (by rw [id, hb]; exact ⟨rfl, rfl, rfl, rfl⟩) (fun i _ => ?_) hic.ge⟩
    rw [id, hi]
    split <;> exact ⟨rfl, rfl, rfl, rfl⟩
  have step done phi l s (heq : phis = done ++ phi :: l) (hP : P done s) :
      ∃ s', s.replaceSourceBasicBlock phi p n = some s' ∧ P (done ++ [phi]) s' := by
    obtain ⟨hb, hl, hic, hbc, hi⟩ := hP
    have hphi : phi ∉ done := fun hmem => by
      have := h.nodup.of_append_left
      rw [heq] at this
      exact (List.disjoint_of_nodup_append this hmem) List.mem_cons_self
    have same : s.instr phi = g.instr phi := by rw [hi, if_neg hphi]
    have hmem : p ∈ (s.instr phi).sourceBBlocks := by rw [same]; exact hsrc phi (by simp [heq])
    refine ⟨_, replaceSourceBasicBlock_eq_some.2 ⟨hmem, rfl⟩, hb, hl, hic, hbc, fun i => ?_⟩
    rw [modifyInstr_instr]
    by_cases hiphi : i = phi
    · subst hiphi; simp [same]
    · simp [hiphi, hi]
  have start : P [] g := ⟨rfl, rfl, rfl, rfl, fun i => by simp⟩
  obtain ⟨s', heq, hP⟩ := foldlM_completes (l := phis) step start
  refine ⟨s', ?_, hP⟩
  have fuel : phis.length ≤ g.instrCount := by
    have := h.length_le
    rw [List.length_append] at this
    omega
  rw [Layout.forPhi_eq layout ?_ start fuel, heq]
  intro done phi l s s' heq hP hs
  obtain ⟨t, ht, hP'⟩ := step done phi l s heq hP
  exact Option.some.inj (ht.symm.trans hs) ▸ hP'

/-- The edge from `p` to `b` goes through the new block `g.blockCount`. -/
structure BreaksEdge (g : Graph) (b p : Nat) (phis : List Nat) (g' : Graph) : Prop where
  new_preds : (g'.block g.blockCount).preds = [p]
  new_succs : (g'.block g.blockCount).succs = [b]
  new_ends : (g'.block g.blockCount).firstPhi = none ∧ (g'.block g.blockCount).lastPhi = none ∧
    (g'.block g.blockCount).firstInst = none ∧ (g'.block g.blockCount).lastInst = none
  succs : ∀ c, c ≠ g.blockCount →
    (g'.block c).succs = if c = p then (g.block p).succs.replace b g.blockCount else (g.block c).succs
  preds : ∀ c, c ≠ g.blockCount →
    (g'.block c).preds = if c = b then (g.block b).preds.replace p g.blockCount else (g.block c).preds
  ends : ∀ c, c ≠ g.blockCount → (g'.block c).firstPhi = (g.block c).firstPhi ∧
    (g'.block c).lastPhi = (g.block c).lastPhi ∧ (g'.block c).firstInst = (g.block c).firstInst ∧
    (g'.block c).lastInst = (g.block c).lastInst ∧ (g'.block c).loop = (g.block c).loop
  instr : ∀ i, g'.instr i = if i ∈ phis then
    { g.instr i with sourceBBlocks := (g.instr i).sourceBBlocks.replace p g.blockCount } else g.instr i
  loops : ∀ l c, c ∈ (g'.loop l).basicBlocks → c ∈ (g.loop l).basicBlocks ∨ c = g.blockCount
  instrCount : g'.instrCount = g.instrCount
  blockCount : g'.blockCount = g.blockCount + 1

theorem breakCriticalEdge_eq {l : Nat} (h : g.Layout b phis rest) (hphis : phis ≠ []) (hb : b < g.blockCount)
    (hp : p < g.blockCount) (hpred : p ∈ (g.block b).preds) (hsucc : b ∈ (g.block p).succs)
    (hlen : 1 < (g.block b).preds.length) (hloop : (g.block p).loop = some l)
    (hfresh : g.blockCount ∉ (g.loop l).basicBlocks) (hsrc : ∀ phi ∈ phis, p ∈ (g.instr phi).sourceBBlocks) :
    ∃ g', breakCriticalEdge g b p = some (g', g.blockCount) ∧ BreaksEdge g b p phis g' := by
  have block := g.newBasicBlock_block
  have hbn : b ≠ g.blockCount := hb.ne
  have hpn : p ≠ g.blockCount := hp.ne
  -- the edges after `InsertBetween`, before the phis are changed
  let g₁ := (((g.newBasicBlock.1.modifyBlock p fun x => { x with succs := x.succs.replace b g.blockCount }).modifyBlock
    g.blockCount fun x => { x with preds := x.preds ++ [p] }).modifyBlock b fun x =>
      { x with preds := x.preds.replace p g.blockCount }).modifyBlock g.blockCount fun x =>
        { x with succs := x.succs ++ [b] }
  have lay : g₁.Layout b phis rest := by
    refine h.congr ?_ (fun _ _ => ⟨rfl, rfl, rfl, rfl⟩) le_rfl
    grind [modifyBlock_block]
  obtain ⟨g₂, heq, hb₂, hl₂, hic, hbc, hi⟩ := forPhi_replaceSource (p := p) (n := g.blockCount) lay hsrc
  have split : g.newBasicBlock.1.insertBetween g.blockCount p b = some g₂ := by
    simp only [insertBetween, replaceSuccessor, addPredecessor, replacePredecessor, addSuccessor, Option.bind_eq_bind,
      Option.bind_eq_some_iff, ASSERT_eq_some, exists_const, Option.pure_def, Option.some.injEq]
    refine ⟨_, ⟨?_, rfl⟩, _, ⟨?_, rfl⟩, _, ⟨?_, rfl⟩, g₁, ⟨?_, ?_, rfl⟩, ?_⟩
    · grind [modifyBlock_block]
    · grind [modifyBlock_block]
    · grind [modifyBlock_block]
    · grind [modifyBlock_block]
    · grind [modifyBlock_block]
    · obtain ⟨phi, phis, rfl⟩ := List.exists_cons_of_ne_nil hphis
      have hlen₁ : 1 < (g₁.block b).preds.length := by grind [modifyBlock_block]
      simp only [lay.firstPhi, List.head?_cons, ASSERT_of hlen₁, Option.bind_some]
      exact heq
  have new : (g₂.block g.blockCount) =
      { id := g.bblocks.length, inGraph := true, preds := [p], succs := [b] } := by
    simp [hb₂, g₁, block, hbn.symm, hpn.symm]
  have old c (hc : c ≠ g.blockCount) : g₂.block c =
      { g.block c with
        succs := if c = p then (g.block p).succs.replace b g.blockCount else (g.block c).succs
        preds := if c = b then (g.block b).preds.replace p g.blockCount else (g.block c).preds } := by
    by_cases hcp : c = p <;> by_cases hcb : c = b <;>
      simp_all [g₁, modifyBlock_block]
  have loop : (g₂.block p).loop = some l := by rw [old p hpn]; exact hloop
  have fresh : (g₂.block g.blockCount).loop = none ∧ g.blockCount ∉ (g₂.loop l).basicBlocks :=
    ⟨by rw [new], by rw [hl₂]; exact hfresh⟩
  refine ⟨(g₂.modifyBlock g.blockCount fun x => { x with loop := some l }).modifyLoop l fun x =>
    { x with basicBlocks := x.basicBlocks ++ [g.blockCount] }, ?_, ?_⟩
  · have base : g.createEmptyBasicBlock false = some (g.newBasicBlock.1, g.blockCount) := rfl
    simp only [breakCriticalEdge, base, Option.bind_eq_bind, Option.bind_some, split, loop, loopAddBasicBlock,
      ASSERT_of fresh, Option.pure_def]
  · constructor
    · simp [new]
    · simp [new]
    · simp [new]
    · intro c hc; simp [hc, old c hc]
    · intro c hc; simp [hc, old c hc]
    · intro c hc; simp [hc, old c hc]
    · intro i; exact hi i
    · intro k c hc
      by_cases hk : k = l
      · subst hk
        simpa [modifyLoop, hl₂, g₁, newBasicBlock, addBasicBlock, invalidateAfterChangedCFG] using hc
      · left
        simpa [modifyLoop, hk, hl₂, g₁, newBasicBlock, addBasicBlock, invalidateAfterChangedCFG] using hc
    · exact hic
    · exact hbc

end CompilerLab.Jit.LinearScan
