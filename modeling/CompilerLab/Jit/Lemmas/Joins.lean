import CompilerLab.Jit.EdgeOps
import CompilerLab.Jit.Lemmas.CriticalEdge

/-!
# Joins

A block with its predecessors and the phis that choose between them, and what putting a block on an edge into it does.
-/

namespace CompilerLab.Jit.Graph

open CompilerLab.Lib

variable {g g' : Graph} {b c n p : Nat} {phis rest : List Nat}

/-- The blocks are linked in both directions, and a branch has two different successors. -/
structure Connected (g : Graph) : Prop where
  edges : ∀ b c, c ∈ (g.block b).succs ↔ b ∈ (g.block c).preds
  preds_nodup : ∀ b, (g.block b).preds.Nodup
  succs_nodup : ∀ b, (g.block b).succs.Nodup
  succs_le : ∀ b, (g.block b).succs.length ≤ 2

theorem Connected.ofLists {instrs : List Instruction} {blocks : List BasicBlock} {loops : List Loop}
    (hsuccs : ∀ b < blocks.length, ∀ c ∈ ((Graph.ofLists instrs blocks loops).block b).succs,
      c < blocks.length ∧ b ∈ ((Graph.ofLists instrs blocks loops).block c).preds)
    (hpreds : ∀ c < blocks.length, ∀ b ∈ ((Graph.ofLists instrs blocks loops).block c).preds,
      b < blocks.length ∧ c ∈ ((Graph.ofLists instrs blocks loops).block b).succs)
    (hblocks : ∀ x ∈ blocks, x.preds.Nodup ∧ x.succs.Nodup ∧ x.succs.length ≤ 2) :
    (Graph.ofLists instrs blocks loops).Connected := by
  have outside : ∀ b, blocks.length ≤ b → (Graph.ofLists instrs blocks loops).block b = {} :=
    fun b hb => Graph.ofLists_block_ge hb
  have all : ∀ b, ((Graph.ofLists instrs blocks loops).block b).preds.Nodup ∧
      ((Graph.ofLists instrs blocks loops).block b).succs.Nodup ∧
      ((Graph.ofLists instrs blocks loops).block b).succs.length ≤ 2 := by
    intro b
    rcases Nat.lt_or_ge b blocks.length with hb | hb
    · have hblock : (Graph.ofLists instrs blocks loops).block b = blocks[b] := List.getD_eq_getElem _ _ hb
      rw [hblock]
      exact hblocks _ (List.getElem_mem hb)
    · rw [outside b hb]
      exact ⟨List.nodup_nil, List.nodup_nil, Nat.zero_le 2⟩
  refine ⟨fun b c => ⟨fun hc => ?_, fun hb => ?_⟩, fun b => (all b).1, fun b => (all b).2.1, fun b => (all b).2.2⟩
  · rcases Nat.lt_or_ge b blocks.length with h | h
    · exact (hsuccs b h c hc).2
    · rw [outside b h] at hc
      cases hc
  · rcases Nat.lt_or_ge c blocks.length with h | h
    · exact (hpreds c h b hb).2
    · rw [outside c h] at hb
      cases hb

/-- Every phi of a block has one source, with an input, for each predecessor. -/
structure InStep (g : Graph) (b : Nat) (phis : List Nat) : Prop where
  sources : ∀ phi ∈ phis, (g.instr phi).sourceBBlocks.Perm (g.block b).preds
  inputs : ∀ phi ∈ phis, (g.instr phi).inputs.length = (g.instr phi).sourceBBlocks.length

/-- A block without edges. -/
structure Loose (g : Graph) (n : Nat) : Prop where
  preds : (g.block n).preds = []
  succs : (g.block n).succs = []

namespace Loose

theorem not_succ (hn : g.Loose n) (hg : g.Connected) (c : Nat) : n ∉ (g.block c).succs := by
  rw [hg.edges, hn.preds]
  exact List.not_mem_nil

theorem not_pred (hn : g.Loose n) (hg : g.Connected) (c : Nat) : n ∉ (g.block c).preds := by
  rw [← hg.edges, hn.succs]
  exact List.not_mem_nil

theorem ne_of_succ (hn : g.Loose n) (h : c ∈ (g.block b).succs) : b ≠ n := by
  rintro rfl
  rw [hn.succs] at h
  cases h

theorem ne_of_pred (hn : g.Loose n) (h : c ∈ (g.block b).preds) : b ≠ n := by
  rintro rfl
  rw [hn.preds] at h
  cases h

end Loose

/-! ## Edges -/

section
variable {f : BasicBlock → BasicBlock}

theorem modifyBlock_preds (h : ∀ x, (f x).preds = x.preds) : ((g.modifyBlock b f).block c).preds = (g.block c).preds := by
  rw [modifyBlock_block]
  split_ifs with hc
  · rw [h, hc]
  · rfl

theorem modifyBlock_succs (h : ∀ x, (f x).succs = x.succs) : ((g.modifyBlock b f).block c).succs = (g.block c).succs := by
  rw [modifyBlock_block]
  split_ifs with hc
  · rw [h, hc]
  · rfl

end

theorem addPredecessor_eq (h : p ∉ (g.block b).preds) :
    g.addPredecessor b p = some (g.modifyBlock b fun x => { x with preds := x.preds ++ [p] }) := by
  rw [addPredecessor, ASSERT_of h]
  rfl

theorem addSuccessor_eq (hlen : (g.block b).succs.length < 2) (h : c ∉ (g.block b).succs) :
    g.addSuccessor b c = some (g.modifyBlock b fun x => { x with succs := x.succs ++ [c] }) := by
  rw [addSuccessor, ASSERT_of hlen, ASSERT_of h]
  rfl

theorem removePredecessor_eq (h : p ∈ (g.block b).preds) :
    g.removePredecessor b p = some (g.modifyBlock b fun x => { x with preds := swapErase x.preds p }) := by
  rw [removePredecessor, ASSERT_of h]
  rfl

theorem removeSuccessor_eq (h : c ∈ (g.block b).succs) :
    g.removeSuccessor b c = some (g.modifyBlock b fun x => { x with succs := x.succs.erase c }) := by
  rw [removeSuccessor, ASSERT_of h]
  rfl

theorem replacePredecessor_eq (h : p ∈ (g.block b).preds) :
    g.replacePredecessor b p n = some (g.modifyBlock b fun x => { x with preds := x.preds.replace p n }) := by
  rw [replacePredecessor, ASSERT_of h]
  rfl

theorem replaceSuccessor_eq (h : c ∈ (g.block b).succs) :
    g.replaceSuccessor b c n = some (g.modifyBlock b fun x => { x with succs := x.succs.replace c n }) := by
  rw [replaceSuccessor, ASSERT_of h]
  rfl

/-! ## A block on one edge -/

/-- The edges after `n` has been put between `p` and `b`. -/
structure OnEdge (g : Graph) (n p b : Nat) (g' : Graph) : Prop where
  new : g'.block n = { g.block n with preds := [p], succs := [b] }
  block : ∀ c, c ≠ n → g'.block c = { g.block c with
    succs := if c = p then (g.block p).succs.replace b n else (g.block c).succs
    preds := if c = b then (g.block b).preds.replace p n else (g.block c).preds }

/-- `InsertBetween` without its loop over the phis. -/
theorem insertBetween_start (hg : g.Connected) (hn : g.Loose n) (hp : p ∈ (g.block b).preds) :
    ∃ g₁ : Graph, (g.insertBetween n p b = match (g₁.block b).firstPhi with
      | none => some g₁
      | some firstPhi => (ASSERT (1 < (g₁.block b).preds.length)).bind fun _ =>
          forPhi id (fun g phi => g.replaceSourceBasicBlock phi p n) g₁.instrCount g₁ (some firstPhi)) ∧
      OnEdge g n p b g₁ ∧ g₁.instr = g.instr ∧ g₁.instrCount = g.instrCount := by
  have hb : b ∈ (g.block p).succs := (hg.edges p b).mpr hp
  have hpn : p ≠ n := hn.ne_of_succ hb
  have hbn : b ≠ n := hn.ne_of_pred hp
  have hpreds := hn.preds
  have hsuccs := hn.succs
  refine ⟨(((g.modifyBlock p fun x => { x with succs := x.succs.replace b n }).modifyBlock n fun x =>
    { x with preds := x.preds ++ [p] }).modifyBlock b fun x => { x with preds := x.preds.replace p n }).modifyBlock n
      fun x => { x with succs := x.succs ++ [b] }, ?_, ⟨?_, fun c hc => ?_⟩, rfl, rfl⟩
  · rw [insertBetween, replaceSuccessor_eq hb]
    simp only [Option.bind_eq_bind, Option.bind_some]
    have hpred : p ∈ ((g.modifyBlock p fun x => { x with succs := x.succs.replace b n }).block b).preds := by
      rw [modifyBlock_preds (by exact fun _ => rfl)]
      exact hp
    rw [addPredecessor_eq (by simp [hpn.symm, hpreds]), Option.bind_some,
      replacePredecessor_eq (by simp [hbn, hpred]), Option.bind_some,
      addSuccessor_eq (by simp [hbn.symm, hpn.symm, hsuccs]) (by simp [hbn.symm, hpn.symm, hsuccs]), Option.bind_some]
    rfl
  · simp only [modifyBlock_block]
    simp [hpn.symm, hbn.symm, hpreds, hsuccs]
  · simp only [modifyBlock_block]
    by_cases hcp : c = p
    · subst hcp
      by_cases hcb : c = b
      · subst hcb
        simp [hc]
      · simp [hc, hcb]
    · by_cases hcb : c = b
      · subst hcb
        simp [hc, hcp]
      · simp [hc, hcp, hcb]

theorem insertBetween_eq (hg : g.Connected) (hl : g.Layout b phis rest) (hs : g.InStep b phis) (hn : g.Loose n)
    (hp : p ∈ (g.block b).preds) (hfit : phis = [] ∨ 1 < (g.block b).preds.length) :
    ∃ g', g.insertBetween n p b = some g' ∧ OnEdge g n p b g' ∧ g'.instrCount = g.instrCount ∧
      ∀ i, g'.instr i = if i ∈ phis then
        { g.instr i with sourceBBlocks := (g.instr i).sourceBBlocks.replace p n } else g.instr i := by
  obtain ⟨g₁, hstart, hedge, hinstr, hcount⟩ := insertBetween_start hg hn hp
  have hfirst : (g₁.block b).firstPhi = phis.head? := by
    rw [hedge.block b (hn.ne_of_pred hp)]
    exact hl.firstPhi
  have hpreds : (g₁.block b).preds = (g.block b).preds.replace p n := by
    rw [hedge.block b (hn.ne_of_pred hp), if_pos rfl]
  rw [hfirst] at hstart
  cases phis with
  | nil => exact ⟨g₁, hstart, hedge, hcount, fun i => by rw [hinstr, if_neg List.not_mem_nil]⟩
  | cons phi phis =>
      have hlen : 1 < (g₁.block b).preds.length := by
        rw [hpreds, List.length_replace]
        exact hfit.resolve_left (List.cons_ne_nil phi phis)
      have hl₁ : g₁.Layout b (phi :: phis) rest := by
        refine hl.congr ?_ (fun i _ => ?_) hcount.ge
        · rw [hedge.block b (hn.ne_of_pred hp)]
          exact ⟨rfl, rfl, rfl, rfl⟩
        · rw [hinstr]
          exact ⟨rfl, rfl, rfl, rfl⟩
      have hsrc : ∀ i ∈ phi :: phis, p ∈ (g₁.instr i).sourceBBlocks := fun i hi => by
        rw [hinstr]
        exact (hs.sources i hi).mem_iff.mpr hp
      obtain ⟨g₂, heq, hblock, -, hcount₂, -, hinstr₂⟩ := LinearScan.forPhi_replaceSource (n := n) hl₁ hsrc
      refine ⟨g₂, ?_, ⟨?_, fun c hc => ?_⟩, hcount₂.trans hcount, fun i => ?_⟩
      · rw [hstart]
        simp only [List.head?_cons]
        rw [ASSERT_of hlen, Option.bind_some]
        exact heq
      · rw [hblock, hedge.new]
      · rw [hblock, hedge.block c hc]
      · rw [hinstr₂, hinstr]

end CompilerLab.Jit.Graph
