import CompilerLab.Jit.BranchElimination
import CompilerLab.Jit.DomTree
import CompilerLab.Jit.Lemmas.Edges
import CompilerLab.Jit.Lemmas.Traversals

/-!
# What branch elimination leaves of the graph

Deciding branches takes edges away and nothing else. Removing the blocks that are not live takes them out of the graph,
and leaves the successors and the dominators of the live blocks as they were.
-/

namespace CompilerLab.Jit.Graph

open CompilerLab.Lib

variable {g g₁ g' : Graph} {b c : Nat} {live : List Nat}

/-! ## Deciding branches -/

/-- Edges have been taken away, instruction lists may have changed, and analyses may have become invalid. -/
structure Cuts (g g' : Graph) : Prop where
  graph : { g' with instr := g.instr, block := g.block, valid := g.valid } = g
  succs : ∀ c, (g'.block c).succs ⊆ (g.block c).succs
  dominator : ∀ c, (g'.block c).dominator = (g.block c).dominator
  dominated : ∀ c, (g'.block c).dominated = (g.block c).dominated

namespace Cuts

theorem refl (g : Graph) : Cuts g g := ⟨rfl, fun _ => List.Subset.refl _, fun _ => rfl, fun _ => rfl⟩

theorem trans {g₁ g₂ g₃ : Graph} (h₁ : Cuts g₁ g₂) (h₂ : Cuts g₂ g₃) : Cuts g₁ g₃ where
  graph :=
    have h := congrArg (fun g : Graph => { g with instr := g₁.instr, block := g₁.block, valid := g₁.valid }) h₂.graph
    h.trans h₁.graph
  succs c := List.Subset.trans (h₂.succs c) (h₁.succs c)
  dominator c := (h₂.dominator c).trans (h₁.dominator c)
  dominated c := (h₂.dominated c).trans (h₁.dominated c)

theorem of_instrsOnly (h : InstrsOnly g g') : Cuts g g' where
  graph :=
    have hg := congrArg (fun x : Graph => { x with valid := g.valid }) h.graph
    hg
  succs c := (h.sameEdges c).1 ▸ List.Subset.refl _
  dominator c :=
    have hc := congrArg BasicBlock.dominator (h.block c)
    hc
  dominated c :=
    have hc := congrArg BasicBlock.dominated (h.block c)
    hc

theorem of_disconnects (h : Disconnects g b c g') : Cuts g g' where
  graph := h.graph
  succs d := by
    rw [h.succs]
    split
    · next hd => exact hd ▸ List.erase_subset
    · exact List.Subset.refl _
  dominator := h.dominator
  dominated := h.dominated

theorem bblocks (h : Cuts g g') : g'.bblocks = g.bblocks := by
  have hg := congrArg Graph.bblocks h.graph
  exact hg

theorem blocks (h : Cuts g g') : g'.blocks = g.blocks := congrArg (List.filterMap id) h.bblocks

theorem firstBlock (h : Cuts g g') : g'.firstBlock = g.firstBlock := by
  have hg := congrArg Graph.firstBlock h.graph
  exact hg

theorem isEmpty (h : Cuts g g') : g'.isEmpty = g.isEmpty := by
  have hg := congrArg Graph.isEmpty h.graph
  exact hg

end Cuts

theorem removeEdge_cuts {cmp r} (h : g.removeEdge cmp r = some g') : Cuts g g' := by
  simp only [removeEdge, Option.bind_eq_bind, Option.bind_eq_some_iff, ASSERT_eq_some, exists_const] at h
  obtain ⟨_, -, -, _, -, -, _, -, -, g₁, h₁, g₂, h₂, h₃⟩ := h
  exact (Cuts.of_instrsOnly (unlinkInstruction_instrsOnly h₁)).trans
    ((Cuts.of_instrsOnly (unlinkInstruction_instrsOnly h₂)).trans (.of_disconnects (disconnectBasicBlocks_disconnects h₃)))

theorem propagateConstInCond_cuts {s s' : Graph × Bool} (h : propagateConstInCond s b = some s') :
    Cuts s.1 s'.1 ∧ (s'.2 = false → s' = s) := by
  obtain ⟨g, removed⟩ := s
  simp only [propagateConstInCond, Option.bind_eq_bind, Option.bind_eq_some_iff] at h
  obtain ⟨cmp, -, h⟩ := h
  cases cmp with
  | none =>
      obtain rfl := Option.some.inj h
      exact ⟨.refl _, fun _ => rfl⟩
  | some cmp =>
      simp only [Option.bind_eq_some_iff] at h
      obtain ⟨eval, -, h⟩ := h
      split at h
      · simp only [Option.bind_eq_some_iff, Option.pure_def, Option.some.injEq] at h
        obtain ⟨g₁, h₁, rfl⟩ := h
        exact ⟨removeEdge_cuts h₁, fun hf => by simp at hf⟩
      · obtain rfl := Option.some.inj h
        exact ⟨.refl _, fun _ => rfl⟩

/-- Deciding branches cuts edges, and leaves the graph as it was when nothing is decided. -/
theorem propagateConstsInCond_cuts {r} (h : g.propagateConstsInCond = some (g', r)) :
    Cuts g g' ∧ (r = false → g' = g) := by
  have hkeep : Cuts g g' ∧ (r = false → (g', r) = (g, false)) := by
    refine foldlM_invariant (P := fun s : Graph × Bool => Cuts g s.1 ∧ (s.2 = false → s = (g, false))) ?_
      ⟨.refl g, fun _ => rfl⟩ h
    intro s a s' _ hs hstep
    obtain ⟨hcuts, hsame⟩ := propagateConstInCond_cuts hstep
    refine ⟨hs.1.trans hcuts, fun hf => ?_⟩
    rw [hsame hf]
    exact hs.2 (hsame hf ▸ hf)
  exact ⟨hkeep.1, fun hf => congrArg Prod.fst (hkeep.2 hf)⟩

/-! ## Removing blocks -/

theorem filterMap_set_none {l : List (Option Nat)} {i x : Nat} (h : l[i]? = some (some x)) (hnd : (l.filterMap id).Nodup) :
    (l.set i none).filterMap id = (l.filterMap id).erase x := by
  induction l generalizing i with
  | nil => simp at h
  | cons y l ih =>
      cases i with
      | zero =>
          obtain rfl : y = some x := by simpa using h
          simp
      | succ i =>
          have h' : l[i]? = some (some x) := by simpa using h
          cases y with
          | none => simpa using ih h' (by simpa using hnd)
          | some z =>
              have hnd : (z :: l.filterMap id).Nodup := hnd
              have hx : x ∈ l.filterMap id := List.mem_filterMap.2 ⟨some x, List.mem_of_getElem? h', rfl⟩
              have hzx : z ≠ x := fun hzx => (List.nodup_cons.1 hnd).1 (hzx ▸ hx)
              change z :: (l.set i none).filterMap id = (z :: l.filterMap id).erase x
              rw [ih h' (List.nodup_cons.1 hnd).2, List.erase_cons_tail (by simpa using hzx)]

theorem unlinkBasicBlockRaw_blocks (hnd : g.blocks.Nodup) (h : g.unlinkBasicBlockRaw b = some g') :
    b ∈ g.blocks ∧ g'.blocks = g.blocks.erase b := by
  simp only [unlinkBasicBlockRaw, Option.bind_eq_bind, ASSERT_bind, Option.pure_def, Option.some.injEq] at h
  obtain ⟨-, hb, rfl⟩ := h
  exact ⟨List.mem_filterMap.2 ⟨some b, List.mem_of_getElem? hb, rfl⟩, filterMap_set_none hb hnd⟩

theorem unlinkBasicBlockRaw_block (h : g.unlinkBasicBlockRaw b = some g') (c : Nat) :
    (g'.block c).succs = (g.block c).succs ∧ (g'.block c).dominator = (g.block c).dominator ∧
      (g'.block c).dominated = (g.block c).dominated := by
  simp only [unlinkBasicBlockRaw, Option.bind_eq_bind, ASSERT_bind, Option.pure_def, Option.some.injEq] at h
  obtain ⟨-, -, rfl⟩ := h
  simp only [invalidateAfterChangedCFG, modifyBlock_block]
  split
  · subst c; exact ⟨rfl, rfl, rfl⟩
  · exact ⟨rfl, rfl, rfl⟩

/-- The live blocks of `g` have the successors they had in `g₁`, and list the blocks of `g` they dominate. -/
structure KeepsLive (g₁ : Graph) (live : List Nat) (g : Graph) : Prop where
  nodup : g.blocks.Nodup
  succs : ∀ b ∈ live, (g.block b).succs = (g₁.block b).succs
  dominator : ∀ b, (g.block b).dominator = (g₁.block b).dominator
  dominated_nodup : ∀ b ∈ live, (g.block b).dominated.Nodup
  dominated : ∀ b ∈ live, ∀ c, c ∈ (g.block b).dominated ↔ c ∈ g.blocks ∧ (g.block c).dominator = some b

/-- Cutting edges of a block that is not live. -/
theorem disconnectLive_frame (hb : b ∉ live) {l : List Nat} (h : l.foldlM (disconnectLive live b) g = some g') :
    Cuts g g' ∧ ∀ c ∈ live, (g'.block c).succs = (g.block c).succs := by
  refine foldlM_rel (R := fun g g' : Graph => Cuts g g' ∧ ∀ c ∈ live, (g'.block c).succs = (g.block c).succs)
    (fun g => ⟨.refl g, fun _ _ => rfl⟩) (fun h h' => ⟨h.1.trans h'.1, fun c hc => (h'.2 c hc).trans (h.2 c hc)⟩) ?_ h
  intro s succ s' _ hs
  unfold disconnectLive at hs
  split at hs
  · have hd := disconnectBasicBlocks_disconnects hs
    refine ⟨.of_disconnects hd, fun c hc => ?_⟩
    rw [hd.succs, if_neg fun hcb : c = b => hb (hcb ▸ hc)]
  · obtain rfl := Option.some.inj hs
    exact ⟨.refl _, fun _ _ => rfl⟩

/-- Mending the dominator tree takes the block off the list of its dominator. -/
theorem fixDominated_spec (h : g.fixDominated live b = some g') : ∃ d, (g.block b).dominator = some d ∧
    g'.bblocks = g.bblocks ∧
    ∀ c, (g'.block c).succs = (g.block c).succs ∧ (g'.block c).dominator = (g.block c).dominator ∧
      (c ∈ live → (g'.block c).dominated = if c = d then swapErase (g.block d).dominated b else (g.block c).dominated) ∧
      (d ∈ live → b ∈ (g.block d).dominated) := by
  simp only [fixDominated, Option.bind_eq_bind, Option.bind_eq_some_iff] at h
  obtain ⟨d, hd, h⟩ := h
  refine ⟨d, hd, ?_⟩
  split at h
  case isTrue hlive =>
    simp only [removeDominatedBlock, Option.bind_eq_bind, ASSERT_bind, Option.pure_def, Option.some.injEq] at h
    obtain ⟨hmem, rfl⟩ := h
    refine ⟨rfl, fun c => ?_⟩
    rw [modifyBlock_block]
    split
    · next hc => subst hc; exact ⟨rfl, rfl, fun _ => rfl, fun _ => hmem⟩
    · exact ⟨rfl, rfl, fun _ => rfl, fun _ => hmem⟩
  case isFalse hlive =>
    obtain rfl := Option.some.inj h
    refine ⟨rfl, fun c => ⟨rfl, rfl, fun hc => ?_, fun hd => absurd hd hlive⟩⟩
    rw [if_neg fun hcd : c = d => hlive (hcd ▸ hc)]

theorem KeepsLive.removeUnreachable (hk : KeepsLive g₁ live g) (hb : b ∉ live)
    (h : g.removeUnreachable b live true = some g') : KeepsLive g₁ live g' ∧ g'.blocks = g.blocks.erase b := by
  simp only [Graph.removeUnreachable, Option.bind_eq_bind, Option.bind_eq_some_iff, ASSERT_eq_some, exists_const,
    if_true] at h
  obtain ⟨-, g₂, h₂, g₃, h₃, h₄⟩ := h
  obtain ⟨hcuts, hsuccs⟩ := disconnectLive_frame hb h₂
  obtain ⟨d, hd, hbb, hfix⟩ := fixDominated_spec h₃
  have hblocks₃ : g₃.blocks = g.blocks := (congrArg (List.filterMap id) hbb).trans hcuts.blocks
  have hblocks : g'.blocks = g.blocks.erase b := hblocks₃ ▸ (unlinkBasicBlockRaw_blocks (hblocks₃ ▸ hk.nodup) h₄).2
  have hraw := unlinkBasicBlockRaw_block h₄
  have hdominator : ∀ c, (g'.block c).dominator = (g.block c).dominator := fun c =>
    (hraw c).2.1.trans ((hfix c).2.1.trans (hcuts.dominator c))
  rw [hcuts.dominator b] at hd
  have hdominated : ∀ c ∈ live, (g'.block c).dominated =
      if c = d then swapErase (g.block c).dominated b else (g.block c).dominated := by
    intro c hc
    rw [(hraw c).2.2, (hfix c).2.2.1 hc, hcuts.dominated, hcuts.dominated]
    split_ifs with hcd
    · rw [hcd]
    · rfl
  have hmem : d ∈ live → b ∈ (g.block d).dominated := fun hl => hcuts.dominated d ▸ (hfix d).2.2.2 hl
  refine ⟨⟨hblocks ▸ hk.nodup.erase b, fun c hc => ?_, fun c => (hdominator c).trans (hk.dominator c), ?_, ?_⟩, hblocks⟩
  · rw [(hraw c).1, (hfix c).1, hsuccs c hc, hk.succs c hc]
  · intro c hc
    rw [hdominated c hc]
    split
    · next hcd =>
        subst hcd
        exact (swapErase_perm (hmem hc)).nodup_iff.2 ((hk.dominated_nodup c hc).erase b)
    · exact hk.dominated_nodup c hc
  · intro c hc e
    rw [hdominated c hc, hblocks, hdominator, hk.nodup.mem_erase_iff]
    split
    · next hcd =>
        subst hcd
        rw [(swapErase_perm (hmem hc)).mem_iff, (hk.dominated_nodup c hc).mem_erase_iff, hk.dominated c hc, and_assoc]
    · next hcd =>
        have hne : (g.block e).dominator = some c → e ≠ b := fun he heb =>
          hcd (Option.some.inj (he.symm.trans (heb ▸ hd)))
        rw [hk.dominated c hc]
        tauto

/-- The loop of the pass takes the blocks that are not live out of the graph. -/
theorem KeepsLive.removeNotMarked {l : List Nat} (hk : KeepsLive g₁ live g)
    (h : l.foldlM (removeNotMarked live true) g = some g') :
    KeepsLive g₁ live g' ∧ ∀ b, b ∈ g'.blocks ↔ b ∈ g.blocks ∧ (b ∈ live ∨ b ∉ l) := by
  refine foldlM_passed
    (P := fun done x => KeepsLive g₁ live x ∧ ∀ b, b ∈ x.blocks ↔ b ∈ g.blocks ∧ (b ∈ live ∨ b ∉ done)) ?_
    ⟨hk, fun b => by simp⟩ h
  rintro done a rest s s' - ⟨hs, hblocks⟩ hstep
  unfold Graph.removeNotMarked at hstep
  split at hstep
  case isTrue ha =>
    obtain rfl := Option.some.inj hstep
    refine ⟨hs, fun b => (hblocks b).trans (and_congr_right fun _ => ?_)⟩
    simp only [List.mem_append, List.mem_singleton, not_or]
    have : b = a → b ∈ live := fun hba => hba ▸ ha
    tauto
  case isFalse ha =>
    obtain ⟨hs', hblocks'⟩ := hs.removeUnreachable ha hstep
    refine ⟨hs', fun b => ?_⟩
    rw [hblocks', hs.nodup.mem_erase_iff, hblocks b]
    simp only [List.mem_append, List.mem_singleton, not_or]
    have : b = a → b ∉ live := fun hba => hba ▸ ha
    tauto

end CompilerLab.Jit.Graph
