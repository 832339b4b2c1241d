import CompilerLab.Jit.Lemmas.PhiEdges

/-!
# Phis and removed edges

`DisconnectBasicBlocks` and `UnlinkBasicBlock` take edges away. The phis of the target stay in step with its predecessors when
it has more than two of them, or no phis, or two predecessors and a single phi whose users list is complete.
-/

namespace CompilerLab.Jit.Graph

open CompilerLab.Lib

variable {g g' : Graph} {b s t : Nat} {phis rest : List Nat}

/-- The edge from `s` to `t` is gone. Every phi left has one source for each predecessor left; with a single one of them there are
no phis, and what used a phi uses its other input. -/
structure LosesEdge (g : Graph) (s t : Nat) (g' : Graph) : Prop where
  preds : (g'.block t).preds.Perm ((g.block t).preds.erase s)
  inStep : g'.InStep t (g'.phis t)
  kept : 1 < (g'.block t).preds.length → g'.phis t = g.phis t
  none : (g'.block t).preds.length = 1 → g'.phis t = []
  uses : (g'.block t).preds.length = 1 → ∀ phi ∈ g.phis t, ∀ p ∈ (g'.block t).preds, ∀ r ∈ g.resolveInput phi p,
    ∀ j k : Nat, (g.instr j).inputs[k]? = some (some phi) → (g'.instr j).inputs[k]? = some (some r)

/-- A block that is left without predecessors has no phis, and one that is left with one predecessor has at most one phi, with
users that are its uses. -/
structure CanLose (g : Graph) (s t : Nat) : Prop where
  one : (g.block t).preds.length = 1 → g.phis t = []
  two : (g.block t).preds.length = 2 → ∀ phi ∈ g.phis t, g.phis t = [phi] ∧
    ∀ p ∈ (g.block t).preds, p ≠ s → ∃ r, g.resolveInput phi p = some r ∧ g.Redirectable phi r

/-- `s` has been taken out of the predecessors of `t`. -/
structure DropsPredecessor (g : Graph) (s t : Nat) (g' : Graph) : Prop where
  preds : (g'.block t).preds = swapErase (g.block t).preds s
  firstPhi : (g'.block t).firstPhi = (g.block t).firstPhi
  lastPhi : (g'.block t).lastPhi = (g.block t).lastPhi
  firstInst : (g'.block t).firstInst = (g.block t).firstInst
  lastInst : (g'.block t).lastInst = (g.block t).lastInst
  instr : g'.instr = g.instr
  instrCount : g'.instrCount = g.instrCount

namespace DropsPredecessor

variable {g₁ : Graph}

theorem layout (h : DropsPredecessor g s t g') (hl : g.Layout t phis rest) : g'.Layout t phis rest := by
  refine hl.congr ⟨h.firstPhi, h.lastPhi, h.firstInst, h.lastInst⟩ (fun i _ => ?_) h.instrCount.ge
  rw [h.instr]
  exact ⟨rfl, rfl, rfl, rfl⟩

theorem preds_perm (h : DropsPredecessor g₁ s t g') (honly : InstrsOnly g g₁) (hsp : s ∈ (g.block t).preds) :
    (g'.block t).preds.Perm ((g.block t).preds.erase s) := by
  rw [h.preds, (honly.sameEdges t).2]
  exact swapErase_perm hsp

theorem preds_length (h : DropsPredecessor g₁ s t g') (honly : InstrsOnly g g₁) (hsp : s ∈ (g.block t).preds) :
    (g'.block t).preds.length = (g.block t).preds.length - 1 := by
  rw [(h.preds_perm honly hsp).length_eq, List.length_erase_of_mem hsp]

/-- Without phis there is nothing to keep in step. -/
theorem losesEdge_nil (h : DropsPredecessor g s t g') (hl : g.Layout t [] rest) (hsp : s ∈ (g.block t).preds) :
    LosesEdge g s t g' := by
  have hphis : g'.phis t = [] := (h.layout hl).phis_eq
  refine ⟨h.preds_perm (.refl g) hsp, ?_, fun _ => ?_, fun _ => hphis, fun _ phi hphi => ?_⟩
  · rw [hphis]
    exact ⟨nofun, nofun⟩
  · rw [hphis, hl.phis_eq]
  · rw [hl.phis_eq] at hphi
    cases hphi

theorem losesEdge_many (h : DropsPredecessor g₁ s t g') (hl : g.Layout t phis rest) (hs : g.InStep t phis)
    (hsp : s ∈ (g.block t).preds) (hlen : 2 < (g.block t).preds.length) (hloses : LosesSource g s phis g₁) :
    LosesEdge g s t g' := by
  have honly : InstrsOnly g g₁ := by
    rw [hloses.graph]
    exact ⟨fun _ => rfl, rfl⟩
  have hl₁ : g₁.Layout t phis rest := by
    refine hl.congr ?_ (fun i _ => ?_) ?_
    · rw [hloses.graph]
      exact ⟨rfl, rfl, rfl, rfl⟩
    · rw [hloses.instr]
      split_ifs <;> exact ⟨rfl, rfl, rfl, rfl⟩
    · rw [hloses.graph]
  have hphis : g'.phis t = phis := (h.layout hl₁).phis_eq
  have hpreds := h.preds_perm honly hsp
  have hlen' := h.preds_length honly hsp
  refine ⟨hpreds, ?_, fun _ => hphis.trans hl.phis_eq.symm, fun _ => by omega, fun _ => by omega⟩
  rw [hphis]
  have hsource : ∀ phi ∈ phis, s ∈ (g.instr phi).sourceBBlocks := fun phi hphi => (hs.sources phi hphi).mem_iff.mpr hsp
  refine ⟨fun phi hphi => ?_, fun phi hphi => ?_⟩
  · rw [h.instr, hloses.instr, if_pos hphi]
    dsimp only
    rw [indexOf, popInto_idxOf (hsource phi hphi)]
    exact (swapErase_perm (hsource phi hphi)).trans (((hs.sources phi hphi).erase s).trans hpreds.symm)
  · rw [h.instr, hloses.instr, if_pos hphi]
    dsimp only
    rw [length_popInto, length_popInto, hs.inputs phi hphi]

end DropsPredecessor

/-- With two predecessors and a phi, everything depends on there being no other phi and on the users of this one. -/
theorem fixPHIAfterDisconnect_two_iff {p phi : Nat} {after : Graph → Graph} (h : g.Lists) (hl : g.Listed t (phi :: phis) rest)
    (hs : g.InStep t (phi :: phis)) (hlen : (g.block t).preds.length = 2) (hsp : s ∈ (g.block t).preds)
    (hp : p ∈ (g.block t).preds) (hne : p ≠ s) (hafter : ∀ g₁, InstrsOnly g g₁ → DropsPredecessor g₁ s t (after g₁)) :
    (∃ g₁, g.fixPHIAfterDisconnect s t = some g₁ ∧ LosesEdge g s t (after g₁)) ↔
      phis = [] ∧ ∃ r, g.resolveInput phi p = some r ∧ g.Redirectable phi r := by
  have only : ∀ g₁, g.fixPHIAfterDisconnect s t = some g₁ → InstrsOnly g g₁ := fun _ => fixPHIAfterDisconnect_instrsOnly
  have hone : ∀ g₁, g.fixPHIAfterDisconnect s t = some g₁ → ((after g₁).block t).preds = [p] := by
    intro g₁ hrun
    have hperm := (hafter g₁ (only g₁ hrun)).preds_perm (only g₁ hrun) hsp
    have hmem : p ∈ ((after g₁).block t).preds := hperm.mem_iff.mpr ((List.mem_erase_of_ne hne).mpr hp)
    have hlen₁ := (hafter g₁ (only g₁ hrun)).preds_length (only g₁ hrun) hsp
    exact eq_singleton_of_mem hmem (by omega)
  have hequ := fixPHIAfterDisconnect_two h hl hs hlen hsp hp hne
  constructor
  · rintro ⟨g₁, hrun, hloses⟩
    have hpreds := hone g₁ hrun
    have hdrops := hafter g₁ (only g₁ hrun)
    rw [hequ] at hrun
    obtain ⟨r, hr, hrun⟩ := Option.bind_eq_some_iff.mp hrun
    obtain ⟨g₀, hrep, hun⟩ := Option.bind_eq_some_iff.mp hrun
    obtain ⟨-, hl₁, -⟩ := h.replacePhi hl hrep hun
    have hphis : (after g₁).phis t = phis := (hdrops.layout hl₁.toLayout).phis_eq
    refine ⟨hphis.symm.trans (hloses.none (by rw [hpreds]; rfl)), r, hr, replaceInputInUsers_iff.mp ⟨g₀, hrep, fun j k hjk => ?_⟩⟩
    have hmem : phi ∈ g.phis t := by
      rw [hl.phis_eq]
      exact List.mem_cons_self
    have huse := hloses.uses (by rw [hpreds]; rfl) phi hmem p (by rw [hpreds]; exact List.mem_cons_self) r hr j k hjk
    rw [hdrops.instr, ((Removes.refl (h.replaceInputInUsers hrep).1).unlink hun).instr_eq j] at huse
    exact huse
  · rintro ⟨rfl, r, hr, hred⟩
    obtain ⟨g₀, hrep, hslots⟩ := replaceInputInUsers_iff.mpr hred
    obtain ⟨h₀, hlinks⟩ := h.replaceInputInUsers hrep
    obtain ⟨hblock, hcount, -⟩ := replaceInputInUsers_keeps hrep
    obtain ⟨g₁, hun⟩ := (hl.congr hblock hcount hlinks).unlink_total (List.mem_append_left _ List.mem_cons_self)
    have hrun : g.fixPHIAfterDisconnect s t = some g₁ := by
      rw [hequ, hr, Option.bind_some, hrep, Option.bind_some, hun]
    obtain ⟨-, hl₁, -⟩ := h.replacePhi hl hrep hun
    have hdrops := hafter g₁ (only g₁ hrun)
    have hpreds := hone g₁ hrun
    have hphis : (after g₁).phis t = [] := (hdrops.layout hl₁.toLayout).phis_eq
    refine ⟨g₁, hrun, hdrops.preds_perm (only g₁ hrun) hsp, ?_, fun hlt => ?_, fun _ => hphis, fun _ i hi q hq r' hr' j k hjk => ?_⟩
    · rw [hphis]
      exact ⟨nofun, nofun⟩
    · rw [hpreds] at hlt
      exact absurd hlt (lt_irrefl 1)
    · rw [hl.phis_eq, List.mem_singleton] at hi
      rw [hpreds, List.mem_singleton] at hq
      subst hi hq
      obtain rfl : r = r' := Option.some.inj (hr.symm.trans hr')
      rw [hdrops.instr, ((Removes.refl h₀).unlink hun).instr_eq j]
      exact hslots j k hjk

theorem fixPHIAfterDisconnect_iff {after : Graph → Graph} (h : g.Lists) (hs : g.InStep t (g.phis t))
    (hsp : s ∈ (g.block t).preds) (hnodup : (g.block t).preds.Nodup)
    (hafter : ∀ g₁, InstrsOnly g g₁ → DropsPredecessor g₁ s t (after g₁)) :
    (∃ g₁, g.fixPHIAfterDisconnect s t = some g₁ ∧ LosesEdge g s t (after g₁)) ↔ g.CanLose s t := by
  obtain ⟨phis, rest, hl⟩ := h.listed t
  have hphis := hl.phis_eq
  rw [hphis] at hs
  have hself := hafter g (.refl g)
  cases phis with
  | nil =>
      refine ⟨fun _ => ⟨fun _ => hphis, fun _ phi hphi => ?_⟩, fun _ =>
        ⟨g, fixPHIAfterDisconnect_nil hl.toLayout hsp, hself.losesEdge_nil hl.toLayout hsp⟩⟩
      rw [hphis] at hphi
      cases hphi
  | cons phi phis =>
      have hpos := List.length_pos_of_mem hsp
      rcases Nat.lt_trichotomy (g.block t).preds.length 2 with hlen | hlen | hlen
      · -- the phis keep a source that is no predecessor any more
        have hone : (g.block t).preds.length = 1 := by omega
        refine ⟨fun ⟨g₁, hrun, hloses⟩ => ?_, fun hcan => ?_⟩
        · rw [fixPHIAfterDisconnect_one hsp hone] at hrun
          obtain rfl := Option.some.inj hrun
          have hphis' : (after g).phis t = phi :: phis := (hself.layout hl.toLayout).phis_eq
          have hsources := hloses.inStep.sources phi (by rw [hphis']; exact List.mem_cons_self)
          have hlen₁ := hsources.length_eq
          rw [hself.instr, (hs.sources phi List.mem_cons_self).length_eq, hself.preds_length (.refl g) hsp, hone] at hlen₁
          cases hlen₁
        · rw [hcan.one hone] at hphis
          cases hphis
      · obtain ⟨p, hp, hne⟩ := exists_other hnodup hlen s
        rw [fixPHIAfterDisconnect_two_iff h hl hs hlen hsp hp hne hafter]
        constructor
        · rintro ⟨rfl, hr⟩
          refine ⟨fun hone => by omega, fun _ i hi => ⟨?_, fun q hq hqs => ?_⟩⟩
          · rw [hphis, List.mem_singleton] at hi
            rw [hphis, hi]
          · rw [hphis, List.mem_singleton] at hi
            have hleft : ((g.block t).preds.erase s).length ≤ 1 := by
              rw [List.length_erase_of_mem hsp, hlen]
            have hqp : q = p := by
              have hmem : q ∈ (g.block t).preds.erase s := (List.mem_erase_of_ne hqs).mpr hq
              rw [eq_singleton_of_mem ((List.mem_erase_of_ne hne).mpr hp) hleft] at hmem
              exact List.mem_singleton.mp hmem
            rw [hi, hqp]
            exact hr
        · intro hcan
          obtain ⟨hsingle, hr⟩ := hcan.two hlen phi (by rw [hphis]; exact List.mem_cons_self)
          rw [hphis] at hsingle
          exact ⟨(List.cons.inj hsingle).2, hr p hp hne⟩
      · obtain ⟨g₁, hrun, hloses⟩ := fixPHIAfterDisconnect_many hl.toLayout hs hsp hlen
        have honly : InstrsOnly g g₁ := fixPHIAfterDisconnect_instrsOnly hrun
        refine ⟨fun _ => ⟨fun hone => by omega, fun htwo => by omega⟩, fun _ =>
          ⟨g₁, hrun, (hafter g₁ honly).losesEdge_many hl.toLayout hs hsp hlen hloses⟩⟩

/-! ## The two operations -/

theorem leaveSuccessor_eq (hsp : s ∈ (g.block t).preds) : leaveSuccessor s g t =
    (g.fixPHIAfterDisconnect s t).map fun g => g.modifyBlock t fun x => { x with preds := swapErase x.preds s } := by
  rw [leaveSuccessor, Option.bind_eq_bind]
  cases hfix : g.fixPHIAfterDisconnect s t with
  | none => rfl
  | some g₁ =>
      have hmem : s ∈ (g₁.block t).preds := by
        rw [((fixPHIAfterDisconnect_instrsOnly hfix).sameEdges t).2]
        exact hsp
      rw [Option.bind_some, removePredecessor_eq hmem]
      rfl

theorem leaveSuccessor_iff (h : g.Lists) (hs : g.InStep t (g.phis t)) (hsp : s ∈ (g.block t).preds)
    (hnodup : (g.block t).preds.Nodup) :
    (∃ g', leaveSuccessor s g t = some g' ∧ LosesEdge g s t g') ↔ g.CanLose s t := by
  rw [← fixPHIAfterDisconnect_iff h hs hsp hnodup fun g₁ _ =>
    (⟨by simp, by simp, by simp, by simp, by simp, rfl, rfl⟩ : DropsPredecessor g₁ s t
      (g₁.modifyBlock t fun x => { x with preds := swapErase x.preds s }))]
  rw [leaveSuccessor_eq hsp]
  simp only [Option.map_eq_some_iff]
  constructor
  · rintro ⟨g', ⟨g₁, hrun, rfl⟩, hloses⟩
    exact ⟨g₁, hrun, hloses⟩
  · rintro ⟨g₁, hrun, hloses⟩
    exact ⟨_, ⟨g₁, hrun, rfl⟩, hloses⟩

/-- The edges after the phis have been fixed. -/
def disconnected (g : Graph) (s t : Nat) : Graph :=
  ((g.modifyBlock s fun x => { x with succs := x.succs.erase t }).modifyBlock t fun x =>
    { x with preds := swapErase x.preds s }).invalidateAfterChangedCFG

theorem disconnected_drops (g : Graph) (s t : Nat) : DropsPredecessor g s t (g.disconnected s t) := by
  have hblock : (g.disconnected s t).block t = { g.block t with
      preds := swapErase (g.block t).preds s
      succs := if t = s then (g.block s).succs.erase t else (g.block t).succs } := by
    simp only [disconnected, invalidateAfterChangedCFG, modifyBlock_block_self, modifyBlock_block]
    split_ifs with hts
    · subst hts
      rfl
    · rfl
  refine ⟨?_, ?_, ?_, ?_, ?_, rfl, rfl⟩ <;> rw [hblock]

theorem disconnectBasicBlocks_iff (h : g.Lists) (hg : g.Connected) (hs : g.InStep t (g.phis t)) (hst : t ∈ (g.block s).succs) :
    (∃ g', g.disconnectBasicBlocks s t = some g' ∧ LosesEdge g s t g') ↔ g.CanLose s t := by
  have hsp : s ∈ (g.block t).preds := (hg.edges s t).mp hst
  rw [← fixPHIAfterDisconnect_iff h hs hsp (hg.preds_nodup t) fun g₁ _ => g₁.disconnected_drops s t]
  have hrun : g.disconnectBasicBlocks s t = (g.fixPHIAfterDisconnect s t).map fun g => g.disconnected s t := by
    rw [disconnectBasicBlocks, Option.bind_eq_bind]
    cases hfix : g.fixPHIAfterDisconnect s t with
    | none => rfl
    | some g₁ =>
        have hedges := (fixPHIAfterDisconnect_instrsOnly hfix).sameEdges
        have hsucc : t ∈ (g₁.block s).succs := by
          rw [(hedges s).1]
          exact hst
        have hpred : s ∈ ((g₁.modifyBlock s fun x => { x with succs := x.succs.erase t }).block t).preds := by
          rw [modifyBlock_preds (by exact fun _ => rfl), (hedges t).2]
          exact hsp
        rw [Option.bind_some, removeSuccessor_eq hsucc]
        simp only [Option.bind_some]
        rw [removePredecessor_eq hpred]
        rfl
  rw [hrun]
  simp only [Option.map_eq_some_iff]
  constructor
  · rintro ⟨g', ⟨g₁, hfix, rfl⟩, hloses⟩
    exact ⟨g₁, hfix, hloses⟩
  · rintro ⟨g₁, hfix, hloses⟩
    exact ⟨_, ⟨g₁, hfix, rfl⟩, hloses⟩

/-! ## Unlinking a block -/

/-- `UnlinkBasicBlock` up to the successors in `done`. -/
def unlinkedUpTo (g : Graph) (b : Nat) (done : List Nat) : Option Graph := do
  let g ← g.unlinkBasicBlockRaw b
  let g ← g.removePredecessors b
  done.foldlM (leaveSuccessor b) g

/-- The graph when nothing leads to `b` any more. -/
structure Entered (g : Graph) (b : Nat) (g' : Graph) : Prop extends SameLists g g' where
  succs : (g'.block b).succs = (g.block b).succs.erase b
  preds : ∀ c, c ≠ b → (g'.block c).preds = (g.block c).preds

/-- The predecessors of a block can be taken off it. -/
theorem removePredecessors_entered (hg : g.Connected) (hin : (g.block b).inGraph = true)
    (hid : g.bblocks[(g.block b).id]? = some (some b)) :
    ∃ g₀, ((g.unlinkBasicBlockRaw b).bind fun g => g.removePredecessors b) = some g₀ ∧ Entered g b g₀ := by
  let gr : Graph := ({ g with bblocks := g.bblocks.set (g.block b).id none }.modifyBlock b fun x =>
    { x with id := INVALID_ID, inGraph := false })
  let gu : Graph := { gr with unlinkedInstructionsCounter := gr.unlinkedInstructionsCounter + 1 }.invalidateAfterChangedCFG
  have hraw : g.unlinkBasicBlockRaw b = some gu := by
    rw [unlinkBasicBlockRaw, ASSERT_of hin]
    simp only [Option.bind_eq_bind, Option.bind_some, ASSERT_of hid]
    rfl
  have hblock : ∀ c, gu.block c =
      if c = b then { g.block b with id := INVALID_ID, inGraph := false } else g.block c := by
    intro c
    simp only [gu, gr, invalidateAfterChangedCFG, modifyBlock_block]
  have hpreds : (gu.block b).preds = (g.block b).preds := by rw [hblock, if_pos rfl]
  let P := fun (done : List Nat) (u : Graph) => u.instr = g.instr ∧ u.instrCount = g.instrCount ∧
    ∀ c, u.block c = { gu.block c with succs := if c ∈ done then (gu.block c).succs.erase b else (gu.block c).succs }
  have hsuccs : ∀ c, (gu.block c).succs = (g.block c).succs := by
    intro c
    rw [hblock]
    split_ifs with hc
    · rw [hc]
    · rfl
  obtain ⟨u, hloop, hinstr, hcount, hu⟩ : ∃ u, (g.block b).preds.foldlM (fun g p => g.removeSuccessor p b) gu = some u ∧
      P (g.block b).preds u := by
    refine foldlM_completes (P := P) (fun done p l u heq hu => ?_) ⟨rfl, rfl, fun c => by simp⟩
    obtain ⟨hinstr, hcount, hu⟩ := hu
    have hnodup := hg.preds_nodup b
    rw [heq] at hnodup
    have hdone : p ∉ done := fun hmem => List.disjoint_of_nodup_append hnodup hmem List.mem_cons_self
    have hb : b ∈ (u.block p).succs := by
      rw [hu, if_neg hdone]
      dsimp only
      rw [hsuccs]
      exact (hg.edges p b).mpr (by simp [heq])
    refine ⟨_, removeSuccessor_eq hb, hinstr, hcount, fun c => ?_⟩
    rw [modifyBlock_block]
    by_cases hcp : c = p
    · subst hcp
      simp [hu, hdone]
    · simp [hu, hcp]
  refine ⟨u.modifyBlock b fun x => { x with preds := [] }, ?_, ?_⟩
  · rw [hraw, Option.bind_some, removePredecessors, hpreds, hloop]
    rfl
  · have herase : ∀ c, (u.block c).succs = (g.block c).succs.erase b := by
      intro c
      rw [hu]
      dsimp only
      rw [hsuccs]
      split_ifs with hc
      · rfl
      · rw [List.erase_of_not_mem fun hmem => hc ((hg.edges c b).mp hmem)]
    refine ⟨⟨fun c => ?_, hinstr, hcount⟩, ?_, fun c hc => ?_⟩
    · rw [modifyBlock_block]
      split_ifs with hc
      · rw [hc, hu, hblock, if_pos rfl]
        exact ⟨rfl, rfl, rfl, rfl, rfl⟩
      · rw [hu, hblock, if_neg hc]
        exact ⟨rfl, rfl, rfl, rfl, rfl⟩
    · rw [modifyBlock_succs (by exact fun _ => rfl), herase]
    · rw [modifyBlock_block_ne _ _ hc, hu, hblock, if_neg hc]

/-- The lists and the targets that are still to come. -/
structure Unlinking (g : Graph) (b : Nat) (done : List Nat) (g' : Graph) : Prop where
  lists : g'.Lists
  preds : ∀ c, c ≠ b → c ∉ done → (g'.block c).preds = (g.block c).preds
  inStep : ∀ c ∈ (g.block b).succs, c ≠ b → c ∉ done → g'.InStep c (g'.phis c)

/-- What a step over one successor leaves of the other blocks. -/
structure KeepsOthers (g : Graph) (t : Nat) (g' : Graph) : Prop where
  lists : g'.Lists
  preds : ∀ c, c ≠ t → (g'.block c).preds = (g.block c).preds
  phis : ∀ c, c ≠ t → g'.phis c = g.phis c
  inStep : ∀ c, c ≠ t → g.InStep c (g.phis c) → g'.InStep c (g'.phis c)

theorem leaveSuccessor_keeps (h : g.Lists) (hs : g.InStep t (g.phis t)) (hsp : s ∈ (g.block t).preds)
    (hnodup : (g.block t).preds.Nodup) (hrun : leaveSuccessor s g t = some g') : KeepsOthers g t g' := by
  rw [leaveSuccessor_eq hsp, Option.map_eq_some_iff] at hrun
  obtain ⟨g₁, hfix, rfl⟩ := hrun
  have hkept := fixPHIAfterDisconnect_kept h hs hsp hnodup hfix
  have hsame : SameLists g₁ (g₁.modifyBlock t fun x => { x with preds := swapErase x.preds s }) := by
    refine ⟨fun c => ?_, rfl, rfl⟩
    rw [modifyBlock_block]
    split_ifs with hc
    · rw [hc]
      exact ⟨rfl, rfl, rfl, rfl, rfl⟩
    · exact ⟨rfl, rfl, rfl, rfl, rfl⟩
  refine ⟨hsame.lists hkept.lists, fun c hc => ?_, fun c hc => ?_, fun c hc hsc => ?_⟩
  · rw [modifyBlock_block_ne _ _ hc]
    exact (hkept.only.sameEdges c).2
  · rw [hsame.phis_eq hkept.lists, hkept.phis_eq hc]
  · refine hsame.inStep hkept.lists ?_ (hkept.inStep hc hsc)
    rw [modifyBlock_block_ne _ _ hc]

/-- What the successors that have been left have to show for it. -/
def Left (g : Graph) (b c : Nat) (g' : Graph) : Prop :=
  (g'.block c).preds.Perm ((g.block c).preds.erase b) ∧ g'.InStep c (g'.phis c) ∧
    ((g'.block c).preds.length = 1 → g'.phis c = [])

theorem KeepsOthers.left {g₁ : Graph} {c : Nat} (h : KeepsOthers g₁ t g') (hc : c ≠ t) (hleft : Left g b c g₁) :
    Left g b c g' := by
  refine ⟨?_, h.inStep c hc hleft.2.1, fun hlen => ?_⟩
  · rw [h.preds c hc]
    exact hleft.1
  · rw [h.preds c hc] at hlen
    rw [h.phis c hc]
    exact hleft.2.2 hlen

namespace Unlinking

variable {done : List Nat} {g₁ : Graph}

theorem step (h : Unlinking g b done g₁) (hg : g.Connected) (ht : t ∈ (g.block b).succs) (htb : t ≠ b) (hdone : t ∉ done)
    (hrun : leaveSuccessor b g₁ t = some g') : KeepsOthers g₁ t g' ∧ Unlinking g b (done ++ [t]) g' := by
  have hpreds := h.preds t htb hdone
  have hkeeps : KeepsOthers g₁ t g' := by
    refine leaveSuccessor_keeps h.lists (h.inStep t ht htb hdone) ?_ ?_ hrun
    · rw [hpreds]
      exact (hg.edges b t).mp ht
    · rw [hpreds]
      exact hg.preds_nodup t
  refine ⟨hkeeps, hkeeps.lists, fun c hcb hc => ?_, fun c hsucc hcb hc => ?_⟩
  · rw [List.mem_append, List.mem_singleton, not_or] at hc
    rw [hkeeps.preds c hc.2, h.preds c hcb hc.1]
  · rw [List.mem_append, List.mem_singleton, not_or] at hc
    exact hkeeps.inStep c hc.2 (h.inStep c hsucc hcb hc.1)

theorem iff (h : Unlinking g b done g₁) (hg : g.Connected) (ht : t ∈ (g.block b).succs) (htb : t ≠ b) (hdone : t ∉ done) :
    (∃ g₂, leaveSuccessor b g₁ t = some g₂ ∧ LosesEdge g₁ b t g₂) ↔ g₁.CanLose b t := by
  have hpreds := h.preds t htb hdone
  refine leaveSuccessor_iff h.lists (h.inStep t ht htb hdone) ?_ ?_
  · rw [hpreds]
    exact (hg.edges b t).mp ht
  · rw [hpreds]
    exact hg.preds_nodup t

end Unlinking

theorem Entered.unlinking (he : Entered g b g') (h : g.Lists) (hs : ∀ t ∈ (g.block b).succs, g.InStep t (g.phis t)) :
    Unlinking g b [] g' where
  lists := he.lists h
  preds c hc _ := he.preds c hc
  inStep c hc hcb _ := he.toSameLists.inStep h (he.preds c hcb) (hs c hc)

theorem unlinkBasicBlockRaw_eq (hin : (g.block b).inGraph = true) (hid : g.bblocks[(g.block b).id]? = some (some b)) :
    ∃ g', g.unlinkBasicBlockRaw b = some g' ∧ g'.lastBlock = g.lastBlock ∧
      ∀ c, (g'.block c).preds = (g.block c).preds ∧ (g'.block c).succs = (g.block c).succs := by
  rw [unlinkBasicBlockRaw, ASSERT_of hin]
  simp only [Option.bind_eq_bind, Option.bind_some, ASSERT_of hid]
  refine ⟨_, rfl, rfl, fun c => ?_⟩
  simp only [invalidateAfterChangedCFG, modifyBlock_block]
  split_ifs with hc
  · rw [hc]
    exact ⟨rfl, rfl⟩
  · exact ⟨rfl, rfl⟩

/-- The last block can be unlinked only without edges. -/
theorem unlinkBasicBlock_last (hg : g.Connected) (hin : (g.block b).inGraph = true)
    (hid : g.bblocks[(g.block b).id]? = some (some b)) (hlast : g.lastBlock = some b) :
    (∃ g', g.unlinkBasicBlock b = some g') ↔ (g.block b).preds = [] ∧ (g.block b).succs = [] := by
  obtain ⟨gu, hraw, hlast', hedges⟩ := unlinkBasicBlockRaw_eq hin hid
  rw [unlinkBasicBlock, hraw]
  simp only [Option.bind_eq_bind, Option.bind_some, hlast', hlast, ne_eq, not_true_eq_false, if_false, ASSERT_bind,
    (hedges b).1, (hedges b).2, exists_and_left]
  constructor
  · rintro ⟨hpreds, hsuccs, -⟩
    refine ⟨List.eq_nil_iff_forall_not_mem.mpr fun p hp => ?_, List.eq_nil_iff_forall_not_mem.mpr fun c hc => ?_⟩
    · refine hpreds p hp ?_
      rw [(hedges p).2]
      exact (hg.edges p b).mpr hp
    · refine hsuccs c hc ?_
      rw [(hedges c).1]
      exact (hg.edges b c).mp hc
  · rintro ⟨hpreds, hsuccs⟩
    rw [hpreds, hsuccs]
    exact ⟨nofun, nofun, _, rfl⟩

theorem unlinkBasicBlock_inner {g₀ : Graph} (hin : (g.block b).inGraph = true)
    (hid : g.bblocks[(g.block b).id]? = some (some b)) (hlast : g.lastBlock ≠ some b)
    (hrun : ((g.unlinkBasicBlockRaw b).bind fun g => g.removePredecessors b) = some g₀) :
    g.unlinkBasicBlock b = ((g₀.block b).succs.foldlM (leaveSuccessor b) g₀).map fun g =>
      g.modifyBlock b fun x => { x with succs := [] } := by
  obtain ⟨gu, hraw, hlast', -⟩ := unlinkBasicBlockRaw_eq hin hid
  rw [hraw, Option.bind_some] at hrun
  rw [unlinkBasicBlock, hraw]
  simp only [Option.bind_eq_bind, Option.bind_some]
  rw [hlast', if_pos hlast, hrun, Option.bind_some, removeSuccessors]
  cases (g₀.block b).succs.foldlM (leaveSuccessor b) g₀ with
  | none => rfl
  | some g' => rfl

theorem unlinkedUpTo_eq {g₀ : Graph} (hrun : ((g.unlinkBasicBlockRaw b).bind fun g => g.removePredecessors b) = some g₀)
    (done : List Nat) : g.unlinkedUpTo b done = done.foldlM (leaveSuccessor b) g₀ := by
  obtain ⟨gu, hraw, hpreds⟩ := Option.bind_eq_some_iff.mp hrun
  rw [unlinkedUpTo, hraw]
  simp only [Option.bind_eq_bind, Option.bind_some, hpreds]

/-- The block loses its edges one by one. -/
theorem unlinkBasicBlock_iff (h : g.Lists) (hg : g.Connected) (hs : ∀ t ∈ (g.block b).succs, g.InStep t (g.phis t))
    (hin : (g.block b).inGraph = true) (hid : g.bblocks[(g.block b).id]? = some (some b)) :
    ((∃ g', g.unlinkBasicBlock b = some g' ∧ ∀ t ∈ (g.block b).succs, t ≠ b → Left g b t g') ∧
      ∀ done t l, (g.block b).succs.erase b = done ++ t :: l →
        ∃ g₁ g₂, g.unlinkedUpTo b done = some g₁ ∧ leaveSuccessor b g₁ t = some g₂ ∧ LosesEdge g₁ b t g₂) ↔
      (g.lastBlock = some b → (g.block b).preds = [] ∧ (g.block b).succs = []) ∧
        ∀ done t l g₁, (g.block b).succs.erase b = done ++ t :: l → g.unlinkedUpTo b done = some g₁ → g₁.CanLose b t := by
  obtain ⟨g₀, hrun, he⟩ := removePredecessors_entered hg hin hid
  have hstart := he.unlinking h hs
  have hnodup : ((g.block b).succs.erase b).Nodup := (hg.succs_nodup b).erase b
  have target : ∀ {done t l}, (g.block b).succs.erase b = done ++ t :: l →
      t ∈ (g.block b).succs ∧ t ≠ b ∧ t ∉ done := by
    intro done t l heq
    have hmem : t ∈ (g.block b).succs.erase b := by simp [heq]
    rw [(hg.succs_nodup b).mem_erase_iff] at hmem
    rw [heq] at hnodup
    exact ⟨hmem.2, hmem.1, fun hd => List.disjoint_of_nodup_append hnodup hd List.mem_cons_self⟩
  simp only [unlinkedUpTo_eq hrun]
  constructor
  · rintro ⟨⟨g', hunlink, -⟩, hsteps⟩
    refine ⟨fun hlast => (unlinkBasicBlock_last hg hin hid hlast).mp ⟨g', hunlink⟩, fun done t l g₁ heq hg₁ => ?_⟩
    obtain ⟨ht, htb, hdone⟩ := target heq
    have hinv : Unlinking g b done g₁ := by
      refine foldlM_passed (P := Unlinking g b) (fun d u m x x' hd hx hstep => ?_) hstart hg₁
      have heq' : (g.block b).succs.erase b = d ++ u :: (m ++ t :: l) := by simp [heq, hd]
      obtain ⟨hu, hub, hud⟩ := target heq'
      exact (hx.step hg hu hub hud hstep).2
    obtain ⟨g₁', g₂, hg₁', hleave, hloses⟩ := hsteps done t l heq
    obtain rfl : g₁ = g₁' := Option.some.inj (hg₁.symm.trans hg₁')
    exact (hinv.iff hg ht htb hdone).mp ⟨g₂, hleave, hloses⟩
  · rintro ⟨hlast, hcan⟩
    let P := fun (done : List Nat) (u : Graph) => done.foldlM (leaveSuccessor b) g₀ = some u ∧ Unlinking g b done u ∧
      ∀ c ∈ done, Left g b c u
    have step : ∀ done t l u, (g.block b).succs.erase b = done ++ t :: l → P done u →
        ∃ u', leaveSuccessor b u t = some u' ∧ LosesEdge u b t u' ∧ P (done ++ [t]) u' := by
      rintro done t l u heq ⟨hu, hinv, hleft⟩
      obtain ⟨ht, htb, hdone⟩ := target heq
      obtain ⟨u', hleave, hloses⟩ := (hinv.iff hg ht htb hdone).mpr (hcan done t l u heq hu)
      obtain ⟨hkeeps, hinv'⟩ := hinv.step hg ht htb hdone hleave
      refine ⟨u', hleave, hloses, ?_, hinv', fun c hc => ?_⟩
      · rw [List.foldlM_append, hu]
        simp [hleave]
      · rcases List.mem_append.mp hc with hc | hc
        · exact hkeeps.left (fun he => hdone (he ▸ hc)) (hleft c hc)
        · rw [List.mem_singleton.mp hc]
          refine ⟨?_, hloses.inStep, hloses.none⟩
          rw [← hinv.preds t htb hdone]
          exact hloses.preds
    have hP₀ : P [] g₀ := ⟨rfl, hstart, nofun⟩
    refine ⟨?_, fun done t l heq => ?_⟩
    · by_cases hb : g.lastBlock = some b
      · obtain ⟨hpreds, hsuccs⟩ := hlast hb
        obtain ⟨g', hg'⟩ := (unlinkBasicBlock_last hg hin hid hb).mpr ⟨hpreds, hsuccs⟩
        refine ⟨g', hg', fun t ht => ?_⟩
        rw [hsuccs] at ht
        cases ht
      · obtain ⟨u, hu, -, hinv, hleft⟩ := foldlM_completes (P := P) (fun done t l u heq hu =>
          (step done t l u heq hu).imp fun u' hu' => ⟨hu'.1, hu'.2.2⟩) hP₀
        refine ⟨u.modifyBlock b fun x => { x with succs := [] }, ?_, fun t ht htb => ?_⟩
        · rw [unlinkBasicBlock_inner hin hid hb hrun, he.succs, hu]
          rfl
        · have htarget : t ∈ (g.block b).succs.erase b := (hg.succs_nodup b).mem_erase_iff.mpr ⟨htb, ht⟩
          have hsame : SameLists u (u.modifyBlock b fun x => { x with succs := [] }) := by
            refine ⟨fun c => ?_, rfl, rfl⟩
            rw [modifyBlock_block]
            split_ifs with hc
            · rw [hc]
              exact ⟨rfl, rfl, rfl, rfl, rfl⟩
            · exact ⟨rfl, rfl, rfl, rfl, rfl⟩
          have hpreds : ((u.modifyBlock b fun x => { x with succs := [] }).block t).preds = (u.block t).preds := by
            rw [modifyBlock_block_ne _ _ htb]
          obtain ⟨hperm, hstep, hnone⟩ := hleft t htarget
          refine ⟨?_, hsame.inStep hinv.lists hpreds hstep, fun hlen => ?_⟩
          · rw [hpreds]
            exact hperm
          · rw [hpreds] at hlen
            rw [hsame.phis_eq hinv.lists]
            exact hnone hlen
    · suffices ∃ u, P done u by
        obtain ⟨u, hu⟩ := this
        obtain ⟨u', hleave, hloses, -⟩ := step done t l u heq hu
        exact ⟨u, u', hu.1, hleave, hloses⟩
      obtain ⟨u, -, hu⟩ := foldlM_completes (P := P) (l := done) (fun d x m u hd hu => by
        obtain ⟨u', hleave, -, hu'⟩ := step d x (m ++ t :: l) u (by simp [heq, hd]) hu
        exact ⟨u', hleave, hu'⟩) hP₀
      exact ⟨u, hu⟩

/-- Both operations keep phis in step with edges exactly when no block with several phis is left with one predecessor, no block
with phis without any, and the users of a phi that goes are its uses. -/
theorem phis_in_step_iff (h : g.Lists) (hg : g.Connected) (hs : ∀ t, g.InStep t (g.phis t)) :
    (∀ s, ∀ t ∈ (g.block s).succs, (∃ g', g.disconnectBasicBlocks s t = some g' ∧ LosesEdge g s t g') ↔ g.CanLose s t) ∧
    ∀ b, (g.block b).inGraph = true → g.bblocks[(g.block b).id]? = some (some b) →
      (((∃ g', g.unlinkBasicBlock b = some g' ∧ ∀ t ∈ (g.block b).succs, t ≠ b → Left g b t g') ∧
        ∀ done t l, (g.block b).succs.erase b = done ++ t :: l →
          ∃ g₁ g₂, g.unlinkedUpTo b done = some g₁ ∧ leaveSuccessor b g₁ t = some g₂ ∧ LosesEdge g₁ b t g₂) ↔
        (g.lastBlock = some b → (g.block b).preds = [] ∧ (g.block b).succs = []) ∧
          ∀ done t l g₁, (g.block b).succs.erase b = done ++ t :: l → g.unlinkedUpTo b done = some g₁ → g₁.CanLose b t) :=
  ⟨fun _ t ht => disconnectBasicBlocks_iff h hg (hs t) ht,
    fun _ hin hid => unlinkBasicBlock_iff h hg (fun t _ => hs t) hin hid⟩

/-! ## A join with two phis -/

/-- `if (!(x < y)) { } return phi(x, y) + phi(y, x);` for arguments `x` and `y`. -/
def twoPhis : Graph := ofLists
  [{ opcode := .ARG, type := .I32, next := some 1, parent := some 0, users := [2, 5, 6] },
   { opcode := .ARG, type := .I32, prev := some 0, parent := some 0, users := [2, 5, 6] },
   { opcode := .CMP, type := .I32, ccode := .LT, next := some 3, parent := some 1,
     properties := INPUT_SIDE_EFFECTS, inputs := [some 0, some 1] },
   { opcode := .JCMP, type := .I64, prev := some 2, parent := some 1, properties := CF_SIDE_EFFECTS },
   { opcode := .JMP, type := .I64, parent := some 2, properties := CF_SIDE_EFFECTS },
   { opcode := .PHI, type := .I32, next := some 6, parent := some 3, properties := .INPUT,
     inputs := [some 0, some 1], sourceBBlocks := [1, 2], users := [7] },
   { opcode := .PHI, type := .I32, prev := some 5, next := some 7, parent := some 3, properties := .INPUT,
     inputs := [some 1, some 0], sourceBBlocks := [1, 2], users := [7] },
   { opcode := .ADD, type := .I32, prev := some 6, next := some 8, parent := some 3,
     properties := ARITHM ||| .COMMUTABLE, inputs := [some 5, some 6], users := [8] },
   { opcode := .RET, type := .I32, prev := some 7, parent := some 3,
     properties := .CF ||| .INPUT ||| .SIDE_EFFECTS, inputs := [some 7] }]
  [{ id := 0, succs := [1], instrsCount := 2, firstInst := some 0, lastInst := some 1 },
   { id := 1, preds := [0], succs := [3, 2], instrsCount := 2, firstInst := some 2, lastInst := some 3 },
   { id := 2, preds := [1], succs := [3], instrsCount := 1, firstInst := some 4, lastInst := some 4 },
   { id := 3, preds := [1, 2], instrsCount := 4, firstPhi := some 5, lastPhi := some 6, firstInst := some 7,
     lastInst := some 8 }] []

theorem twoPhis_connected : twoPhis.Connected := Connected.ofLists (by decide) (by decide) (by decide)

theorem twoPhis_lists : twoPhis.Lists :=
  Lists.ofLists (fun b =>
    if b = 0 then ([], [0, 1])
    else if b = 1 then ([], [2, 3])
    else if b = 2 then ([], [4])
    else ([5, 6], [7, 8])) (by decide) (by decide)

theorem twoPhis_inStep (t : Nat) : twoPhis.InStep t (twoPhis.phis t) := by
  by_cases ht : t < 4
  · have sources : ∀ t < 4, ∀ phi ∈ twoPhis.phis t, (twoPhis.instr phi).sourceBBlocks.Perm (twoPhis.block t).preds := by
      decide
    have inputs : ∀ t < 4, ∀ phi ∈ twoPhis.phis t,
        (twoPhis.instr phi).inputs.length = (twoPhis.instr phi).sourceBBlocks.length := by
      decide
    exact ⟨sources t ht, inputs t ht⟩
  · have hblock : twoPhis.block t = {} := ofLists_block_ge (Nat.not_lt.mp ht)
    have hphis : twoPhis.phis t = [] := by
      rw [Graph.phis, instrs, beginInstr, hblock]
      rfl
    rw [hphis]
    exact ⟨List.forall_mem_nil _, List.forall_mem_nil _⟩

theorem phis_in_step_iff_arm : ∃ g', twoPhis.disconnectBasicBlocks 1 2 = some g' ∧ LosesEdge twoPhis 1 2 g' := by
  have hphis : twoPhis.phis 2 = [] := by decide
  refine ((phis_in_step_iff twoPhis_lists twoPhis_connected twoPhis_inStep).1 1 2 (by decide)).mpr ⟨fun _ => hphis, ?_⟩
  rw [hphis]
  exact fun _ => nofun

/-- The second phi stays, with a source that is no predecessor any more. -/
theorem disconnectBasicBlocks_two_phis_wrong : twoPhis.Lists ∧ twoPhis.Connected ∧ (∀ t, twoPhis.InStep t (twoPhis.phis t)) ∧
    3 ∈ (twoPhis.block 2).succs ∧ ¬ ∃ g', twoPhis.disconnectBasicBlocks 2 3 = some g' ∧ LosesEdge twoPhis 2 3 g' := by
  refine ⟨twoPhis_lists, twoPhis_connected, twoPhis_inStep, by decide, fun h => ?_⟩
  have hcan := (disconnectBasicBlocks_iff twoPhis_lists twoPhis_connected (twoPhis_inStep 3) (by decide)).mp h
  have hsingle := (hcan.two (by decide) 5 (by decide)).1
  revert hsingle
  decide

end CompilerLab.Jit.Graph
