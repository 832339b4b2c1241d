import CompilerLab.Jit.Lemmas.DomTree
import CompilerLab.Jit.Lemmas.DomTreeBuilder

/-!
# Results on the dominator tree builder

`Build` hands `computeIDoms` a vector without entries, and the reset before it has cleared what the blocks store.
-/

namespace CompilerLab.Jit.DomTreeBuilder

open CompilerLab.Lib Graph

variable {g g' : Graph} {s : DomTreeBuilder} {t t' : Doms} {doms : List DominatorInfo} {i : Nat}

/-! ## What a build leaves -/

theorem computeIDom_verifying (h : computeIDom false t i = some t') : t'.graph = t.graph ∧ t'.doms.length = t.doms.length := by
  simp only [computeIDom, Option.bind_eq_bind, Option.bind_eq_some_iff, Bool.false_eq_true, if_false, ASSERT_eq_some,
    exists_const, Option.pure_def, Option.some.injEq] at h
  obtain ⟨_, -, _, -, _, -, _, -, -, rfl⟩ := h
  exact ⟨rfl, by simp⟩

theorem computeIDoms_verifying (h : computeIDoms false t = some t') :
    t'.graph = t.graph ∧ t'.doms.length = t.doms.length := by
  refine foldlM_invariant (P := fun u => u.graph = t.graph ∧ u.doms.length = t.doms.length) ?_ ⟨rfl, rfl⟩ h
  rintro u i u' - ⟨hgraph, hlen⟩ hu
  obtain ⟨hgraph', hlen'⟩ := computeIDom_verifying hu
  exact ⟨hgraph'.trans hgraph, hlen'.trans hlen⟩

theorem build_verifying_graph (hne : g.isEmpty = false) (h : build false g s doms = some t) :
    t.graph = (resetStructs g s).1 ∧ t.doms.length = doms.length := by
  simp only [build, hne, Bool.false_eq_true, if_false, Option.bind_eq_bind, Option.bind_eq_some_iff, ASSERT_eq_some,
    exists_const] at h
  obtain ⟨_, -, _, -, -, _, -, h⟩ := h
  exact computeIDoms_verifying h

/-- Whatever vector it is given, a build that verifies leaves the blocks without their stored dominators. -/
theorem build_verifying_clears (hne : g.isEmpty = false) (h : build false g s doms = some t) :
    ∀ b ∈ g.blocks, (t.graph.block b).dominator = none ∧ (t.graph.block b).dominated = [] := by
  intro b hb
  rw [(build_verifying_graph hne h).1]
  exact resetStructs_clears s hb

theorem build_verifying_blocks (h : build false g s doms = some t) : t.graph.blocks = g.blocks := by
  cases hne : g.isEmpty with
  | true =>
      simp only [build, hne, if_true, Option.some.injEq] at h
      rw [← h]
  | false => rw [(build_verifying_graph hne h).1, (resetStructs_domsOnly g s).blocks]

theorem buildInfos_nil (h : buildInfos g s = some (g', doms)) : doms = [] := by
  simp only [buildInfos, Option.map_eq_some_iff, Prod.mk.injEq] at h
  obtain ⟨t, ht, rfl, rfl⟩ := h
  cases hne : g.isEmpty with
  | true =>
      simp only [build, hne, if_true, Option.some.injEq] at ht
      rw [← ht]
  | false => exact List.length_eq_zero_iff.1 (build_verifying_graph hne ht).2

/-! ## Verification -/

/-- `Build` gives each block the dominator that `Run` would store, and the blocks keep what they store. -/
def VerifiesUndisturbed (g : Graph) (s : DomTreeBuilder) : Prop :=
  ∃ g' doms g'', buildInfos g s = some (g', doms) ∧ run g = some g'' ∧
    (∀ b ∈ g.blocks, ∃ info, doms[(g.block b).id]? = some info ∧ info.dominator = (g''.block b).dominator) ∧
    ∀ b ∈ g.blocks, (g'.block b).dominator = (g.block b).dominator ∧ (g'.block b).dominated = (g.block b).dominated

/-- Whatever the builder has been used for before, only a graph without blocks is verified undisturbed. -/
theorem verifies_undisturbed_iff (s : DomTreeBuilder) (hc : g.getBasicBlocksCount = g.blocks.length) :
    VerifiesUndisturbed g s ↔ g.isEmpty = true := by
  constructor
  · rintro ⟨g', doms, g'', hb, -, hinfo, -⟩
    obtain rfl := buildInfos_nil hb
    cases hblocks : g.blocks with
    | nil => rw [Graph.isEmpty, hc, hblocks, List.length_nil, beq_self_eq_true]
    | cons b l =>
        obtain ⟨info, hget, -⟩ := hinfo b (by simp [hblocks])
        cases hget
  · intro hempty
    have hnil : g.blocks = [] := List.length_eq_zero_iff.1 (hc.symm.trans (beq_iff_eq.1 hempty))
    refine ⟨g, [], g, by simp [buildInfos, build, hempty], by simp [run, build, hempty], ?_, ?_⟩
    · simp [hnil]
    · simp [hnil]

/-- The check that calls `Build` stops at the first block of any graph whose dominators are marked valid. -/
theorem verifyDomTree_isSome (hc : g.getBasicBlocksCount = g.blocks.length) (hv : g.valid .DOM_TREE = true) :
    (verifyDomTree g).isSome = true ↔ g.isEmpty = true := by
  have hblocks : ∀ {g' : Graph} {doms}, buildInfos g {} = some (g', doms) → g'.blocks = g.blocks := by
    intro g' doms h
    simp only [buildInfos, Option.map_eq_some_iff, Prod.mk.injEq] at h
    obtain ⟨t, ht, rfl, rfl⟩ := h
    exact build_verifying_blocks ht
  constructor
  · intro h
    obtain ⟨g₁, h⟩ := Option.isSome_iff_exists.1 h
    simp only [verifyDomTree, hv, Bool.true_eq_false, if_false, Option.bind_eq_bind, Option.bind_eq_some_iff] at h
    obtain ⟨⟨g', doms⟩, hb, h⟩ := h
    obtain rfl := buildInfos_nil hb
    rw [Graph.isEmpty, hc, ← hblocks hb, beq_iff_eq, List.length_eq_zero_iff]
    cases hl : g'.blocks with
    | nil => rfl
    | cons b l => simp [hl] at h
  · intro hempty
    have hnil : g.blocks = [] := List.length_eq_zero_iff.1 (hc.symm.trans (beq_iff_eq.1 hempty))
    simp [verifyDomTree, hv, buildInfos, build, hempty, hnil]

/-- `return 0;` with a jump before it, and its dominator tree. -/
def oneJump : Graph := ofLists
  [{ opcode := .CONST, type := .I32, next := some 1, parent := some 0, users := [2] },
   { opcode := .JMP, type := .I64, prev := some 0, parent := some 0, properties := CF_SIDE_EFFECTS },
   { opcode := .RET, type := .I32, parent := some 1, properties := .CF ||| .INPUT ||| .SIDE_EFFECTS,
     inputs := [some 0] }]
  [{ id := 0, succs := [1], instrsCount := 2, firstInst := some 0, lastInst := some 1, dominated := [1] },
   { id := 1, preds := [0], instrsCount := 1, firstInst := some 2, lastInst := some 2, dominator := some 0 }]
  []

theorem oneJump_domTree : oneJump.DomTree 0 := by
  have hblocks : oneJump.blocks = [0, 1] := rfl
  have edge : ∀ {b c}, c ∈ (oneJump.block b).succs → oneJump.Edge b c := id
  have hdom : IDom oneJump.Edge 0 0 1 := by
    refine .of_only_pred (edge (by decide)) (fun u hu => ?_) (by decide) (by decide)
    rcases u with _ | _ | u
    · rfl
    · exact absurd hu (by simp [Edge, oneJump, ofLists])
    · exact absurd hu (by simp [Edge, oneJump, ofLists])
  refine .of_stored ?_ rfl ?_ ?_ (by decide)
  · rw [hblocks]
    simp only [List.forall_mem_cons]
    exact ⟨.refl, .single (edge (by decide)), List.forall_mem_nil _⟩
  · rw [hblocks]
    simp only [List.forall_mem_cons]
    exact ⟨fun h => absurd rfl h, fun _ => ⟨0, rfl, hdom⟩, List.forall_mem_nil _⟩
  · decide

theorem verifies_undisturbed_iff_oneJump : oneJump.getBasicBlocksCount = oneJump.blocks.length ∧
    (VerifiesUndisturbed oneJump {} ↔ oneJump.isEmpty = true) :=
  ⟨rfl, verifies_undisturbed_iff {} rfl⟩

/-- The vector has no entry for the dominator of block 1. -/
theorem oneJump_disturbed : oneJump.DomTree 0 ∧ (run oneJump).isSome ∧ buildInfos oneJump {} = none ∧
    ¬ VerifiesUndisturbed oneJump {} := by
  have hnone : (buildInfos oneJump {}).isNone := by decide
  refine ⟨oneJump_domTree, by decide, Option.isNone_iff_eq_none.1 hnone, ?_⟩
  rintro ⟨g', doms, -, hb, -⟩
  rw [hb] at hnone
  cases hnone

end CompilerLab.Jit.DomTreeBuilder
