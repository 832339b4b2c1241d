import CompilerLab.Jit.Lemmas.LoopRoom
import CompilerLab.Jit.Lemmas.SemiDominators
import CompilerLab.Jit.LinearOrdering

/-!
# The analyses after blocks have been removed

The builder has a number for each entry of the graph, the null ones included, and takes the block of the last number first.
-/

namespace CompilerLab.Jit.DomTreeBuilder

open CompilerLab.Lib Graph

variable {g g' : Graph} {s : DomTreeBuilder} {first b : Nat} {order : List Nat}

theorem blocks_length_lt : g.blocks.length < g.bblocks.length ↔ none ∈ g.bblocks := by
  rw [blocks, List.length_filterMap_lt_length_iff_exists]
  simp

theorem blocks_length_eq (h : none ∉ g.bblocks) : g.blocks.length = g.bblocks.length :=
  Nat.le_antisymm (List.length_filterMap_le _ _) (Nat.le_of_not_lt fun hlt => h (blocks_length_lt.1 hlt))


/-! ## The run of the builder -/

/-- What is left to do when the blocks have been numbered. -/
theorem run_numbered (hg : g.WellConnected first) (hn : g.Numbered) (hleads : ∀ b ∈ g.blocks, g.Leads first b) :
    ∃ g' s order, DomsOnly g g' ∧ Numbering g' [] order s ∧ (∀ b, b ∈ order ↔ b ∈ g'.blocks) ∧
      run g = (do computeIDoms true ⟨g', ← computeSDoms g' s, []⟩).map Doms.graph := by
  have ho := resetStructs_domsOnly g {}
  have hg' := ho.connected hg
  have hn' := ho.numbered hn
  have hI := Numbering.start (g := g) hn' (by rw [ho.graph])
  have hlen : (resetStructs g {}).2.idoms.length = (resetStructs g {}).1.bblocks.length := by
    rw [hI.entered.idoms, List.length_replicate]
  have hroom : (resetStructs g {}).1.blocks.length < (resetStructs g {}).2.idoms.length + 1 := by
    rw [hlen]
    exact Nat.lt_succ_of_le (List.length_filterMap_le _ _)
  obtain ⟨s, order, hs, hI', hfirst⟩ := dfsTraverse_total hg' hn' hI hroom
  have hmem : ∀ b, b ∈ order ↔ b ∈ (resetStructs g {}).1.blocks := fun b => hI'.mem hfirst fun b hb => by
    rw [Leads, ho.edge]
    exact hleads b (ho.blocks ▸ hb)
  have hcount : s.lastNumber = ((resetStructs g {}).1.getBasicBlocksCount : Int) - 1 := by
    rw [hI'.entered.last, hg'.count]
    have hperm := (List.perm_ext_iff_of_nodup hI'.entered.nodup hg'.nodup).2 hmem
    rw [hperm.length_eq]
  refine ⟨_, s, order, ho, hI', hmem, ?_⟩
  simp only [run, build, hg.isEmpty, Bool.false_eq_true, if_false, hg'.firstBlock, hs, ASSERT_of hcount, Option.bind_eq_bind,
    Option.bind_some]

/-- The last number is not that of a block when one has been removed. -/
theorem run_none (hg : g.WellConnected first) (hn : g.Numbered) (hleads : ∀ b ∈ g.blocks, g.Leads first b)
    (hnone : none ∈ g.bblocks) : run g = none := by
  obtain ⟨g', s, order, ho, hI, hmem, hrun⟩ := run_numbered hg hn hleads
  have hnone' : none ∈ g'.bblocks := by
    rw [ho.graph]
    exact hnone
  have hlt : order.length < g'.bblocks.length := by
    rw [((List.perm_ext_iff_of_nodup hI.entered.nodup (ho.connected hg).nodup).2 hmem).length_eq]
    exact blocks_length_lt.2 hnone'
  obtain ⟨n, hlen⟩ : ∃ n, g'.bblocks.length = n + 1 := ⟨_, (Nat.succ_pred (by omega)).symm⟩
  have hlast : getOrderedBlock s n = none := by
    have hget : (order.map some ++ List.replicate (g'.bblocks.length - order.length) none)[n]? = some none := by
      rw [List.getElem?_append_right (by simp; omega), List.getElem?_replicate_of_lt (by simp; omega)]
    simp [getOrderedBlock, hI.entered.ordered, hget]
  rw [hrun, computeSDoms, hI.entered.idoms, List.length_replicate, hlen, List.range_succ, List.reverse_append,
    List.reverse_singleton, List.singleton_append, List.foldlM_cons, computeSDom, hlast]
  rfl

theorem computeIDoms_domsOnly {inPlace : Bool} {t t' : Doms} (h : computeIDoms inPlace t = some t') :
    DomsOnly t.graph t'.graph := by
  refine foldlM_rel (R := fun t t' : Doms => DomsOnly t.graph t'.graph) (fun _ => .refl _) (fun h h' => h.trans h')
    (fun t i t' _ h => ?_) h
  simp only [computeIDom, Option.bind_eq_bind, Option.bind_eq_some_iff] at h
  obtain ⟨cur, -, s, -, o, -, immDom, -, h⟩ := h
  split at h
  · obtain rfl := Option.some.inj h
    have hcur : DomsOnly t.graph (t.graph.modifyBlock cur fun x => { x with dominator := some immDom }) :=
      .modifyBlock fun _ => rfl
    refine hcur.trans ?_
    dsimp only
    exact .modifyBlock fun _ => rfl
  · simp only [ASSERT_bind, Option.pure_def, Option.some.injEq] at h
    rw [← h.2]
    exact .refl _

/-- The builder changes nothing but the stored tree. -/
theorem run_domsOnly (h : run g = some g') : DomsOnly g g' := by
  simp only [run, build, Option.map_eq_some_iff] at h
  obtain ⟨t, h, rfl⟩ := h
  split at h
  · obtain rfl := Option.some.inj h
    exact .refl g
  · simp only [Option.bind_eq_bind, Option.bind_eq_some_iff] at h
    obtain ⟨first, -, s, -, -, -, s', -, h⟩ := h
    exact (resetStructs_domsOnly g {}).trans (computeIDoms_domsOnly h)

/-- What is known before the semidominators are computed. -/
theorem Numbering.forest (hn : g.Numbered) (hI : Numbering g [] order s) (hlen : order.length = g.bblocks.length) :
    Forest g order g.bblocks.length g.bblocks.length s ∧ Registered g order g.bblocks.length s := by
  have hlt : ∀ {i b}, order[i]? = some b → i < g.bblocks.length := fun h => hlen ▸ (List.getElem?_eq_some_iff.1 h).1
  have hid : ∀ {i b}, order[i]? = some b → (g.block b).id < g.bblocks.length := fun h =>
    hn.id_lt (hI.entered.mem_blocks _ (List.mem_of_getElem? h))
  obtain ⟨hlabels, hsdoms, -⟩ := hI.entered.lengths
  refine ⟨⟨by simp [hI.entered.ordered, hlen], hI.entered.parent, ⟨hlabels, hsdoms, by simp [hI.entered.universum]⟩,
    fun j b hb => ?_, fun j b hb _ => ?_, fun j b hb hle => ?_, fun j b hb => ?_⟩,
    ⟨by simp [hI.entered.sdomsSet, hI.entered.idoms], fun b hb => ⟨[], ?_, List.forall_mem_nil _⟩, fun k d hk hle => ?_⟩⟩
  · exact ⟨j, le_rfl, hI.entered.sdom j b hb, fun _ => rfl, fun hle => absurd (hlt hb) hle.not_gt⟩
  · rw [hI.entered.universum, List.getElem?_replicate_of_lt (hid hb)]
  · exact absurd (hlt hb) hle.not_gt
  · have hmem := List.mem_of_getElem? hb
    exact ⟨j, b, by rw [hI.entered.label b (hI.entered.mem_blocks b hmem), if_pos hmem], hb, id⟩
  · rw [hI.entered.sdomsSet, List.getElem?_replicate_of_lt (hn.id_lt hb)]
  · exact absurd (hlt hk) hle.not_gt

/-- The builder completes when no block has been removed. -/
theorem run_total (hg : g.WellConnected first) (hn : g.Numbered) (hleads : ∀ b ∈ g.blocks, g.Leads first b)
    (hnone : none ∉ g.bblocks) : ∃ g', run g = some g' := by
  obtain ⟨g', s, order, ho, hI, hmem, hrun⟩ := run_numbered hg hn hleads
  have hg' := ho.connected hg
  have hn' := ho.numbered hn
  have hlen : order.length = g'.bblocks.length := by
    rw [((List.perm_ext_iff_of_nodup hI.entered.nodup hg'.nodup).2 hmem).length_eq]
    refine blocks_length_eq ?_
    rw [ho.graph]
    exact hnone
  have hc : Complete g' order := ⟨hn', hI.entered.nodup, hmem, hlen, hg'.pred_mem, fun b hb c hc => (hg'.edges b hb c hc).1⟩
  obtain ⟨hf, hr⟩ := hI.forest hn' hlen
  obtain ⟨s', hs', hf', hr', hd'⟩ := computeSDoms_total hc hf hr
  obtain ⟨t, ht⟩ : ∃ t, computeIDoms true ⟨g', s', []⟩ = some t := computeIDoms_total hc hf' hr' hd' fun _ => rfl
  exact ⟨t.graph, by simp [hrun, hs', ht]⟩

/-! ## Renumbered copies -/

/-- The graph with the ids of its blocks made dense. -/
def renumbered (g : Graph) : Graph := g.setNewOrder g.blocks

theorem map_blocks (hnone : none ∉ g.bblocks) : g.blocks.map some = g.bblocks := by
  rw [blocks]
  generalize g.bblocks = l at hnone
  induction l with
  | nil => rfl
  | cons o l ih =>
      rw [List.mem_cons, not_or] at hnone
      obtain ⟨b, rfl⟩ := Option.ne_none_iff_exists'.1 (Ne.symm hnone.1)
      rw [List.filterMap_cons_some (f := id) rfl, List.map_cons, ih hnone.2]

/-- Ids that are dense stay as they are. -/
theorem renumbered_eq (hn : g.Numbered) (hnone : none ∉ g.bblocks) (hu : g.unlinkedInstructionsCounter = 0) :
    renumbered g = g := by
  have hb := map_blocks hnone
  have hfold : g.blocks.zipIdx.foldl (fun g p => g.modifyBlock p.1 fun x => { x with id := p.2 }) g = g := by
    refine List.foldlRecOn (motive := fun g' => g' = g) _ _ rfl fun g' h p hp => ?_
    have hid : (g.block p.1).id = p.2 := by
      refine hn p.2 p.1 ?_
      rw [← hb, List.getElem?_map, List.mem_zipIdx_iff_getElem?.1 hp]
      rfl
    have hsame : g.modifyBlock p.1 (fun x => { x with id := p.2 }) = g := by
      rw [Graph.modifyBlock, ← hid, Function.update_eq_self]
    rw [h]
    exact hsame
  have hnew : renumbered g = { g.blocks.zipIdx.foldl (fun g p => g.modifyBlock p.1 fun x => { x with id := p.2 }) g with
      bblocks := g.blocks.map some, unlinkedInstructionsCounter := 0 } := rfl
  rw [hnew, hfold, hb, ← hu]

/-! ## The analyses -/

/-- `LoopAnalyzer::Run` of a graph whose dominators are valid. -/
def analyzeLoops (g : Graph) : Option Graph := if g.isEmpty then some g else LoopAnalyzer.analyze g

/-- The blocks of `g` have the same dominators in both graphs. -/
def SameDominators (g g' r' : Graph) : Prop :=
  ∀ b ∈ g.blocks, (g'.block b).dominator = (r'.block b).dominator ∧ (g'.block b).dominated = (r'.block b).dominated

/-- The graphs have the same loops, and the blocks of `g` are in the same ones. -/
def SameLoops (g g' r' : Graph) : Prop :=
  g'.loop = r'.loop ∧ g'.loopTreeRoot = r'.loopTreeRoot ∧ ∀ b ∈ g.blocks, (g'.block b).loop = (r'.block b).loop

/-- No null entry is read: the builder completes, and the analyzer does where no loops are known and the edges from a block
lead to different ones. The renumbered copy is given the same dominators and loops. -/
def Survives (g : Graph) : Prop :=
  ∃ g' r', run g = some g' ∧ run (renumbered g) = some r' ∧ SameDominators g g' r' ∧
    ((∀ b ∈ g.blocks, (g.block b).loop = none ∧ (g.block b).succs.Nodup) → (analyzeLoops g').isSome = true) ∧
    Option.Rel (SameLoops g) (analyzeLoops g') (analyzeLoops r')

/-- A graph blocks may have been removed from, in which those that remain can be reached. -/
structure Remains (g : Graph) : Prop where
  numbered : g.Numbered
  count : g.getBasicBlocksCount = g.blocks.length
  reached : g.blocks ≠ [] → ∃ first, g.WellConnected first ∧ ∀ b ∈ g.blocks, g.Leads first b

theorem sameLoops_refl (o : Option Graph) : Option.Rel (SameLoops g) o o := by
  cases o with
  | none => exact .none
  | some g' => exact .some ⟨rfl, rfl, fun _ _ => rfl⟩

/-- When all blocks have been removed there is nothing to do. -/
theorem survives_of_isEmpty (hc : g.getBasicBlocksCount = g.blocks.length) (he : g.isEmpty = true) : Survives g := by
  have hblocks : g.blocks = [] := List.length_eq_zero_iff.1 (hc.symm.trans (beq_iff_eq.1 he))
  have hr : renumbered g = { g with bblocks := [], unlinkedInstructionsCounter := 0 } := by
    rw [renumbered, hblocks]
    rfl
  have he' : (renumbered g).isEmpty = true := by rw [hr]; rfl
  refine ⟨g, renumbered g, by simp [run, build, he], by simp [run, build, he'], ?_, fun _ => by simp [analyzeLoops, he], ?_⟩
  · rw [SameDominators, hblocks]
    exact List.forall_mem_nil _
  · rw [analyzeLoops, analyzeLoops, if_pos he, if_pos he']
    refine .some ⟨by rw [hr], by rw [hr], ?_⟩
    rw [hblocks]
    exact List.forall_mem_nil _

/-- The analyses of a graph with dense ids complete. -/
theorem survives_of_dense (hg : g.WellConnected first) (hn : g.Numbered) (hleads : ∀ b ∈ g.blocks, g.Leads first b)
    (hnone : none ∉ g.bblocks) : Survives g := by
  obtain ⟨g', hg'⟩ := run_total hg hn hleads hnone
  have hu : g.unlinkedInstructionsCounter = 0 := by
    have hcount := hg.count
    have hpos := List.length_pos_of_mem hg.first_mem
    rw [getBasicBlocksCount, blocks_length_eq hnone] at hcount
    rw [blocks_length_eq hnone] at hpos
    omega
  have ho := run_domsOnly hg'
  have hwc := ho.connected hg
  refine ⟨g', g', hg', by rw [renumbered_eq hn hnone hu, hg'], fun _ _ => ⟨rfl, rfl⟩, fun hb => ?_, sameLoops_refl _⟩
  obtain ⟨g'', hg''⟩ := LoopAnalyzer.analyze_total hwc (fun b hm => by rw [ho.block]; exact (hb b (ho.blocks ▸ hm)).2)
    (fun b hm => by rw [ho.block]; exact (hb b (ho.blocks ▸ hm)).1) (fun b hm => by
      rw [Leads, ho.edge]
      exact hleads b (ho.blocks ▸ hm))
  simp [analyzeLoops, hwc.isEmpty, hg'']

/-- The analyses survive the removal of blocks exactly when none has been removed, or all. -/
theorem survives_iff (h : Remains g) : Survives g ↔ g.isEmpty = true ∨ none ∉ g.bblocks := by
  cases he : g.isEmpty with
  | true => exact ⟨fun _ => .inl rfl, fun _ => survives_of_isEmpty h.count he⟩
  | false =>
      have hne : g.blocks ≠ [] := by
        intro hnil
        rw [isEmpty, h.count, hnil] at he
        cases he
      obtain ⟨first, hg, hleads⟩ := h.reached hne
      constructor
      · rintro ⟨g', -, hrun, -⟩
        refine .inr fun hnone => ?_
        rw [run_none hg h.numbered hleads hnone] at hrun
        cases hrun
      · intro hcase
        exact survives_of_dense hg h.numbered hleads (hcase.resolve_left Bool.false_ne_true)

/-- An entry, a block nothing leads to, and an exit. -/
def unusedBlock : Graph := ofLists []
  [{ id := 0, succs := [2], inGraph := true }, { id := 1, inGraph := true }, { id := 2, preds := [0], inGraph := true }] []

/-- The graph without the block nothing leads to. -/
def unusedRemoved : Graph := (unusedBlock.unlinkBasicBlockRaw 1).getD unusedBlock

theorem unusedBlock_numbered : unusedBlock.Numbered := by
  intro i b h
  have hget : ((List.range 3).map some)[i]? = some (some b) := h
  simp only [List.getElem?_map, Option.map_eq_some_iff, Option.some.injEq, List.getElem?_eq_some_iff, List.length_range,
    List.getElem_range] at hget
  obtain ⟨_, ⟨hi, rfl⟩, rfl⟩ := hget
  rcases i with _ | _ | _ | i
  · rfl
  · rfl
  · rfl
  · omega

theorem unusedRemoved_eq : unusedBlock.unlinkBasicBlockRaw 1 = some unusedRemoved := rfl

theorem unusedRemoved_remains : Remains unusedRemoved where
  numbered := unusedBlock_numbered.unlinkBasicBlockRaw unusedRemoved_eq
  count := rfl
  reached _ := by
    have hblocks : unusedRemoved.blocks = [0, 2] := rfl
    refine ⟨0, ⟨rfl, by decide, by decide, rfl, by decide, by decide, by decide, by decide⟩, ?_⟩
    rw [hblocks]
    simp only [List.forall_mem_cons]
    exact ⟨.refl, .single (by simp [Edge, unusedRemoved, unusedBlock]; decide), List.forall_mem_nil _⟩

theorem survives_iff_unusedRemoved : Remains unusedRemoved ∧
    (Survives unusedRemoved ↔ unusedRemoved.isEmpty = true ∨ none ∉ unusedRemoved.bblocks) :=
  ⟨unusedRemoved_remains, survives_iff unusedRemoved_remains⟩

/-- Number 2 is that of a null entry. -/
theorem unusedRemoved_reads_null : unusedBlock.Numbered ∧ none ∉ unusedBlock.bblocks ∧
    unusedBlock.unlinkBasicBlockRaw 1 = some unusedRemoved ∧ Remains unusedRemoved ∧ run unusedRemoved = none ∧
    ¬ Survives unusedRemoved := by
  have hnone : run unusedRemoved = none := Option.isNone_iff_eq_none.1 (by decide)
  refine ⟨unusedBlock_numbered, by decide, unusedRemoved_eq, unusedRemoved_remains, hnone, ?_⟩
  rintro ⟨g', -, hrun, -⟩
  rw [hnone] at hrun
  cases hrun

end CompilerLab.Jit.DomTreeBuilder
