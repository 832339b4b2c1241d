import CompilerLab.Jit.DomTreeBuilder
import CompilerLab.Jit.Lemmas.Traversals

/-!
# The dominator tree builder

The traversal numbers the blocks. Then the links of the disjoint sets lead to blocks with smaller numbers, and the blocks
are registered with their semidominators, so that no null entry is read when each number is that of a block.
-/

namespace CompilerLab.Jit

open CompilerLab.Lib

namespace Graph

variable {g g' : Graph} {first b c i : Nat}

/-! ## Ids -/

/-- The blocks have their places for ids. -/
def Numbered (g : Graph) : Prop := ∀ i b, g.bblocks[i]? = some (some b) → (g.block b).id = i

namespace Numbered

theorem getElem? (h : g.Numbered) (hb : b ∈ g.blocks) : g.bblocks[(g.block b).id]? = some (some b) := by
  obtain ⟨i, hi⟩ := mem_blocks_iff.1 hb
  rwa [h i b hi]

theorem id_lt (h : g.Numbered) (hb : b ∈ g.blocks) : (g.block b).id < g.bblocks.length :=
  (List.getElem?_eq_some_iff.1 (h.getElem? hb)).1

theorem id_inj (h : g.Numbered) (hb : b ∈ g.blocks) (hc : c ∈ g.blocks) (heq : (g.block b).id = (g.block c).id) : b = c := by
  have := (h.getElem? hb).symm.trans (heq ▸ h.getElem? hc)
  exact Option.some.inj (Option.some.inj this)

/-- Removing a block leaves a hole, and the other blocks with their ids. -/
theorem unlinkBasicBlockRaw (h : g.Numbered) (hs : g.unlinkBasicBlockRaw b = some g') : g'.Numbered := by
  simp only [Graph.unlinkBasicBlockRaw, Option.bind_eq_bind, ASSERT_bind, Option.pure_def, Option.some.injEq] at hs
  obtain ⟨-, hb, rfl⟩ := hs
  intro i c hc
  have hc' : (g.bblocks.set (g.block b).id none)[i]? = some (some c) := hc
  rw [List.getElem?_set] at hc'
  split at hc'
  · split at hc' <;> cases hc'
  · next hne =>
      have hcb : c ≠ b := by
        rintro rfl
        exact hne (h i c hc')
      have hid : (g.modifyBlock b fun x => { x with id := INVALID_ID, inGraph := false }).block c = g.block c :=
        modifyBlock_block_ne _ _ hcb
      exact (congrArg BasicBlock.id hid).trans (h i c hc')

end Numbered

/-! ## Changes to the stored tree -/

/-- Nothing but the stored dominators of blocks differs. -/
structure DomsOnly (g g' : Graph) : Prop where
  graph : g' = { g with block := g'.block }
  block : ∀ b, g'.block b =
    { g.block b with dominator := (g'.block b).dominator, dominated := (g'.block b).dominated }

namespace DomsOnly

theorem refl (g : Graph) : DomsOnly g g := ⟨rfl, fun _ => rfl⟩

theorem trans {g'' : Graph} (h : DomsOnly g g') (h' : DomsOnly g' g'') : DomsOnly g g'' :=
  ⟨by rw [h'.graph, h.graph], fun b => by rw [h'.block, h.block]⟩

theorem modifyBlock {f : BasicBlock → BasicBlock}
    (hf : ∀ x, f x = { x with dominator := (f x).dominator, dominated := (f x).dominated }) :
    DomsOnly g (g.modifyBlock b f) := by
  refine ⟨rfl, fun c => ?_⟩
  rw [modifyBlock_block]
  split
  · next hc => exact hc ▸ hf (g.block b)
  · rfl

theorem blocks (h : DomsOnly g g') : g'.blocks = g.blocks := by
  rw [h.graph]
  rfl

theorem edge (h : DomsOnly g g') : g'.Edge = g.Edge := by
  funext b c
  rw [Graph.Edge, Graph.Edge, h.block]

theorem connected (h : DomsOnly g g') (hg : g.WellConnected first) : g'.WellConnected first :=
  hg.congr (by rw [h.graph]) (by rw [h.graph]) (by rw [h.graph]) (by rw [h.graph]) (fun b => by rw [h.block])
    fun b => by rw [h.block]

theorem numbered (h : DomsOnly g g') (hn : g.Numbered) : g'.Numbered := by
  intro i b hb
  rw [h.block]
  rw [h.graph] at hb
  exact hn i b hb

end DomsOnly

end Graph

namespace DomTreeBuilder

variable {g : Graph} {s s' : DomTreeBuilder} {first b c x i j n : Nat} {order : List Nat} {F : Dfs.Frames Nat} {done : List Nat}

/-! ## The reset -/

theorem resetStructs_domsOnly (g : Graph) (s : DomTreeBuilder) : Graph.DomsOnly g (resetStructs g s).1 := by
  have clear : ∀ (l : List Nat) (g : Graph), Graph.DomsOnly g
      (l.foldl (fun g b => g.modifyBlock b fun x => { x with dominated := [], dominator := none }) g) := by
    intro l
    induction l with
    | nil => exact .refl
    | cons a l ih => exact fun g => .trans (.modifyBlock fun _ => rfl) (ih _)
  exact clear g.blocks g

theorem resetStructs_clears (s : DomTreeBuilder) (hb : b ∈ g.blocks) :
    ((resetStructs g s).1.block b).dominator = none ∧ ((resetStructs g s).1.block b).dominated = [] := by
  have clear : ∀ (l : List Nat) (g : Graph), b ∈ l ∨ (g.block b).dominator = none ∧ (g.block b).dominated = [] →
      let g' := l.foldl (fun g b => g.modifyBlock b fun x => { x with dominated := [], dominator := none }) g
      (g'.block b).dominator = none ∧ (g'.block b).dominated = [] := by
    intro l
    induction l with
    | nil => exact fun g hb => hb.resolve_left List.not_mem_nil
    | cons a l ih =>
        intro g hb
        refine ih _ ?_
        by_cases hba : b = a
        · subst hba
          simp
        · simpa [hba] using hb
  exact clear g.blocks g (.inl hb)

/-! ## The traversal -/

theorem setAt_eq {α : Type} {l : List α} {a : α} (h : i < l.length) : setAt l i a = some (l.set i a) := by
  rw [setAt, ASSERT_of h]
  rfl

theorem setAt_eq_some {α : Type} {l l' : List α} {a : α} : setAt l i a = some l' ↔ i < l.length ∧ l.set i a = l' := by
  simp [setAt]

/-- What has been written when the blocks of `order` have been entered. -/
structure Entered (g : Graph) (order : List Nat) (s : DomTreeBuilder) : Prop where
  mem_blocks : ∀ b ∈ order, b ∈ g.blocks
  nodup : order.Nodup
  last : s.lastNumber = (order.length : Int) - 1
  ordered : s.orderedBBlocks = order.map some ++ List.replicate (g.bblocks.length - order.length) none
  label : ∀ b ∈ g.blocks, s.labels[(g.block b).id]? = some (if b ∈ order then some b else none)
  sdom : ∀ i b, order[i]? = some b → s.sdoms[(g.block b).id]? = some i
  parent : ∀ i b, order[i + 1]? = some b → ∃ j p, s.bblocksParents[(g.block b).id]? = some (some p) ∧ j ≤ i ∧
    order[j]? = some p ∧ g.Edge p b
  idoms : s.idoms = List.replicate g.bblocks.length none
  sdomsSet : s.sdomsSet = List.replicate g.bblocks.length []
  universum : s.universum = List.replicate g.bblocks.length none
  lengths : s.labels.length = g.bblocks.length ∧ s.sdoms.length = g.bblocks.length ∧
    s.bblocksParents.length = g.bblocks.length

/-- The block has been found from a block that has been entered, or is the first one. -/
def Found (g : Graph) (b : Nat) (s : DomTreeBuilder) : Prop :=
  s.lastNumber = -1 ∨ ∃ p, s.bblocksParents[(g.block b).id]? = some (some p) ∧ g.Edge p b ∧ some p ∈ s.orderedBBlocks

namespace Entered

theorem seen (h : Entered g order s) (hb : b ∈ g.blocks) : (dfsTraverse g).seen s b = decide (b ∈ order) := by
  by_cases hmem : b ∈ order <;> simp [dfsTraverse, h.label b hb, hmem]

theorem mem_ordered (h : Entered g order s) : some b ∈ s.orderedBBlocks ↔ b ∈ order := by
  simp [h.ordered]

theorem length_le (h : Entered g order s) : order.length ≤ g.blocks.length := (h.nodup.subperm h.mem_blocks).length_le

theorem getElem?_concat_cases {l : List Nat} {a : Nat} (h : (l ++ [a])[i]? = some x) : l[i]? = some x ∨ i = l.length ∧ x = a := by
  rcases Nat.lt_trichotomy i l.length with hi | hi | hi
  · rw [List.getElem?_append_left hi] at h
    exact .inl h
  · subst hi
    simp only [List.getElem?_concat_length, Option.some.injEq] at h
    exact .inr ⟨rfl, h.symm⟩
  · rw [List.getElem?_eq_none (by simp; omega)] at h
    cases h

theorem enter (h : Entered g order s) (hn : g.Numbered) (hb : b ∈ g.blocks) (hnew : b ∉ order) (hf : Found g b s) :
    ∃ s', DomTreeBuilder.enter g s b = some s' ∧ Entered g (order ++ [b]) s' := by
  obtain ⟨hlabels, hsdoms, hparents⟩ := h.lengths
  have hid := hn.id_lt hb
  have hnodup : (order ++ [b]).Nodup := List.nodup_append.2 ⟨h.nodup, List.nodup_singleton b, fun x hx y hy hxy =>
    hnew (List.mem_singleton.1 hy ▸ hxy ▸ hx)⟩
  have hmem : ∀ c ∈ order ++ [b], c ∈ g.blocks := by simpa [or_imp, forall_and] using ⟨h.mem_blocks, hb⟩
  have hroom : order.length < g.bblocks.length := by
    have hsub := (hnodup.subperm hmem).length_le
    have hle : g.blocks.length ≤ g.bblocks.length := List.length_filterMap_le _ _
    rw [List.length_append, List.length_singleton] at hsub
    omega
  have hlast : s.lastNumber + 1 = (order.length : Int) := by
    have := h.last
    omega
  have hordered : s.orderedBBlocks.length = g.bblocks.length := by
    rw [h.ordered, List.length_append, List.length_map, List.length_replicate]
    omega
  -- the ids of the blocks that have been entered before are others
  have hother : ∀ c ∈ order, (g.block b).id ≠ (g.block c).id := fun c hc heq =>
    hnew (hn.id_inj hb (h.mem_blocks c hc) heq ▸ hc)
  have hassert : ASSERT ((order.length : Int) < s.idoms.length) = some () := ASSERT_of (by simpa [h.idoms] using hroom)
  refine ⟨{ s with
    lastNumber := order.length
    labels := s.labels.set (g.block b).id (some b)
    sdoms := s.sdoms.set (g.block b).id order.length
    orderedBBlocks := s.orderedBBlocks.set order.length (some b) }, ?_, ?_⟩
  · simp only [DomTreeBuilder.enter, hlast, hassert, setAt_eq (hlabels ▸ hid), setAt_eq (hsdoms ▸ hid), Int.toNat_natCast,
      setAt_eq (hordered ▸ hroom), Option.bind_eq_bind, Option.bind_some, Option.pure_def]
  refine ⟨hmem, hnodup, by simp, ?_, fun c hc => ?_, fun i c hc => ?_, fun i c hc => ?_, h.idoms, h.sdomsSet, h.universum, ?_⟩
  · obtain ⟨k, hk⟩ : ∃ k, g.bblocks.length - order.length = k + 1 := ⟨_, (Nat.succ_pred (by omega)).symm⟩
    have hk' : g.bblocks.length - (order ++ [b]).length = k := by
      rw [List.length_append, List.length_singleton]
      omega
    rw [hk', h.ordered, hk, List.set_append_right _ _ (by simp)]
    simp [List.replicate_succ]
  · rw [List.getElem?_set]
    by_cases hcb : c = b
    · subst hcb
      simp [hlabels, hid]
    · have hne : (g.block b).id ≠ (g.block c).id := fun heq => hcb (hn.id_inj hb hc heq).symm
      simp [hne, h.label c hc, hcb]
  · rcases getElem?_concat_cases hc with hc | ⟨rfl, rfl⟩
    · rw [List.getElem?_set_ne (hother c (List.mem_of_getElem? hc))]
      exact h.sdom i c hc
    · rw [List.getElem?_set_self (hsdoms ▸ hid)]
  · rcases getElem?_concat_cases hc with hc | ⟨hi, rfl⟩
    · obtain ⟨j, p, hp, hj, hjp, he⟩ := h.parent i c hc
      exact ⟨j, p, hp, hj, by rw [List.getElem?_append_left (List.getElem?_eq_some_iff.1 hjp).1, hjp], he⟩
    · rcases hf with hf | ⟨p, hp, he, hpo⟩
      · have := h.last
        omega
      · obtain ⟨j, hj⟩ := List.getElem?_of_mem (h.mem_ordered.1 hpo)
        have hlt := (List.getElem?_eq_some_iff.1 hj).1
        exact ⟨j, p, hp, by omega, by rw [List.getElem?_append_left hlt, hj], he⟩
  · simpa using ⟨hlabels, hsdoms, hparents⟩

theorem forth (h : Entered g order s) (hn : g.Numbered) (hb : b ∈ g.blocks) (hnew : b ∉ order) (hc : c ∈ order)
    (he : g.Edge c b) : ∃ s', (dfsTraverse g).forth s c b = some s' ∧ Entered g order s' ∧ Found g b s' := by
  obtain ⟨hlabels, hsdoms, hparents⟩ := h.lengths
  have hid := hn.id_lt hb
  have hassert : ASSERT ((g.block b).id < s.labels.length) = some () := ASSERT_of (hlabels ▸ hid)
  refine ⟨{ s with bblocksParents := s.bblocksParents.set (g.block b).id (some c) }, ?_, ?_, ?_⟩
  · simp only [dfsTraverse, hassert, setAt_eq (hparents ▸ hid), Option.bind_eq_bind, Option.bind_some, Option.pure_def]
  · refine ⟨h.mem_blocks, h.nodup, h.last, h.ordered, h.label, h.sdom, fun i x hx => ?_, h.idoms, h.sdomsSet, h.universum,
      ⟨hlabels, hsdoms, by simpa using hparents⟩⟩
    have hx' := List.mem_of_getElem? hx
    have hne : (g.block b).id ≠ (g.block x).id := fun heq => hnew (hn.id_inj hb (h.mem_blocks x hx') heq ▸ hx')
    obtain ⟨j, p, hp, hj⟩ := h.parent i x hx
    exact ⟨j, p, by rw [List.getElem?_set_ne hne, hp], hj⟩
  · exact .inr ⟨c, List.getElem?_set_self (hparents ▸ hid), he, h.mem_ordered.2 hc⟩

end Entered

/-- What holds between the steps of the traversal. -/
structure Numbering (g : Graph) (F : Dfs.Frames Nat) (order : List Nat) (s : DomTreeBuilder) : Prop where
  entered : Entered g order s
  nodup : (F.map Prod.fst).Nodup
  frame : ∀ p ∈ F, p.1 ∈ order ∧ ∀ y ∈ p.2, y ∈ order
  closed : ∀ b ∈ order, b ∈ F.map Prod.fst ∨ ∀ c ∈ (g.block b).succs, c ∈ order

theorem Numbering.mem_of_reached (hg : g.WellConnected first) (hI : Numbering g F order s)
    (hb : Dfs.Reached (fun b => (g.block b).succs) (· = first) F b) : b ∈ g.blocks := by
  cases F with
  | nil => exact hb ▸ hg.first_mem
  | cons p F =>
      obtain ⟨rest, hN⟩ := hb
      exact hg.succ_mem p.1 (hI.entered.mem_blocks _ (hI.frame p List.mem_cons_self).1) b (by simp [hN])

theorem dfsTraverse_rule (hg : g.WellConnected first) (hn : g.Numbered) : (dfsTraverse g).Rule (fun b => (g.block b).succs)
    (· = first) (Found g) (fun F s => ∃ order, Numbering g F order s) fun b F s => ∃ order, Numbering g F order s ∧ b ∈ order where
  next _ := rfl
  enter := by
    rintro F s a s' ⟨order, hI⟩ ha hf hs he
    have hmem := hI.mem_of_reached hg ha
    have hnew : a ∉ order := by simpa [hI.entered.seen hmem] using hs
    obtain ⟨s₁, hs₁, h₁⟩ := hI.entered.enter hn hmem hnew hf
    obtain rfl := Option.some.inj (hs₁.symm.trans he)
    refine ⟨order ++ [a], h₁, List.nodup_cons.2 ⟨fun hm => ?_, hI.nodup⟩, List.forall_mem_cons.2 ⟨⟨by simp, by simp⟩, ?_⟩,
      fun b hb => ?_⟩
    · obtain ⟨p, hp, rfl⟩ := List.mem_map.1 hm
      exact hnew (hI.frame p hp).1
    · exact fun p hp => ⟨List.mem_append_left _ (hI.frame p hp).1, fun y hy => List.mem_append_left _ ((hI.frame p hp).2 y hy)⟩
    · rcases List.mem_append.1 hb with hb | hb
      · exact (hI.closed b hb).imp (List.mem_cons_of_mem a) fun hall c hc => List.mem_append_left _ (hall c hc)
      · exact .inl (by simp [List.mem_singleton.1 hb])
  again := by
    rintro F s a done b rest s' ⟨order, hI⟩ hN hb hs
    obtain rfl := Option.some.inj hs
    obtain ⟨⟨ha, hdone⟩, hframe⟩ := List.forall_mem_cons.1 hI.frame
    have hmem : b ∈ g.blocks := hg.succ_mem a (hI.entered.mem_blocks a ha) b (by simp [hN])
    have hbo : b ∈ order := by simpa [hI.entered.seen hmem] using hb
    refine ⟨order, hI.entered, hI.nodup, List.forall_mem_cons.2 ⟨⟨ha, fun y hy => ?_⟩, hframe⟩, hI.closed⟩
    rcases List.mem_append.1 hy with hy | hy
    · exact hdone y hy
    · rwa [List.mem_singleton.1 hy]
  forth := by
    rintro F s a done b rest s' ⟨order, hI⟩ hN hb hs
    have ha := (List.forall_mem_cons.1 hI.frame).1.1
    have he : g.Edge a b := by simp [Graph.Edge, hN]
    have hmem : b ∈ g.blocks := hg.succ_mem a (hI.entered.mem_blocks a ha) b he
    have hnew : b ∉ order := by simpa [hI.entered.seen hmem] using hb
    obtain ⟨s₁, hs₁, h₁, hf⟩ := hI.entered.forth hn hmem hnew ha he
    obtain rfl := Option.some.inj (hs₁.symm.trans hs)
    exact ⟨⟨order, h₁, hI.nodup, hI.frame, hI.closed⟩, by simp [h₁.seen hmem, hnew], hf⟩
  leave := by
    rintro F s a s' ⟨order, hI⟩ hs
    obtain rfl := Option.some.inj hs
    obtain ⟨⟨ha, hall⟩, hframe⟩ := List.forall_mem_cons.1 hI.frame
    refine ⟨order, ⟨hI.entered, (List.nodup_cons.1 hI.nodup).2, hframe, fun b hb => ?_⟩, ha⟩
    rcases hI.closed b hb with hm | hc
    · rcases List.mem_cons.1 hm with rfl | hm
      · exact .inr hall
      · exact .inl hm
    · exact .inr hc
  back := by
    rintro F s a done b rest s' ⟨order, hI, hb⟩ hN hs
    obtain rfl := Option.some.inj hs
    obtain ⟨⟨ha, hdone⟩, hframe⟩ := List.forall_mem_cons.1 hI.frame
    refine ⟨order, hI.entered, hI.nodup, List.forall_mem_cons.2 ⟨⟨ha, fun y hy => ?_⟩, hframe⟩, hI.closed⟩
    rcases List.mem_append.1 hy with hy | hy
    · exact hdone y hy
    · rwa [List.mem_singleton.1 hy]

theorem dfsTraverse_progress (hg : g.WellConnected first) (hn : g.Numbered) : (dfsTraverse g).Progress
    (fun b => (g.block b).succs) (· = first) (Found g) (fun F s => ∃ order, Numbering g F order s)
    (fun b F s => ∃ order, Numbering g F order s ∧ b ∈ order) g.blocks.length where
  bounded := by
    rintro F s ⟨order, hI⟩
    have hsub : F.map Prod.fst ⊆ g.blocks := by
      intro b hb
      obtain ⟨p, hp, rfl⟩ := List.mem_map.1 hb
      exact hI.entered.mem_blocks _ (hI.frame p hp).1
    simpa using (hI.nodup.subperm hsub).length_le
  enter := by
    rintro F s a ⟨order, hI⟩ ha hf hs
    have hmem := hI.mem_of_reached hg ha
    have hnew : a ∉ order := by simpa [hI.entered.seen hmem] using hs
    obtain ⟨s', hs', -⟩ := hI.entered.enter hn hmem hnew hf
    exact ⟨s', hs'⟩
  again _ _ _ := ⟨_, rfl⟩
  forth := by
    rintro F s a done b rest ⟨order, hI⟩ hN hb
    have ha := (List.forall_mem_cons.1 hI.frame).1.1
    have he : g.Edge a b := by simp [Graph.Edge, hN]
    have hmem : b ∈ g.blocks := hg.succ_mem a (hI.entered.mem_blocks a ha) b he
    have hnew : b ∉ order := by simpa [hI.entered.seen hmem] using hb
    obtain ⟨s', hs', -⟩ := hI.entered.forth hn hmem hnew ha he
    exact ⟨s', hs'⟩
  leave _ := ⟨_, rfl⟩
  back _ _ := ⟨_, rfl⟩

theorem Numbering.start {g' : Graph} (hn : g'.Numbered) (h : g'.bblocks = g.bblocks) : Numbering g' [] [] (resetStructs g {}).2 where
  entered := by
    have hb : (resetStructs g {}).1.bblocks.length = g'.bblocks.length := by rw [h, (resetStructs_domsOnly g {}).graph]
    have hresize : ∀ {α : Type} (n : Nat) (x : α), resize [] n x = List.replicate n x := by simp [resize]
    have hs : (resetStructs g {}).2 =
        { lastNumber := -1
          idoms := List.replicate g'.bblocks.length none
          sdoms := List.replicate g'.bblocks.length Graph.INVALID_ID
          sdomsSet := List.replicate g'.bblocks.length []
          labels := List.replicate g'.bblocks.length none
          orderedBBlocks := List.replicate g'.bblocks.length none
          bblocksParents := List.replicate g'.bblocks.length none
          universum := List.replicate g'.bblocks.length none } := by
      rw [← hb]
      simp only [resetStructs, hresize, List.length_replicate]
    rw [hs]
    refine ⟨by simp, .nil, rfl, by simp, fun b hb => ?_, by simp, by simp, rfl, rfl, rfl, by simp⟩
    rw [List.getElem?_replicate_of_lt (hn.id_lt hb)]
    simp
  nodup := .nil
  frame := by simp
  closed := by simp

/-- The traversal of the cleared graph enters its blocks. -/
theorem dfsTraverse_total (hg : g.WellConnected first) (hn : g.Numbered) (hI : Numbering g [] [] s)
    (hlt : g.blocks.length < n) : ∃ s' order, (dfsTraverse g).visit n s first = some s' ∧ Numbering g [] order s' ∧
      first ∈ order := by
  have hf : Found g first s := .inl (by simpa using hI.entered.last)
  have hseen : (dfsTraverse g).seen s first = false := by simp [hI.entered.seen hg.first_mem]
  obtain ⟨s', hs'⟩ := (dfsTraverse_rule hg hn).visit_total (dfsTraverse_progress hg hn) ⟨[], hI⟩ rfl hf hseen
    (by simpa using hlt)
  obtain ⟨order, h', hfirst⟩ := (dfsTraverse_rule hg hn).visit ⟨[], hI⟩ rfl hf hseen hs'
  exact ⟨s', order, hs', h', hfirst⟩

/-- Every block control leads to has been entered. -/
theorem Numbering.mem (hI : Numbering g [] order s) (hfirst : first ∈ order) (hleads : ∀ b ∈ g.blocks, g.Leads first b) :
    b ∈ order ↔ b ∈ g.blocks := by
  refine ⟨hI.entered.mem_blocks b, fun hb => ?_⟩
  have hlead := hleads b hb
  clear hb
  induction hlead with
  | refl => exact hfirst
  | tail _ hc ih => exact (hI.closed _ ih).resolve_left (by simp) _ hc

end DomTreeBuilder

end CompilerLab.Jit
