import CompilerLab.Jit.Lemmas.LoopHeaders
import CompilerLab.Jit.Lemmas.LoopTree

/-!
# Room in the loops

Whatever dominators are stored, the analysis of a graph without loops completes: a back edge is recorded once, a block
that is in no loop is in no list of blocks, and a loop that is in no other is in no list of inner loops.
-/

namespace CompilerLab.Jit

open CompilerLab.Lib

namespace Graph

variable {g g' : Graph} {b k l t : Nat}

/-- Blocks that are in no loop and loops that are in no other can be added to `l`. -/
structure Room (g : Graph) (l : Nat) : Prop where
  basicBlocks : ∀ b ∈ (g.loop l).basicBlocks, (g.block b).loop ≠ none
  innerLoops : ∀ i ∈ (g.loop l).innerLoops, (g.loop i).outerLoop ≠ none

namespace Room

theorem addBlock_total (h : Room g t) (hb : (g.block b).loop = none) : ∃ g', g.loopAddBasicBlock t b = some g' :=
  ⟨_, loopAddBasicBlock_eq hb fun hm => h.basicBlocks b hm hb⟩

theorem addLoop_total (h : Room g t) (hk : (g.loop k).outerLoop = none) :
    ∃ g', (g.setOuterLoop k t).addInnerLoop t k = some g' := by
  refine ⟨_, addInnerLoop_eq fun hm => h.innerLoops k ?_ hk⟩
  rw [setOuterLoop, modifyLoop_loop] at hm
  split at hm
  · next hkt => exact hkt ▸ hm
  · exact hm

theorem addBlock (h : Room g l) (hs : g.loopAddBasicBlock t b = some g') : Room g' l := by
  simp only [loopAddBasicBlock, Option.bind_eq_bind, ASSERT_bind, Option.pure_def, Option.some.injEq] at hs
  obtain ⟨-, rfl⟩ := hs
  refine ⟨fun c hc => ?_, fun i hi => ?_⟩
  · rw [addBasicBlock_loop] at hc
    by_cases hcb : c = b
    · simp [hcb]
    · have hmem : c ∈ (g.loop l).basicBlocks := by
        dsimp only at hc
        split at hc
        · exact (List.mem_append.1 hc).resolve_right (by simpa using hcb)
        · exact hc
      simpa [hcb] using h.basicBlocks c hmem
  · rw [addBasicBlock_loop] at hi ⊢
    exact h.innerLoops i hi

theorem addLoop (h : Room g l) (hs : (g.setOuterLoop k t).addInnerLoop t k = some g') : Room g' l := by
  simp only [addInnerLoop, Option.bind_eq_bind, ASSERT_bind, Option.pure_def, Option.some.injEq] at hs
  obtain ⟨-, rfl⟩ := hs
  refine ⟨fun c hc => ?_, fun i hi => ?_⟩
  · rw [addInnerLoop_loop] at hc
    exact h.basicBlocks c hc
  · rw [addInnerLoop_loop] at hi ⊢
    by_cases hik : i = k
    · simp [hik]
    · have hmem : i ∈ (g.loop l).innerLoops := by
        dsimp only at hi
        split at hi
        · exact (List.mem_append.1 hi).resolve_right (by simpa using hik)
        · exact hi
      simpa [hik] using h.innerLoops i hmem

end Room

end Graph

namespace LoopAnalyzer

open Graph

variable {g g' g'' : Graph} {first a b h l t : Nat} {s : State} {S S' : Nat → Nat → Prop} {L : Nat → Prop}
  {F : Dfs.Frames Nat} {done : List Nat}

/-! ## The search -/

/-- The loops made in the search have been given the edges of `S`, and no inner loops. -/
structure Recording (g : Graph) (S : Nat → Nat → Prop) (g' : Graph) : Prop where
  count : g.loopCount ≤ g'.loopCount
  range : ∀ b ∈ g.blocks, ∀ l, (g'.block b).loop = some l → g.loopCount ≤ l
  basicBlocks : ∀ l, g.loopCount ≤ l → l < g'.loopCount → ∀ b ∈ (g'.loop l).basicBlocks, (g'.block b).loop ≠ none
  innerLoops : ∀ l, g.loopCount ≤ l → l < g'.loopCount → (g'.loop l).innerLoops = []
  backEdges : ∀ l, g.loopCount ≤ l → l < g'.loopCount → ∀ u ∈ (g'.loop l).backEdges, ∃ h,
    (g'.loop l).header = some h ∧ S u h

namespace Recording

theorem mono (hr : Recording g S g') (hS : ∀ u h, S u h → S' u h) : Recording g S' g' where
  count := hr.count
  range := hr.range
  basicBlocks := hr.basicBlocks
  innerLoops := hr.innerLoops
  backEdges l hl hlt u hu := by
    obtain ⟨h, hh, hu⟩ := hr.backEdges l hl hlt u hu
    exact ⟨h, hh, hS u h hu⟩

theorem modifyLoop {f : Loop → Loop} (hr : Recording g S g')
    (hf : f (g'.loop l) = { g'.loop l with backEdges := (f (g'.loop l)).backEdges, isIrreducible := (f (g'.loop l)).isIrreducible })
    (hback : ∀ u ∈ (f (g'.loop l)).backEdges, u ∈ (g'.loop l).backEdges ∨ ∃ h, (g'.loop l).header = some h ∧ S u h) :
    Recording g S (g'.modifyLoop l f) where
  count := hr.count
  range := hr.range
  basicBlocks k hk hlt b hb := by
    refine hr.basicBlocks k hk hlt b ?_
    rw [modifyLoop_loop] at hb
    split at hb
    · next hkl =>
        rw [hf] at hb
        exact hkl ▸ hb
    · exact hb
  innerLoops k hk hlt := by
    rw [modifyLoop_loop]
    split
    · next hkl =>
        rw [hf]
        exact hkl ▸ hr.innerLoops k hk hlt
    · exact hr.innerLoops k hk hlt
  backEdges k hk hlt u hu := by
    rw [modifyLoop_loop] at hu ⊢
    split at hu
    · next hkl =>
        subst hkl
        rw [if_pos rfl, hf]
        exact (hback u hu).elim (hr.backEdges k hk hlt u) id
    · next hkl =>
        rw [if_neg hkl]
        exact hr.backEdges k hk hlt u hu

/-- The loop of a header that has none yet. -/
theorem newLoop {n : Nat} {i : Bool} (hr : Recording g S g')
    (hs : (g'.newLoop n (some h) i false).1.loopAddBasicBlock g'.loopCount h = some g'') :
    Recording g S g'' ∧ (g''.loop g'.loopCount).backEdges = [] ∧ (g''.loop g'.loopCount).header = some h := by
  simp only [loopAddBasicBlock, Option.bind_eq_bind, ASSERT_bind, Option.pure_def, Option.some.injEq] at hs
  obtain ⟨-, rfl⟩ := hs
  have hnew : (g'.newLoop n (some h) i false).1.loop g'.loopCount = { id := n, header := some h, isIrreducible := i } :=
    Function.update_self ..
  have hold : ∀ k, k ≠ g'.loopCount → (g'.newLoop n (some h) i false).1.loop k = g'.loop k := fun k hk =>
    Function.update_of_ne hk ..
  refine ⟨⟨hr.count.trans (Nat.le_succ _), fun b hb l hl => ?_, fun l hl hlt b hb => ?_, fun l hl hlt => ?_, fun l hl hlt u hu => ?_⟩,
    by simp [hnew], by simp [hnew]⟩
  · by_cases hbh : b = h
    · subst hbh
      simp only [modifyLoop_block, modifyBlock_block_self, Option.some.injEq] at hl
      exact hl ▸ hr.count
    · simp only [modifyLoop_block, modifyBlock_block_ne _ _ hbh] at hl
      exact hr.range b hb l hl
  · by_cases hbh : b = h
    · simp [hbh]
    · have hne : l ≠ g'.loopCount := by
        rintro rfl
        simp [hnew, hbh] at hb
      have hlt' : l < g'.loopCount := Nat.lt_of_le_of_ne (Nat.le_of_lt_succ hlt) hne
      rw [addBasicBlock_loop, hold l hne] at hb
      simp only [hne, if_false] at hb
      rw [modifyLoop_block, modifyBlock_block_ne _ _ hbh]
      exact hr.basicBlocks l hl hlt' b hb
  · rw [addBasicBlock_loop]
    by_cases hne : l = g'.loopCount
    · simp [hne, hnew]
    · rw [hold l hne]
      exact hr.innerLoops l hl (Nat.lt_of_le_of_ne (Nat.le_of_lt_succ hlt) hne)
  · rw [addBasicBlock_loop] at hu ⊢
    by_cases hne : l = g'.loopCount
    · simp [hne, hnew] at hu
    · rw [hold l hne] at hu ⊢
      exact hr.backEdges l hl (Nat.lt_of_le_of_ne (Nat.le_of_lt_succ hlt) hne) u hu

/-- An edge that has not been followed yet can be recorded. -/
theorem addLoopInfo (hr : Recording g S s.graph) (ho : HeadersOnly g s.graph) (hh : h ∈ g.blocks) (hnew : ¬ S a h) :
    ∃ s', LoopAnalyzer.addLoopInfo s h a = some s' ∧ Recording g (fun u v => S u v ∨ u = a ∧ v = h) s'.graph := by
  have hr' : Recording g (fun u v => S u v ∨ u = a ∧ v = h) s.graph := hr.mono fun _ _ => .inl
  cases hloop : (s.graph.block h).loop with
  | none =>
      obtain ⟨g₁, hadd⟩ : ∃ g₁, (s.graph.newLoop s.loops.length (some h) (isLoopIrreducible s.graph h a) false).1.loopAddBasicBlock
          s.graph.loopCount h = some g₁ := ⟨_, loopAddBasicBlock_eq hloop (by simp [Graph.newLoop])⟩
      obtain ⟨hr₁, hback, hhead⟩ := hr'.newLoop hadd
      have hedge := addBackEdge_eq (g := g₁) (b := a) (l := s.graph.loopCount) (by simp [hback])
      refine ⟨{ s with
        graph := g₁.modifyLoop s.graph.loopCount fun x => { x with backEdges := x.backEdges ++ [a] }
        loops := s.loops ++ [s.graph.loopCount] }, ?_, ?_⟩
      · rw [Graph.newLoop] at hadd
        simp only [LoopAnalyzer.addLoopInfo, hloop, Graph.newLoop, hadd, hedge, Option.bind_eq_bind, Option.bind_some, Option.pure_def]
      · dsimp only
        refine hr₁.modifyLoop rfl fun u hu => ?_
        rw [hback] at hu
        exact .inr ⟨h, hhead, .inr ⟨List.mem_singleton.1 hu, rfl⟩⟩
  | some l =>
      obtain ⟨hlt, hhead⟩ := ho h hh l hloop
      have hnot : a ∉ (s.graph.loop l).backEdges := fun ha => by
        obtain ⟨h', hh', hS⟩ := hr.backEdges l (hr.range h hh l hloop) hlt a ha
        obtain rfl := Option.some.inj (hhead.symm.trans hh')
        exact hnew hS
      have hr₁ : Recording g (fun u v => S u v ∨ u = a ∧ v = h)
          (s.graph.modifyLoop l fun x => { x with backEdges := x.backEdges ++ [a] }) := by
        refine hr'.modifyLoop rfl fun u hu => ?_
        rcases List.mem_append.1 hu with hu | hu
        · exact .inl hu
        · exact .inr ⟨h, hhead, .inr ⟨List.mem_singleton.1 hu, rfl⟩⟩
      simp only [LoopAnalyzer.addLoopInfo, hloop, addBackEdge_eq hnot, Option.bind_eq_bind, Option.bind_some, Option.pure_def]
      split
      · refine ⟨_, rfl, ?_⟩
        dsimp only
        exact hr₁.modifyLoop rfl fun _ => .inl
      · exact ⟨_, rfl, hr₁⟩

end Recording

/-- An edge to a block that has been seen; it has not been recorded before. -/
theorem Marking.record {rest : List Nat} (hg : g.WellConnected first) (hsuccs : ∀ b ∈ g.blocks, (g.block b).succs.Nodup)
    (hI : Marking g first ((a, done) :: F) s) (hr : Recording g (Followed g ((a, done) :: F) s.dfsBlocks) s.graph)
    (hN : (g.block a).succs = done ++ b :: rest) (hb : dfsBackEdgesSearch.seen s b = true) :
    ∃ s', dfsBackEdgesSearch.again s a b = some s' ∧
      Recording g (Followed g ((a, done ++ [b]) :: F) s'.dfsBlocks) s'.graph := by
  cases hgrey : s.grey b with
  | true =>
      have ha : a ∈ g.blocks := hI.mem_blocks hg (hI.covers.frame _ List.mem_cons_self).1
      have hnew := not_followed (hsuccs a ha) hN hI.covers.nodup fun hm => hI.left a hm List.mem_cons_self
      obtain ⟨s', hs', hr'⟩ := hr.addLoopInfo hI.headers (hI.mem_blocks hg hb) hnew
      refine ⟨s', by simpa [dfsBackEdgesSearch, hgrey] using hs', ?_⟩
      rw [(addLoopInfo_frame hs').2.2.2]
      exact hr'.mono fun _ _ => followed_push.2
  | false => exact ⟨s, by simp [dfsBackEdgesSearch, hgrey], hr.mono fun _ _ hf => followed_push.2 (.inl hf)⟩

/-- There is room in `dfsBlocks` for the block that is left. -/
theorem Marking.room (hg : g.WellConnected first) (hI : Marking g first ((a, done) :: F) s) :
    s.dfsBlocks.length < s.graph.getBasicBlocksCount := by
  have hnodup : (a :: s.dfsBlocks).Nodup := List.nodup_cons.2 ⟨fun ha => hI.left a ha List.mem_cons_self, hI.nodup⟩
  have sub : a :: s.dfsBlocks ⊆ g.blocks := List.cons_subset.2
    ⟨hI.mem_blocks hg (hI.covers.frame _ List.mem_cons_self).1, fun b hb => hI.mem_blocks hg (hI.seen_of_left hb)⟩
  rw [hI.covers.keeps.count, hg.count]
  exact (hnodup.subperm sub).length_le

theorem dfsBackEdgesSearch_recording (hg : g.WellConnected first) (hsuccs : ∀ b ∈ g.blocks, (g.block b).succs.Nodup) :
    dfsBackEdgesSearch.Rule (fun b => (g.block b).succs) (· = first) (fun _ _ => True)
    (fun F s => Marking g first F s ∧ Recording g (Followed g F s.dfsBlocks) s.graph)
    fun b F s => (Marking g first F s ∧ b ∈ s.dfsBlocks) ∧ Recording g (Followed g F s.dfsBlocks) s.graph where
  next hI := (dfsBackEdgesSearch_marking hg).next hI.1
  enter := by
    rintro F s a s' ⟨hI, hr⟩ ha hE hs he
    refine ⟨(dfsBackEdgesSearch_marking hg).enter hI ha hE hs he, ?_⟩
    obtain rfl := Option.some.inj he
    exact hr.mono fun _ _ => followed_enter.2
  again := by
    rintro F s a done b rest s' ⟨hI, hr⟩ hN hb hs
    refine ⟨(dfsBackEdgesSearch_marking hg).again hI hN hb hs, ?_⟩
    obtain ⟨s'', hs'', hr'⟩ := hI.record hg hsuccs hr hN hb
    exact Option.some.inj (hs''.symm.trans hs) ▸ hr'
  forth := by
    rintro F s a done b rest s' ⟨hI, hr⟩ _ hb hs
    obtain rfl := Option.some.inj hs
    exact ⟨⟨hI, hr⟩, hb, trivial⟩
  leave := by
    rintro F s a s' ⟨hI, hr⟩ hs
    refine ⟨(dfsBackEdgesSearch_marking hg).leave hI hs, ?_⟩
    simp only [dfsBackEdgesSearch, Option.bind_eq_bind, ASSERT_bind, Option.pure_def, Option.some.injEq] at hs
    obtain ⟨-, rfl⟩ := hs
    exact hr.mono fun _ _ => followed_leave.2
  back := by
    rintro F s a done b rest s' ⟨hJ, hr⟩ hN hs
    refine ⟨(dfsBackEdgesSearch_marking hg).back hJ hN hs, ?_⟩
    obtain rfl := Option.some.inj hs
    exact hr.mono fun _ _ hf => followed_push.2 (.inl hf)

theorem dfsBackEdgesSearch_recorded (hg : g.WellConnected first) (hsuccs : ∀ b ∈ g.blocks, (g.block b).succs.Nodup) :
    dfsBackEdgesSearch.Progress (fun b => (g.block b).succs) (· = first) (fun _ _ => True)
    (fun F s => Marking g first F s ∧ Recording g (Followed g F s.dfsBlocks) s.graph)
    (fun b F s => (Marking g first F s ∧ b ∈ s.dfsBlocks) ∧ Recording g (Followed g F s.dfsBlocks) s.graph)
    g.blocks.length where
  bounded hI := hI.1.covers.length_le fun _ hx => hg.mem_of_leads (hx.lift id fun _ _ hw => hw.1)
  enter _ _ _ _ := ⟨_, rfl⟩
  again hI hN hb := (hI.1.record hg hsuccs hI.2 hN hb).imp fun _ hs => hs.1
  forth _ _ _ := ⟨_, rfl⟩
  leave := by
    intro F s a hI
    simp only [dfsBackEdgesSearch, ASSERT_of (hI.1.room hg), Option.bind_eq_bind, Option.bind_some, Option.pure_def]
    exact ⟨_, rfl⟩
  back _ _ := ⟨_, rfl⟩

/-! ## The blocks of the loops -/

/-- The loops of the search, while blocks are added to them. -/
structure Populating (g : Graph) (L : Nat → Prop) (g' : Graph) : Prop where
  range : ∀ b ∈ g.blocks, ∀ l, (g'.block b).loop = some l → L l
  room : ∀ l, L l → Room g' l
  backEdges : ∀ l, L l → ∀ u ∈ (g'.loop l).backEdges, u ∈ g.blocks

theorem collectBackEdges_total (hg : g.WellConnected first) (hsuccs : ∀ b ∈ g.blocks, (g.block b).succs.Nodup)
    (hnone : ∀ b ∈ g.blocks, (g.block b).loop = none) (hleads : ∀ b ∈ g.blocks, g.Leads first b) :
    ∃ s L, collectBackEdges g = some s ∧ (∀ b, b ∈ s.dfsBlocks ↔ b ∈ g.blocks) ∧ LoopsOnly g s.graph ∧
      Populating g L s.graph := by
  have hstart : Marking g first [] { graph := g } ∧ Recording g (Followed g [] []) g := by
    refine ⟨.start hnone, ⟨le_rfl, fun b hb l hl => ?_, fun l hl hlt => ?_, fun l hl hlt => ?_, fun l hl hlt => ?_⟩⟩
    · rw [hnone b hb] at hl
      cases hl
    all_goals exact absurd hlt hl.not_gt
  have hunseen : dfsBackEdgesSearch.seen { graph := g } first = false := rfl
  obtain ⟨s, hs⟩ := (dfsBackEdgesSearch_recording hg hsuccs).visit_total (n := g.blockCount + 1)
    (dfsBackEdgesSearch_recorded hg hsuccs) hstart rfl trivial hunseen (Nat.lt_succ_of_le hg.length_le)
  obtain ⟨⟨hI, -⟩, hr⟩ := (dfsBackEdgesSearch_recording hg hsuccs).visit hstart rfl trivial hunseen hs
  have hmem : ∀ b, b ∈ s.dfsBlocks ↔ b ∈ g.blocks := by
    refine fun b => ⟨fun hb => hI.mem_blocks hg (hI.seen_of_left hb), fun hb => (hI.black b).1 ?_⟩
    have hseen := (dfsBackEdgesSearch_marks g).visit_closed (.refl g) hunseen (by simp [dfsBackEdgesSearch]) hs b
    have hgrey : s.grey b = false := by simpa using (hI.grey b).not
    simpa [dfsBackEdgesSearch, hgrey] using hseen.2 (.inr (hleads b hb))
  have hlen : s.dfsBlocks.length = s.graph.getBasicBlocksCount := by
    rw [hI.covers.keeps.count, hg.count]
    exact ((List.perm_ext_iff_of_nodup hI.nodup hg.nodup).2 hmem).length_eq
  refine ⟨s, fun l => g.loopCount ≤ l ∧ l < s.graph.loopCount, ?_, hmem, hI.covers.keeps, fun b hb l hl => ?_, fun l hl => ⟨?_, ?_⟩,
    fun l hl u hu => ?_⟩
  · simp only [collectBackEdges, hg.firstBlock, hs, ASSERT_of hlen, Option.bind_eq_bind, Option.bind_some, Option.pure_def]
  · exact ⟨hr.range b hb l hl, (hI.headers b hb l hl).1⟩
  · exact hr.basicBlocks l hl.1 hl.2
  · simp [hr.innerLoops l hl.1 hl.2]
  · obtain ⟨h, -, hf⟩ := hr.backEdges l hl.1 hl.2 u hu
    rcases hf with ⟨d, hd, -⟩ | ⟨hu, -⟩
    · exact absurd hd List.not_mem_nil
    · exact (hmem u).1 hu

theorem populate_room (h : Room g' l) (hs : populate t g' b = some g'') : Room g'' l := by
  rw [populate] at hs
  split at hs
  · exact h.addBlock hs
  · split at hs
    · exact h.addLoop hs
    · exact Option.some.inj hs ▸ h

theorem populate_total (h : Room g' t) (b : Nat) : ∃ g'', populate t g' b = some g'' := by
  rw [populate]
  split
  · next hb => exact h.addBlock_total hb
  · split
    · next hk => exact h.addLoop_total hk.2
    · exact ⟨g', rfl⟩

/-- Coming to a block gives no block another loop, and no loop another back edge. -/
theorem populate_loops (hs : populate t g' b = some g'') :
    (∀ c, (g''.block c).loop = (g'.block c).loop ∨ (g''.block c).loop = some t) ∧
      ∀ l, (g''.loop l).backEdges = (g'.loop l).backEdges := by
  rw [populate] at hs
  split at hs
  · simp only [loopAddBasicBlock, Option.bind_eq_bind, ASSERT_bind, Option.pure_def, Option.some.injEq] at hs
    obtain ⟨-, rfl⟩ := hs
    refine ⟨fun c => ?_, fun l => by rw [addBasicBlock_loop]⟩
    by_cases hc : c = b <;> simp [hc]
  · split at hs
    · simp only [addInnerLoop, Option.bind_eq_bind, ASSERT_bind, Option.pure_def, Option.some.injEq] at hs
      obtain ⟨-, rfl⟩ := hs
      exact ⟨fun _ => .inl rfl, fun l => by rw [addInnerLoop_loop]⟩
    · exact Option.some.inj hs ▸ ⟨fun _ => .inl rfl, fun _ => rfl⟩

namespace Populating

/-- Blocks are given loops of the search only. -/
theorem congr (hp : Populating g L g') (ht : L t) (hroom : ∀ l, L l → Room g'' l)
    (hblock : ∀ b, (g''.block b).loop = (g'.block b).loop ∨ (g''.block b).loop = some t)
    (hback : ∀ l, (g''.loop l).backEdges = (g'.loop l).backEdges) : Populating g L g'' where
  range b hb l hl := by
    rcases hblock b with h | h
    · exact hp.range b hb l (h ▸ hl)
    · exact Option.some.inj (h.symm.trans hl) ▸ ht
  room := hroom
  backEdges l hl := hback l ▸ hp.backEdges l hl

theorem populate (hp : Populating g L g') (ht : L t) (hs : LoopAnalyzer.populate t g' b = some g'') : Populating g L g'' :=
  hp.congr ht (fun l hl => populate_room (hp.room l hl) hs) (populate_loops hs).1 (populate_loops hs).2

theorem populateFrom {s : Graph × (Nat → Bool)} (hg : g.WellConnected first) (ho : LoopsOnly g s.1) (hp : Populating g L s.1)
    (ht : L t) (ha : a ∈ g.blocks) : ∃ s', LoopAnalyzer.populateFrom t s a = some s' ∧ LoopsOnly g s'.1 ∧
      Populating g L s'.1 := by
  rw [LoopAnalyzer.populateFrom]
  split
  · exact ⟨s, rfl, ho, hp⟩
  · next hs =>
      have hunseen : (dfsPopulateLoops t).seen s a = false := Bool.eq_false_iff.2 hs
      have hU : ∀ x, Relation.ReflTransGen ((dfsPopulateLoops t).White (fun b => (g.block b).preds) s) a x → x ∈ g.blocks := by
        intro x hx
        induction hx with
        | refl => exact ha
        | tail _ hw ih => exact hg.pred_mem _ ih _ hw.1
      obtain ⟨s', hs', hp'⟩ := (dfsPopulateLoops_marks g t).visit_keeps (n := s.1.blockCount + 1) (U := g.blocks)
        (P := fun s => Populating g L s.1) ho hp hunseen hU (fun t' x _ hp _ => by
          obtain ⟨g'', hg''⟩ := populate_total (hp.room t ht) x
          exact ⟨(g'', Function.update t'.2 x true), by simp [dfsPopulateLoops, hg''], hp.populate ht hg''⟩)
        (fun _ _ _ => rfl) (fun _ _ _ => rfl) (fun _ _ _ => rfl) (fun _ _ => rfl)
        (by rw [ho.blockCount]; exact Nat.lt_succ_of_le hg.length_le)
      exact ⟨s', hs', ((dfsPopulateLoops_marks g t).visit ho hunseen hs').1, hp'⟩

theorem setLoopIfNone (hp : Populating g L g') (ht : L t) : Populating g L (LoopAnalyzer.setLoopIfNone t g' a) := by
  rw [LoopAnalyzer.setLoopIfNone]
  split
  · have hblock : ∀ b, (((g'.modifyBlock a fun x => { x with loop := some t }).block b).loop = (g'.block b).loop) ∨
        ((g'.modifyBlock a fun x => { x with loop := some t }).block b).loop = some t := fun b => by
      by_cases hb : b = a <;> simp [hb]
    refine hp.congr ht (fun l hl => ⟨fun b hb => ?_, (hp.room l hl).innerLoops⟩) hblock fun _ => rfl
    rcases hblock b with h | h
    · exact h ▸ (hp.room l hl).basicBlocks b hb
    · simp [h]
  · exact hp

theorem populateLoop (hg : g.WellConnected first) (ho : LoopsOnly g g') (hp : Populating g L g') (hb : b ∈ g.blocks) :
    ∃ g'', LoopAnalyzer.populateLoop g' b = some g'' ∧ LoopsOnly g g'' ∧ Populating g L g'' := by
  rw [LoopAnalyzer.populateLoop]
  split
  · exact ⟨g', rfl, ho, hp⟩
  · next t ht =>
      have hL := hp.range b hb t ht
      split
      · exact ⟨g', rfl, ho, hp⟩
      · next hhead =>
          split
          · refine ⟨_, rfl, ho.trans foldl_setLoopIfNone_extends.only, ?_⟩
            exact List.foldlRecOn _ _ hp fun _ hp _ _ => hp.setLoopIfNone hL
          · obtain ⟨s', hs', ho', hp'⟩ := foldlM_completes (P := fun _ s => LoopsOnly g s.1 ∧ Populating g L s.1)
              (f := LoopAnalyzer.populateFrom t) (l := (g'.loop t).backEdges)
              (s := (g', Function.update (fun _ => false) b true)) (fun done a rest s heq h =>
                h.2.populateFrom hg h.1 hL (hp.backEdges t hL a (by simp [heq]))) ⟨ho, hp⟩
            refine ⟨s'.1, ?_, ho', hp'⟩
            rw [populateReducibleLoop, not_not.1 hhead]
            simp [hs']

end Populating

theorem addToRoot_total (h : Room g l) (b : Nat) : ∃ g', addToRoot l g b = some g' ∧ Room g' l := by
  rw [addToRoot]
  split
  · next hb =>
      obtain ⟨g', hg'⟩ := h.addBlock_total hb
      exact ⟨g', hg', h.addBlock hg'⟩
  · split
    · next hk =>
        obtain ⟨g', hg'⟩ := h.addLoop_total hk
        exact ⟨g', hg', h.addLoop hg'⟩
    · exact ⟨g, rfl, h⟩

/-- The analysis of a graph without loops completes. -/
theorem analyze_total (hg : g.WellConnected first) (hsuccs : ∀ b ∈ g.blocks, (g.block b).succs.Nodup)
    (hnone : ∀ b ∈ g.blocks, (g.block b).loop = none) (hleads : ∀ b ∈ g.blocks, g.Leads first b) :
    ∃ g', analyze g = some g' := by
  obtain ⟨s, L, hs, hmem, ho, hp⟩ := collectBackEdges_total hg hsuccs hnone hleads
  obtain ⟨g₁, h₁, ho₁, hp₁⟩ := foldlM_completes (P := fun _ g' => LoopsOnly g g' ∧ Populating g L g')
    (f := populateLoop) (l := s.dfsBlocks) (s := s.graph) (fun done b rest g' heq h =>
      h.2.populateLoop hg h.1 ((hmem b).1 (by simp [heq]))) ⟨ho, hp⟩
  have hroot : Room (g₁.newLoop s.loops.length none false true).1 g₁.loopCount := by
    constructor <;> simp [Graph.newLoop]
  obtain ⟨g₂, h₂, -⟩ := foldlM_completes (P := fun _ g' => Room g' g₁.loopCount) (f := addToRoot g₁.loopCount)
    (l := s.dfsBlocks) (s := (g₁.newLoop s.loops.length none false true).1)
    (fun done b rest g' _ h => addToRoot_total h b) hroot
  refine ⟨{ g₂ with loopTreeRoot := some g₁.loopCount }, ?_⟩
  rw [Graph.newLoop] at h₂
  simp only [analyze, hs, h₁, buildLoopTree, Graph.newLoop, h₂, Option.bind_eq_bind, Option.bind_some, Option.pure_def]

end LoopAnalyzer

end CompilerLab.Jit
