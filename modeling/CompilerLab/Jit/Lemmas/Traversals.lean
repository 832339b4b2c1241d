import CompilerLab.Jit.Traversals

/-!
# What a traversal gives

`DFO` runs its callback once on each block that can be reached, and `RPO` lists the blocks of a connected graph.
-/

namespace CompilerLab.Jit.Graph

open CompilerLab.Lib

variable {g g' : Graph} {first b : Nat} {doSafe : Bool} {l : List Nat}

theorem mem_blocks_iff : b ∈ g.blocks ↔ ∃ i : Nat, g.bblocks[i]? = some (some b) := by
  rw [blocks, List.mem_filterMap]
  constructor
  · rintro ⟨a, ha, rfl⟩
    exact List.getElem?_of_mem ha
  · rintro ⟨i, hi⟩
    exact ⟨some b, List.mem_of_getElem? hi, rfl⟩

/-- The assertions on the edges hold in all blocks control flow leads to. -/
theorem WellConnected.mem_of_leads (h : g.WellConnected first) {b : Nat} (hb : g.Leads first b) : b ∈ g.blocks := by
  induction hb with
  | refl => exact h.first_mem
  | tail _ hc ih => exact h.succ_mem _ ih _ hc

/-- Each block but the first one comes after one of its predecessors. -/
theorem leads_of_lt {l : List Nat} (h : ∀ b ∈ l, b = first ∨ ∃ p ∈ l, p < b ∧ b ∈ (g.block p).succs) :
    ∀ b ∈ l, g.Leads first b := by
  intro b
  induction b using Nat.strong_induction_on with
  | _ b ih =>
      intro hb
      rcases h b hb with rfl | ⟨p, hp, hlt, hs⟩
      · exact .refl
      · exact (ih p hlt hp).tail hs

/-- What the blocks hold besides their edges does not matter. -/
theorem WellConnected.congr (h : g.WellConnected first) (hfirst : g'.firstBlock = g.firstBlock) (hb : g'.bblocks = g.bblocks)
    (hcount : g'.blockCount = g.blockCount) (hunlinked : g'.unlinkedInstructionsCounter = g.unlinkedInstructionsCounter)
    (hs : ∀ b, (g'.block b).succs = (g.block b).succs) (hp : ∀ b, (g'.block b).preds = (g.block b).preds) :
    g'.WellConnected first := by
  have hblocks : g'.blocks = g.blocks := by rw [Graph.blocks, hb, Graph.blocks]
  refine ⟨hfirst.trans h.firstBlock, hblocks ▸ h.first_mem, hblocks ▸ h.nodup, ?_, ?_, ?_, ?_, ?_⟩
  · rw [hblocks, ← h.count, getBasicBlocksCount, getBasicBlocksCount, hb, hunlinked]
  · rw [hblocks, hcount]
    exact h.lt
  · simp only [hblocks, hs]
    exact h.succ_mem
  · simp only [hblocks, hp]
    exact h.pred_mem
  · simp only [hblocks, hs, hp]
    exact h.edges

theorem WellConnected.isEmpty (h : g.WellConnected first) : g.isEmpty = false := by
  rw [Graph.isEmpty, h.count]
  exact beq_false_of_ne (List.length_pos_of_mem h.first_mem).ne'

theorem dfo_again {s s' : Traversal} {b c : Nat} (h : g.dfo.again s b c = some s') : s' = s := by
  simp only [dfo, Option.bind_eq_bind, ASSERT_bind, Option.pure_def, Option.some.injEq] at h
  exact h.2.symm

theorem dfo_marks (g : Graph) : g.dfo.Marks (fun b => (g.block b).succs) fun _ => True where
  next _ := rfl
  enter := by
    intro s a s' _ hs
    obtain rfl := Option.some.inj hs
    refine ⟨trivial, fun x => ?_⟩
    by_cases hx : x = a <;> simp [dfo, hx]
  again := by
    intro s a b s' _ hs
    obtain rfl := dfo_again hs
    exact ⟨trivial, fun _ => rfl⟩
  forth := by
    intro s a b s' _ hs
    obtain rfl := dfo_again hs
    exact ⟨trivial, fun _ => rfl⟩
  back := by
    intro s a b s' _ hs
    obtain rfl := Option.some.inj hs
    exact ⟨trivial, fun _ => rfl⟩
  leave := by
    intro s a s' _ _ hs
    obtain rfl := Option.some.inj hs
    exact ⟨trivial, fun _ => rfl⟩

/-- The blocks that have been left are those the callback has been run on. -/
structure Traversal.Counts (F : Dfs.Frames Nat) (s : Traversal) : Prop where
  mem : ∀ b, b ∈ s.result ↔ s.visited b = true ∧ b ∉ F.map Prod.fst
  nodup : s.result.Nodup
  count : s.visitedCounter = s.result.length + F.length

theorem dfo_counts (g : Graph) (first : Nat) : g.dfo.Rule (fun b => (g.block b).succs) (· = first)
    (fun _ _ => True)
    (fun F s => g.dfo.Covers (fun b => (g.block b).succs) (fun _ => True) {} first F s ∧ s.Counts F)
    (fun b F s => (g.dfo.Covers (fun b => (g.block b).succs) (fun _ => True) {} first F s ∧ g.dfo.seen s b = true) ∧
      s.Counts F) where
  next hI := (g.dfo_marks.rule _ _).next hI.1
  enter := by
    rintro F s a s' ⟨hI, hc⟩ ha hE hs he
    refine ⟨(g.dfo_marks.rule _ _).enter hI ha hE hs he, ?_⟩
    obtain rfl := Option.some.inj he
    have hv : s.visited a = false := hs
    refine ⟨fun b => ?_, hc.nodup, ?_⟩
    · by_cases hb : b = a
      · subst hb
        have hnew : b ∉ s.result := fun hm => by simpa [hv] using (hc.mem b).1 hm
        simp [hnew]
      · simp [hc.mem, hb]
    · simp only [hc.count, List.length_cons]
      omega
  again := by
    rintro F s a done b rest s' ⟨hI, hc⟩ hN hb hs
    refine ⟨(g.dfo_marks.rule _ _).again hI hN hb hs, ?_⟩
    obtain rfl := dfo_again hs
    exact ⟨hc.mem, hc.nodup, hc.count⟩
  forth := by
    rintro F s a done b rest s' ⟨hI, hc⟩ hN hb hs
    obtain ⟨hI', hb'⟩ := (g.dfo_marks.rule _ _).forth hI hN hb hs
    obtain rfl := dfo_again hs
    exact ⟨⟨hI', hc⟩, hb'⟩
  leave := by
    rintro F s a s' ⟨hI, hc⟩ hs
    refine ⟨(g.dfo_marks.rule _ _).leave hI hs, ?_⟩
    have ha : s.visited a = true := (List.forall_mem_cons.1 hI.frame).1.1
    have hF : a ∉ F.map Prod.fst := (List.nodup_cons.1 hI.nodup).1
    have hnew : a ∉ s.result := fun hm => ((hc.mem a).1 hm).2 List.mem_cons_self
    obtain rfl := Option.some.inj hs
    refine ⟨fun b => ?_, ?_, ?_⟩
    · rw [List.mem_append, List.mem_singleton, hc.mem, List.map_cons, List.mem_cons]
      by_cases hb : b = a
      · subst hb
        simp [ha, hF]
      · simp [hb]
    · exact List.nodup_append.2 ⟨hc.nodup, List.nodup_singleton a, fun x hx y hy => by
        rw [List.mem_singleton.1 hy]
        exact fun hxa => hnew (hxa ▸ hx)⟩
    · simp only [hc.count, List.length_append, List.length_cons, List.length_nil]
      omega
  back := by
    rintro F s a done b rest s' ⟨hI, hc⟩ hN hs
    refine ⟨(g.dfo_marks.rule _ _).back hI hN hs, ?_⟩
    obtain rfl := Option.some.inj hs
    exact ⟨hc.mem, hc.nodup, hc.count⟩

theorem dfo_white (g : Graph) : g.dfo.White (fun b => (g.block b).succs) {} = g.Edge := by
  funext u v
  exact propext ⟨fun hw => hw.1, fun he => ⟨he, rfl⟩⟩

theorem WellConnected.length_le (h : g.WellConnected first) : g.blocks.length ≤ g.blockCount := by
  have sub : g.blocks ⊆ List.range g.blockCount := fun b hb => List.mem_range.2 (h.lt b hb)
  simpa using (h.nodup.subperm sub).length_le

/-- What a traversal that completes has done at its end. -/
theorem dfo_visit_spec {n : Nat} {s : Traversal} (hs : g.dfo.visit n {} first = some s) :
    s.visitedCounter = s.result.length ∧ s.result.Nodup ∧ ∀ b, b ∈ s.result ↔ g.Leads first b := by
  have hcounts : Traversal.Counts [] {} := ⟨by simp, .nil, rfl⟩
  obtain ⟨-, hc⟩ := (g.dfo_counts first).visit ⟨.start trivial, hcounts⟩ rfl trivial rfl hs
  obtain ⟨-, hseen⟩ := g.dfo_marks.visit trivial rfl hs
  refine ⟨hc.count, hc.nodup, fun b => ?_⟩
  rw [dfo_white] at hseen
  rw [hc.mem]
  simpa [dfo] using hseen b

/-- The callback has been run on the blocks that can be reached. -/
theorem mem_traverse (hf : g.firstBlock = some first) (hne : g.isEmpty = false) (h : g.traverse doSafe = some l) (b : Nat) :
    b ∈ l ↔ g.Leads first b := by
  simp only [Graph.traverse, hne, hf, Bool.false_eq_true, if_false, Option.bind_eq_bind, Option.bind_some,
    Option.bind_eq_some_iff, Option.pure_def] at h
  obtain ⟨s, hs, h⟩ := h
  have hl : s.result = l := by
    cases doSafe with
    | true => simpa using (ASSERT_bind.1 h).2
    | false => simpa using h
  exact hl ▸ (dfo_visit_spec hs).2.2 b

/-- The traversal of a connected graph completes. -/
theorem WellConnected.dfo_visit (h : g.WellConnected first) : ∃ s, g.dfo.visit (g.blockCount + 1) {} first = some s := by
  have assert : ∀ (s : Traversal) (x y : Nat), True → x ∈ g.blocks → y ∈ (g.block x).succs →
      ∃ s', g.dfo.again s x y = some s' := by
    intro s x y _ hx hy
    have hpred : g.hasPredecessor y x = true := by
      simpa [hasPredecessor] using (h.edges x hx y (h.succ_mem x hx y hy)).1 hy
    exact ⟨s, by simp [dfo, ASSERT_of hpred]⟩
  exact g.dfo_marks.visit_total (s := {}) (U := g.blocks) trivial rfl
    (fun x hx => h.mem_of_leads (by rwa [dfo_white] at hx)) (fun _ _ _ _ => ⟨_, rfl⟩) assert assert
    (fun _ _ _ _ _ _ => ⟨_, rfl⟩) (fun _ _ _ _ => ⟨_, rfl⟩) (Nat.lt_succ_of_le h.length_le)

theorem WellConnected.traverse (h : g.WellConnected first) : ∃ l, g.traverse false = some l ∧ l.Nodup ∧
    ∀ b, b ∈ l ↔ g.Leads first b := by
  obtain ⟨s, hs⟩ := h.dfo_visit
  obtain ⟨-, hnodup, hmem⟩ := dfo_visit_spec hs
  exact ⟨s.result, by simp [Graph.traverse, h.isEmpty, h.firstBlock, hs], hnodup, hmem⟩

/-- `RPO` lists the blocks of a graph in which every block can be reached. -/
theorem WellConnected.doRPO (h : g.WellConnected first) (hr : ∀ b ∈ g.blocks, g.Leads first b) :
    ∃ l, g.doRPO = some l ∧ l.Nodup ∧ ∀ b, b ∈ l ↔ b ∈ g.blocks := by
  obtain ⟨s, hs⟩ := h.dfo_visit
  obtain ⟨hcount, hnodup, hmem⟩ := dfo_visit_spec hs
  have hmem' : ∀ b, b ∈ s.result ↔ b ∈ g.blocks := fun b => (hmem b).trans ⟨h.mem_of_leads, hr b⟩
  have hlen : s.result.length = g.getBasicBlocksCount := by
    rw [h.count]
    exact ((List.perm_ext_iff_of_nodup hnodup h.nodup).2 hmem').length_eq
  refine ⟨s.result.reverse, ?_, List.nodup_reverse.2 hnodup, fun b => ?_⟩
  · simp [Graph.doRPO, Graph.traverse, h.isEmpty, h.firstBlock, hs, ASSERT_of (hcount.trans hlen), ASSERT_of hlen]
  · rw [List.mem_reverse, hmem']

/-- The callback is run on the root last. -/
theorem dfo_visit_last {n : Nat} {s : Traversal} (hs : g.dfo.visit n {} first = some s) : s.result.getLast? = some first := by
  cases n with
  | zero => cases hs
  | succ n =>
      rw [Dfs.visit] at hs
      obtain ⟨s₁, -, hs⟩ := Option.bind_eq_some_iff.1 hs
      obtain ⟨s₂, -, hs⟩ := Option.bind_eq_some_iff.1 hs
      obtain rfl := Option.some.inj hs
      rw [List.getLast?_append, List.getLast?_singleton]
      rfl

/-- A reverse post order that is computed is one of all blocks, the first one at its head. -/
theorem WellConnected.doRPO_some (h : g.WellConnected first) (hs : g.doRPO = some l) :
    l.Nodup ∧ (∀ b, b ∈ l ↔ b ∈ g.blocks) ∧ l.head? = some first := by
  simp only [Graph.doRPO, Graph.traverse, h.isEmpty, h.firstBlock, Bool.false_eq_true, if_false, if_true, Option.bind_eq_bind,
    Option.bind_some, Option.bind_eq_some_iff, ASSERT_eq_some, exists_const, Option.pure_def, Option.some.injEq] at hs
  obtain ⟨result, ⟨s, hs, -, rfl⟩, hlen, rfl⟩ := hs
  obtain ⟨-, hnodup, hmem⟩ := dfo_visit_spec hs
  have hsub : s.result ⊆ g.blocks := fun b hb => h.mem_of_leads ((hmem b).1 hb)
  have hperm : s.result.Perm g.blocks := by
    refine (List.subperm_of_subset hnodup hsub).perm_of_length_le ?_
    rw [hlen, h.count]
  refine ⟨List.nodup_reverse.2 hnodup, fun b => ?_, ?_⟩
  · rw [List.mem_reverse, hperm.mem_iff]
  · rw [List.head?_reverse, dfo_visit_last hs]

end CompilerLab.Jit.Graph
