import CompilerLab.Jit.Lemmas.LoopHeaders

/-!
# Loops of earlier runs

An analysis leaves every loop the root of a tree or in another loop, whatever loops the blocks were in before.
-/

namespace CompilerLab.Jit

open CompilerLab.Lib

namespace Graph

variable {g g' : Graph} {b h k l t : Nat} {P P' : Nat → Prop}

/-- Every loop is the root of a tree, in another loop, or that of a block of `P`. -/
structure Nested (P : Nat → Prop) (g : Graph) : Prop where
  range : ∀ b l, (g.block b).loop = some l → l < g.loopCount
  bound : ∀ l, l < g.loopCount → ∀ o, (g.loop l).outerLoop = some o → o < g.loopCount
  placed : ∀ l, l < g.loopCount → (g.loop l).isRoot = true ∨ (g.loop l).outerLoop ≠ none ∨
    ∃ h, P h ∧ (g.block h).loop = some l

namespace Nested

theorem mono (hn : Nested P g) (hP : ∀ h, P h → P' h) : Nested P' g :=
  ⟨hn.range, hn.bound, fun l hl => (hn.placed l hl).imp_right (Or.imp_right fun ⟨h, hh, hb⟩ => ⟨h, hP h hh, hb⟩)⟩

theorem setLoop (hn : Nested P g) (ht : t < g.loopCount) (hb : (g.block b).loop = none) :
    Nested P (g.modifyBlock b fun x => { x with loop := some t }) where
  range c l hl := by
    by_cases hc : c = b
    · subst hc
      simp only [modifyBlock_block_self, Option.some.injEq] at hl
      exact hl ▸ ht
    · rw [modifyBlock_block_ne _ _ hc] at hl
      exact hn.range c l hl
  bound := hn.bound
  placed l hl := by
    refine (hn.placed l hl).imp_right (Or.imp_right fun ⟨h, hh, hhl⟩ => ⟨h, hh, ?_⟩)
    have hne : h ≠ b := by
      rintro rfl
      rw [hb] at hhl
      cases hhl
    rwa [modifyBlock_block_ne _ _ hne]

theorem modifyLoop {f : Loop → Loop} (hn : Nested P g) (hr : (f (g.loop k)).isRoot = (g.loop k).isRoot)
    (ho : (f (g.loop k)).outerLoop = (g.loop k).outerLoop ∨ ∃ o < g.loopCount, (f (g.loop k)).outerLoop = some o) :
    Nested P (g.modifyLoop k f) where
  range := hn.range
  bound l hl o hlo := by
    rw [modifyLoop_loop] at hlo
    split at hlo
    · next hlk =>
        subst hlk
        rcases ho with ho | ⟨o', ho', ho⟩
        · exact hn.bound l hl o (ho ▸ hlo)
        · exact Option.some.inj (ho.symm.trans hlo) ▸ ho'
    · exact hn.bound l hl o hlo
  placed l hl := by
    rw [modifyLoop_loop]
    split
    · next hlk =>
        subst hlk
        rw [hr]
        rcases ho with ho | ⟨o', -, ho⟩
        · rw [ho]
          exact hn.placed l hl
        · exact .inr (.inl (by simp [ho]))
    · exact hn.placed l hl

theorem loopAddBasicBlock (hn : Nested P g) (ht : t < g.loopCount) (hs : g.loopAddBasicBlock t b = some g') :
    Nested P g' := by
  simp only [Graph.loopAddBasicBlock, Option.bind_eq_bind, ASSERT_bind, Option.pure_def, Option.some.injEq] at hs
  obtain ⟨⟨hb, -⟩, rfl⟩ := hs
  exact (hn.setLoop ht hb).modifyLoop rfl (.inl rfl)

theorem addBackEdge (hn : Nested P g) (hs : g.addBackEdge t b = some g') : Nested P g' := by
  simp only [Graph.addBackEdge, Option.bind_eq_bind, ASSERT_bind, Option.pure_def, Option.some.injEq] at hs
  obtain ⟨-, rfl⟩ := hs
  exact hn.modifyLoop rfl (.inl rfl)

theorem addLoop (hn : Nested P g) (ht : t < g.loopCount) (hs : (g.setOuterLoop k t).addInnerLoop t k = some g') :
    Nested P g' := by
  simp only [addInnerLoop, Option.bind_eq_bind, ASSERT_bind, Option.pure_def, Option.some.injEq] at hs
  obtain ⟨-, rfl⟩ := hs
  have hset : Nested P (g.setOuterLoop k t) := hn.modifyLoop rfl (.inr ⟨t, ht, rfl⟩)
  exact hset.modifyLoop rfl (.inl rfl)

theorem newRoot {n : Nat} (hn : Nested P g) : Nested P (g.newLoop n none false true).1 where
  range b l hl := (hn.range b l hl).trans (Nat.lt_succ_self _)
  bound l hl o ho := by
    by_cases hne : l = g.loopCount
    · simp [Graph.newLoop, hne] at ho
    · have hlt : l < g.loopCount := Nat.lt_of_le_of_ne (Nat.le_of_lt_succ hl) hne
      exact (hn.bound l hlt o (by simpa [Graph.newLoop, hne] using ho)).trans (Nat.lt_succ_self _)
  placed l hl := by
    by_cases hne : l = g.loopCount
    · exact .inl (by simp [Graph.newLoop, hne])
    · have hlt : l < g.loopCount := Nat.lt_of_le_of_ne (Nat.le_of_lt_succ hl) hne
      simpa [Graph.newLoop, hne] using hn.placed l hlt

theorem newHeader {n : Nat} {i : Bool} (hn : Nested P g) (hh : P h)
    (hs : (g.newLoop n (some h) i false).1.loopAddBasicBlock g.loopCount h = some g') : Nested P g' := by
  simp only [Graph.loopAddBasicBlock, Option.bind_eq_bind, ASSERT_bind, Option.pure_def, Option.some.injEq] at hs
  obtain ⟨⟨hb, -⟩, rfl⟩ := hs
  have hold : ∀ k, k ≠ g.loopCount → (g.newLoop n (some h) i false).1.loop k = g.loop k := fun k hk =>
    Function.update_of_ne hk ..
  have hlt : ∀ {l}, l < g.loopCount + 1 → l ≠ g.loopCount → l < g.loopCount := fun hl hne =>
    Nat.lt_of_le_of_ne (Nat.le_of_lt_succ hl) hne
  refine ⟨fun b l hl => ?_, fun l hl o ho => ?_, fun l hl => ?_⟩
  · by_cases hbh : b = h
    · subst hbh
      simp only [modifyLoop_block, modifyBlock_block_self, Option.some.injEq] at hl
      exact hl ▸ Nat.lt_succ_self _
    · simp only [modifyLoop_block, modifyBlock_block_ne _ _ hbh] at hl
      exact (hn.range b l hl).trans (Nat.lt_succ_self _)
  · rw [addBasicBlock_loop] at ho
    by_cases hne : l = g.loopCount
    · simp [Graph.newLoop, hne] at ho
    · rw [hold l hne] at ho
      exact (hn.bound l (hlt hl hne) o ho).trans (Nat.lt_succ_self _)
  · rw [addBasicBlock_loop]
    by_cases hne : l = g.loopCount
    · exact .inr (.inr ⟨h, hh, by simp [hne]⟩)
    · rw [hold l hne]
      rcases hn.placed l (hlt hl hne) with hr | ho | ⟨h', hh', hl'⟩
      · exact .inl hr
      · exact .inr (.inl ho)
      · have hne' : h' ≠ h := by
          rintro rfl
          have hb' : (g.block h').loop = none := hb
          rw [hb'] at hl'
          cases hl'
        refine .inr (.inr ⟨h', hh', ?_⟩)
        rw [modifyLoop_block, modifyBlock_block_ne _ _ hne']
        exact hl'

theorem concat {done : List Nat} (hn : Nested (fun h => P h ∧ h ∉ done) g)
    (hb : ∀ l, (g.block b).loop = some l → (g.loop l).isRoot = true ∨ (g.loop l).outerLoop ≠ none) :
    Nested (fun h => P h ∧ h ∉ done ++ [b]) g := by
  refine ⟨hn.range, hn.bound, fun l hl => ?_⟩
  rcases hn.placed l hl with hr | ho | ⟨h, ⟨hP, hd⟩, hl⟩
  · exact .inl hr
  · exact .inr (.inl ho)
  · by_cases hhb : h = b
    · exact (hb l (hhb ▸ hl)).imp_right .inl
    · exact .inr (.inr ⟨h, ⟨hP, by simp [hd, hhb]⟩, hl⟩)

end Nested

end Graph

namespace LoopAnalyzer

open Graph

variable {g g' : Graph} {a b h l t : Nat} {P : Nat → Prop} {s s' : State} {F : Dfs.Frames Nat}

/-! ## The search -/

theorem addLoopInfo_nested (hn : Nested P s.graph) (hh : P h) (hs : addLoopInfo s h a = some s') : Nested P s'.graph := by
  rw [addLoopInfo] at hs
  split at hs
  · simp only [Option.bind_eq_bind, Option.bind_eq_some_iff, Option.pure_def, Option.some.injEq] at hs
    obtain ⟨g₁, h₁, g₂, h₂, rfl⟩ := hs
    exact (hn.newHeader hh h₁).addBackEdge h₂
  · simp only [Option.bind_eq_bind, Option.bind_eq_some_iff, Option.pure_def] at hs
    obtain ⟨g₁, h₁, hs⟩ := hs
    split at hs
    · obtain rfl := Option.some.inj hs
      dsimp only
      exact (hn.addBackEdge h₁).modifyLoop rfl (.inl rfl)
    · obtain rfl := Option.some.inj hs
      exact hn.addBackEdge h₁

/-- The blocks that have been seen are on the path of the search or have been left. -/
structure Collecting (g : Graph) (F : Dfs.Frames Nat) (s : State) : Prop where
  ext : Extends g s.graph
  seen : ∀ b, dfsBackEdgesSearch.seen s b = true → b ∈ F.map Prod.fst ∨ b ∈ s.dfsBlocks
  nested : Nested (fun b => dfsBackEdgesSearch.seen s b = true) s.graph

theorem dfsBackEdgesSearch_collecting (g : Graph) (first : Nat) : dfsBackEdgesSearch.Rule (fun b => (g.block b).succs)
    (· = first) (fun _ _ => True) (Collecting g) fun _ F s => Collecting g F s where
  next hI := hI.ext.only.succs
  enter := by
    intro F s a s' hI _ _ _ hs
    obtain rfl := Option.some.inj hs
    refine ⟨hI.ext, fun b hb => ?_, hI.nested.mono fun b hb => ?_⟩
    · by_cases hba : b = a
      · exact .inl (by simp [hba])
      · refine (hI.seen b ?_).imp_left (List.mem_cons_of_mem a)
        simpa [dfsBackEdgesSearch, hba] using hb
    · by_cases hba : b = a
      · simp [dfsBackEdgesSearch, hba]
      · simpa [dfsBackEdgesSearch, hba] using hb
  again := by
    intro F s a done b rest s' hI _ hb hs
    simp only [dfsBackEdgesSearch] at hs
    split at hs
    · obtain ⟨-, hgrey, hblack, hpost⟩ := addLoopInfo_frame hs
      have hseen : dfsBackEdgesSearch.seen s' = dfsBackEdgesSearch.seen s := by
        funext x
        simp only [dfsBackEdgesSearch, hgrey, hblack]
      refine ⟨hI.ext.trans (addLoopInfo_extends hs), ?_, ?_⟩
      · rw [hseen, hpost]
        exact hI.seen
      · rw [hseen]
        exact addLoopInfo_nested hI.nested hb hs
    · obtain rfl := Option.some.inj hs
      exact ⟨hI.ext, hI.seen, hI.nested⟩
  forth := by
    intro F s a done b rest s' hI _ hb hs
    obtain rfl := Option.some.inj hs
    exact ⟨hI, hb, trivial⟩
  leave := by
    intro F s a s' hI hs
    simp only [dfsBackEdgesSearch, Option.bind_eq_bind, ASSERT_bind, Option.pure_def, Option.some.injEq] at hs
    obtain ⟨-, rfl⟩ := hs
    refine ⟨hI.ext, fun b hb => ?_, hI.nested.mono fun b hb => ?_⟩
    · by_cases hba : b = a
      · exact .inr (by simp [hba])
      · refine (hI.seen b ?_).imp (fun hm => (List.mem_cons.1 hm).resolve_left hba) (List.mem_append_left _)
        simpa [dfsBackEdgesSearch, hba] using hb
    · by_cases hba : b = a
      · simp [dfsBackEdgesSearch, hba]
      · simpa [dfsBackEdgesSearch, hba] using hb
  back := by
    intro F s a done b rest s' hI _ hs
    obtain rfl := Option.some.inj hs
    exact ⟨hI.ext, hI.seen, hI.nested⟩

theorem collectBackEdges_nested (hn : Nested (fun _ => False) g) (hs : collectBackEdges g = some s) :
    Extends g s.graph ∧ Nested (· ∈ s.dfsBlocks) s.graph := by
  simp only [collectBackEdges, Option.bind_eq_bind, Option.bind_eq_some_iff, ASSERT_eq_some, exists_const, Option.pure_def] at hs
  obtain ⟨first, -, t, ht, -, hs⟩ := hs
  obtain rfl := Option.some.inj hs
  have hI := (dfsBackEdgesSearch_collecting g first).visit (F := [])
    ⟨.refl g, by simp [dfsBackEdgesSearch], hn.mono fun _ => False.elim⟩ rfl trivial rfl ht
  exact ⟨hI.ext, hI.nested.mono fun b hb => (hI.seen b hb).resolve_left List.not_mem_nil⟩

/-! ## The blocks of the loops -/

theorem populate_nested (hn : Nested P g) (ht : t < g.loopCount) (hs : populate t g b = some g') : Nested P g' := by
  rw [populate] at hs
  split at hs
  · exact hn.loopAddBasicBlock ht hs
  · split at hs
    · exact hn.addLoop ht hs
    · exact Option.some.inj hs ▸ hn

theorem populateFrom_nested {s s' : Graph × (Nat → Bool)} (hn : Nested P s.1) (ht : t < s.1.loopCount)
    (h : populateFrom t s a = some s') : Nested P s'.1 := by
  rw [populateFrom] at h
  split at h
  · exact Option.some.inj h ▸ hn
  · next hs =>
      have hm : (dfsPopulateLoops t).Marks (fun b => (s.1.block b).preds) fun s' => Extends s.1 s'.1 ∧ Nested P s'.1 :=
        dfsPopulateLoops_marks_of (Q := fun g' => Extends s.1 g' ∧ Nested P g') (fun h => h.1.only) fun h hs =>
          ⟨h.1.trans (populate_extends hs), populate_nested h.2 (ht.trans_le h.1.count) hs⟩
      exact (hm.visit ⟨.refl _, hn⟩ (Bool.eq_false_iff.2 hs) h).1.2

theorem foldl_setLoopIfNone_nested {sources : List Nat} (hn : Nested P g) (ht : t < g.loopCount) :
    Nested P (sources.foldl (setLoopIfNone t) g) := by
  induction sources generalizing g with
  | nil => exact hn
  | cons a sources ih =>
      rw [List.foldl_cons, setLoopIfNone]
      split
      · next hnone => exact ih (hn.setLoop ht hnone) ht
      · exact ih hn ht

theorem populateLoop_nested (hn : Nested P g) (h : populateLoop g b = some g') : Nested P g' := by
  rw [populateLoop] at h
  split at h
  · exact Option.some.inj h ▸ hn
  · next t htb =>
      have ht := hn.range b t htb
      split at h
      · exact Option.some.inj h ▸ hn
      · split at h
        · exact Option.some.inj h ▸ foldl_setLoopIfNone_nested hn ht
        · simp only [populateReducibleLoop, Option.bind_eq_bind, Option.bind_eq_some_iff, Option.pure_def,
            Option.some.injEq] at h
          obtain ⟨_, -, s, hs, rfl⟩ := h
          exact (foldlM_invariant (P := fun s => Extends g s.1 ∧ Nested P s.1) (fun s a s' _ hI h =>
            ⟨hI.1.trans (populateFrom_extends h), populateFrom_nested hI.2 (ht.trans_le hI.1.count) h⟩)
            ⟨.refl g, hn⟩ hs).2

/-! ## The loop tree -/

/-- After a block has been come to, its loop is in another one, or is the root. -/
theorem addToRoot_nested {done : List Nat} (hn : Nested (fun h => P h ∧ h ∉ done) g) (ht : t < g.loopCount)
    (hr : (g.loop t).isRoot = true) (hs : addToRoot t g b = some g') : Nested (fun h => P h ∧ h ∉ done ++ [b]) g' := by
  have hext := (addToRoot_extends hs).1
  rw [addToRoot] at hs
  split at hs
  · refine (hn.loopAddBasicBlock ht hs).concat fun l hl => ?_
    simp only [loopAddBasicBlock, Option.bind_eq_bind, ASSERT_bind, Option.pure_def, Option.some.injEq] at hs
    obtain ⟨-, rfl⟩ := hs
    simp only [modifyLoop_block, modifyBlock_block_self, Option.some.injEq] at hl
    subst hl
    exact .inl (by simp [hr])
  · next k hk =>
      have hkb : (g'.block b).loop = some k := hext.loop b k hk
      split at hs
      · refine (hn.addLoop ht hs).concat fun l hl => ?_
        obtain rfl := Option.some.inj (hkb.symm.trans hl)
        simp only [addInnerLoop, Option.bind_eq_bind, ASSERT_bind, Option.pure_def, Option.some.injEq] at hs
        obtain ⟨-, rfl⟩ := hs
        rw [addInnerLoop_loop]
        exact .inr (by simp)
      · next ho =>
          obtain rfl := Option.some.inj hs
          refine hn.concat fun l hl => ?_
          obtain rfl := Option.some.inj (hk.symm.trans hl)
          exact .inr ho

/-- The new tree, and the loops after the analysis. -/
theorem analyze_nested (hn : Nested (fun _ => False) g) (h : analyze g = some g') :
    Nested (fun _ => False) g' ∧ Extends g { g' with loopTreeRoot := g.loopTreeRoot } ∧
      ∃ r, g.loopCount ≤ r ∧ g'.loopTreeRoot = some r := by
  simp only [analyze, buildLoopTree, Option.bind_eq_bind, Option.bind_eq_some_iff, Option.pure_def, Option.some.injEq] at h
  obtain ⟨s, hs, g₁, h₁, g₂, h₂, rfl⟩ := h
  obtain ⟨hext, hn₀⟩ := collectBackEdges_nested hn hs
  obtain ⟨hext₁, hn₁⟩ := foldlM_invariant (P := fun g₁ => Extends g g₁ ∧ Nested (· ∈ s.dfsBlocks) g₁)
    (fun g₁ b g₂ _ hI h => ⟨hI.1.trans (populateLoop_extends h), populateLoop_nested hI.2 h⟩) ⟨hext, hn₀⟩ h₁
  have hnew : Extends g₁ (g₁.newLoop s.loops.length none false true).1 := .newLoop ..
  obtain ⟨hext₂, hn₂⟩ := foldlM_passed (P := fun done g₂ => Extends (g₁.newLoop s.loops.length none false true).1 g₂ ∧
      Nested (fun h => h ∈ s.dfsBlocks ∧ h ∉ done) g₂) (fun done b rest g₂ g₃ _ hI h => by
        have hroot : g₁.loopCount < (g₁.newLoop s.loops.length none false true).1.loopCount := Nat.lt_succ_self _
        refine ⟨hI.1.trans (addToRoot_extends h).1, addToRoot_nested hI.2 (hroot.trans_le hI.1.count) ?_ h⟩
        rw [hI.1.isRoot _ hroot]
        simp [Graph.newLoop]) ⟨.refl _, hn₁.newRoot.mono fun h hh => ⟨hh, List.not_mem_nil⟩⟩ h₂
  have hall := (hext₁.trans hnew).trans hext₂
  have hsame : { g₂ with loopTreeRoot := g.loopTreeRoot } = g₂ := by rw [hall.only.graph]
  refine ⟨⟨hn₂.range, hn₂.bound, fun l hl => ?_⟩, ?_, g₁.loopCount, hext₁.count, rfl⟩
  · refine (hn₂.placed l hl).imp_right (Or.imp_right ?_)
    rintro ⟨h, ⟨hh, hnot⟩, -⟩
    exact absurd hh hnot
  · rw [← hsame] at hall
    exact hall

end LoopAnalyzer

end CompilerLab.Jit
