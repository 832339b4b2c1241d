import CompilerLab.Jit.Lemmas.LoopSearch
import CompilerLab.Lib.Postorder

/-!
# What the loop analysis marks

Reducible or not, the blocks are left in a postorder, and an edge that leads back makes its target the header of a loop.
The loop is irreducible when the target does not dominate a source.
-/

namespace CompilerLab.Jit

open CompilerLab.Lib

namespace Graph

variable {g g' g'' : Graph} {b l p q : Nat}

/-! ## Loops that grow -/

/-- Blocks stay in their loops, and loops keep their headers and the loops they are in. -/
structure Extends (g g' : Graph) : Prop where
  only : LoopsOnly g g'
  loop : ∀ b l, (g.block b).loop = some l → (g'.block b).loop = some l
  count : g.loopCount ≤ g'.loopCount
  header : ∀ l, l < g.loopCount → (g'.loop l).header = (g.loop l).header
  irreducible : ∀ l, l < g.loopCount → (g.loop l).isIrreducible = true → (g'.loop l).isIrreducible = true
  isRoot : ∀ l, l < g.loopCount → (g'.loop l).isRoot = (g.loop l).isRoot
  outerLoop : ∀ l, l < g.loopCount → ∀ o, (g.loop l).outerLoop = some o → (g'.loop l).outerLoop = some o

namespace Extends

theorem refl (g : Graph) : Extends g g :=
  ⟨.refl g, fun _ _ => id, le_rfl, fun _ _ => rfl, fun _ _ => id, fun _ _ => rfl, fun _ _ _ => id⟩

theorem trans (h : Extends g g') (h' : Extends g' g'') : Extends g g'' where
  only := h.only.trans h'.only
  loop b l hb := h'.loop b l (h.loop b l hb)
  count := h.count.trans h'.count
  header l hl := (h'.header l (hl.trans_le h.count)).trans (h.header l hl)
  irreducible l hl hi := h'.irreducible l (hl.trans_le h.count) (h.irreducible l hl hi)
  isRoot l hl := (h'.isRoot l (hl.trans_le h.count)).trans (h.isRoot l hl)
  outerLoop l hl o ho := h'.outerLoop l (hl.trans_le h.count) o (h.outerLoop l hl o ho)

theorem modifyLoop {f : Loop → Loop} (hh : (f (g.loop l)).header = (g.loop l).header)
    (hi : (g.loop l).isIrreducible = true → (f (g.loop l)).isIrreducible = true)
    (hr : (f (g.loop l)).isRoot = (g.loop l).isRoot)
    (ho : ∀ o, (g.loop l).outerLoop = some o → (f (g.loop l)).outerLoop = some o) : Extends g (g.modifyLoop l f) := by
  refine ⟨.modifyLoop f, fun _ _ => id, le_rfl, fun k _ => ?_, fun k _ hk => ?_, fun k _ => ?_, fun k _ o hk => ?_⟩
  all_goals
    rw [modifyLoop_loop]
    split
  · next hkl => rw [hkl, hh]
  · rfl
  · next hkl => exact hi (hkl ▸ hk)
  · exact hk
  · next hkl => rw [hkl, hr]
  · rfl
  · next hkl => exact ho o (hkl ▸ hk)
  · exact hk

theorem setLoop (hb : (g.block b).loop = none) : Extends g (g.modifyBlock b fun x => { x with loop := some l }) where
  only := .setLoop _
  loop c k hc := by
    have hne : c ≠ b := by
      rintro rfl
      rw [hb] at hc
      cases hc
    rwa [modifyBlock_block_ne _ _ hne]
  count := le_rfl
  header _ _ := rfl
  irreducible _ _ := id
  isRoot _ _ := rfl
  outerLoop _ _ _ := id

theorem newLoop (id : Nat) (header : Option Nat) (isIrreducible isRoot : Bool) :
    Extends g (g.newLoop id header isIrreducible isRoot).1 where
  only := .newLoop ..
  loop _ _ h := h
  count := Nat.le_succ _
  header k hk := by simp [Graph.newLoop, hk.ne]
  irreducible k hk hi := by simpa [Graph.newLoop, hk.ne] using hi
  isRoot k hk := by simp [Graph.newLoop, hk.ne]
  outerLoop k hk o ho := by simpa [Graph.newLoop, hk.ne] using ho

theorem loopAddBasicBlock (h : g.loopAddBasicBlock l b = some g') : Extends g g' := by
  simp only [Graph.loopAddBasicBlock, Option.bind_eq_bind, ASSERT_bind, Option.pure_def, Option.some.injEq] at h
  obtain ⟨⟨hb, -⟩, rfl⟩ := h
  exact (setLoop hb).trans (modifyLoop rfl id rfl fun _ => id)

theorem addBackEdge (h : g.addBackEdge l b = some g') : Extends g g' := by
  simp only [Graph.addBackEdge, Option.bind_eq_bind, ASSERT_bind, Option.pure_def, Option.some.injEq] at h
  obtain ⟨-, rfl⟩ := h
  exact modifyLoop rfl id rfl fun _ => id

theorem addInnerLoop {inner : Nat} (h : g.addInnerLoop l inner = some g') : Extends g g' := by
  simp only [Graph.addInnerLoop, Option.bind_eq_bind, ASSERT_bind, Option.pure_def, Option.some.injEq] at h
  obtain ⟨-, rfl⟩ := h
  exact modifyLoop rfl id rfl fun _ => id

theorem setOuterLoop (hl : (g.loop l).outerLoop = none) (outer : Nat) : Extends g (g.setOuterLoop l outer) :=
  modifyLoop rfl id rfl fun o ho => by
    rw [hl] at ho
    cases ho

end Extends

/-- The edge from `p` has made `q` the header of a loop. -/
def Marked (g : Graph) (p q : Nat) : Prop :=
  ∃ l, (g.block q).loop = some l ∧ l < g.loopCount ∧ (g.loop l).header = some q ∧
    ((g.loop l).isIrreducible = true ∨ g.dominates q p = true)

theorem Marked.mono (h : g.Marked p q) (he : Extends g g') : g'.Marked p q := by
  obtain ⟨l, hl, hlt, hh, hi⟩ := h
  exact ⟨l, he.loop q l hl, hlt.trans_le he.count, (he.header l hlt).trans hh,
    hi.imp (he.irreducible l hlt) fun hd => (he.only.dominates q p).trans hd⟩

end Graph

namespace LoopAnalyzer

open Graph

variable {g g' : Graph} {first a b h l p q : Nat} {s s' : State} {F : Dfs.Frames Nat} {done : List Nat}

/-! ## The search -/

/-- A block that has a loop is its header. -/
def HeadersOnly (g g' : Graph) : Prop :=
  ∀ b ∈ g.blocks, ∀ l, (g'.block b).loop = some l → l < g'.loopCount ∧ (g'.loop l).header = some b

theorem HeadersOnly.modifyLoop {f : Loop → Loop} (ho : HeadersOnly g g') (hf : ∀ x, (f x).header = x.header) :
    HeadersOnly g (g'.modifyLoop l f) := by
  intro b hb k hk
  obtain ⟨hlt, hh⟩ := ho b hb k hk
  refine ⟨hlt, ?_⟩
  rw [modifyLoop_loop]
  split
  · next hkl => rw [hf, ← hkl, hh]
  · exact hh

theorem HeadersOnly.newLoop {id : Nat} {isIrreducible isRoot : Bool} (ho : HeadersOnly g g')
    (hadd : (g'.newLoop id (some h) isIrreducible isRoot).1.loopAddBasicBlock g'.loopCount h = some s.graph) :
    HeadersOnly g s.graph ∧ (s.graph.block h).loop = some g'.loopCount ∧ g'.loopCount < s.graph.loopCount ∧
      (s.graph.loop g'.loopCount).header = some h ∧ (s.graph.loop g'.loopCount).isIrreducible = isIrreducible := by
  simp only [loopAddBasicBlock, Option.bind_eq_bind, ASSERT_bind, Option.pure_def, Option.some.injEq] at hadd
  rw [← hadd.2]
  refine ⟨fun b hb k hk => ?_, ?_⟩
  · by_cases hbh : b = h
    · subst hbh
      simp only [modifyLoop_block, modifyBlock_block_self, Option.some.injEq] at hk
      subst hk
      simp [Graph.newLoop]
    · simp only [modifyLoop_block, modifyBlock_block_ne _ _ hbh] at hk
      obtain ⟨hlt, hh⟩ := ho b hb k hk
      simp [Graph.newLoop, hlt.ne, hh]
      omega
  · simp [Graph.newLoop]

theorem addLoopInfo_extends (hs : addLoopInfo s h a = some s') : Extends s.graph s'.graph := by
  rw [addLoopInfo] at hs
  split at hs
  · simp only [Option.bind_eq_bind, Option.bind_eq_some_iff, Option.pure_def, Option.some.injEq] at hs
    obtain ⟨g₁, h₁, g₂, h₂, rfl⟩ := hs
    exact (Extends.newLoop ..).trans ((Extends.loopAddBasicBlock h₁).trans (.addBackEdge h₂))
  · simp only [Option.bind_eq_bind, Option.bind_eq_some_iff, Option.pure_def] at hs
    obtain ⟨g₁, h₁, hs⟩ := hs
    split at hs
    · obtain rfl := Option.some.inj hs
      refine (Extends.addBackEdge h₁).trans ?_
      dsimp only
      exact .modifyLoop rfl (fun _ => rfl) rfl fun _ => id
    · obtain rfl := Option.some.inj hs
      exact .addBackEdge h₁

/-- An edge that leads back is marked. -/
theorem addLoopInfo_marks (ho : HeadersOnly g s.graph) (hh : h ∈ g.blocks) (hs : addLoopInfo s h a = some s') :
    Extends s.graph s'.graph ∧ HeadersOnly g s'.graph ∧ s'.graph.Marked a h := by
  rw [addLoopInfo] at hs
  split at hs
  · simp only [Option.bind_eq_bind, Option.bind_eq_some_iff, Option.pure_def, Option.some.injEq] at hs
    obtain ⟨g₁, h₁, g₂, h₂, rfl⟩ := hs
    have hext := (Extends.newLoop (g := s.graph) s.loops.length (some h) (isLoopIrreducible s.graph h a) false).trans
      (.loopAddBasicBlock h₁)
    obtain ⟨ho₁, hl, hlt, hhead, hirr⟩ := ho.newLoop (s := { s with graph := g₁ }) h₁
    have hmark : g₁.Marked a h := by
      refine ⟨_, hl, hlt, hhead, ?_⟩
      rw [hirr, isLoopIrreducible, hext.only.dominates]
      cases s.graph.dominates h a with
      | true => exact .inr rfl
      | false => exact .inl rfl
    refine ⟨hext.trans (.addBackEdge h₂), ?_, hmark.mono (.addBackEdge h₂)⟩
    simp only [addBackEdge, Option.bind_eq_bind, ASSERT_bind, Option.pure_def, Option.some.injEq] at h₂
    rw [← h₂.2]
    exact ho₁.modifyLoop fun _ => rfl
  · next l hl =>
      simp only [Option.bind_eq_bind, Option.bind_eq_some_iff, Option.pure_def] at hs
      obtain ⟨g₁, h₁, hs⟩ := hs
      obtain ⟨hlt, hhead⟩ := ho h hh l hl
      have hext : Extends s.graph g₁ := .addBackEdge h₁
      have ho₁ : HeadersOnly g g₁ := by
        simp only [addBackEdge, Option.bind_eq_bind, ASSERT_bind, Option.pure_def, Option.some.injEq] at h₁
        rw [← h₁.2]
        exact ho.modifyLoop fun _ => rfl
      split at hs
      · obtain rfl := Option.some.inj hs
        have hirr : Extends g₁ (g₁.modifyLoop l fun x => { x with isIrreducible := true }) :=
          .modifyLoop rfl (fun _ => rfl) rfl fun _ => id
        have hext' := hext.trans hirr
        refine ⟨hext', ho₁.modifyLoop fun _ => rfl, l, hext'.loop h l hl, hlt.trans_le hext'.count,
          (hext'.header l hlt).trans hhead, .inl ?_⟩
        simp
      · next hdom =>
          obtain rfl := Option.some.inj hs
          refine ⟨hext, ho₁, l, hext.loop h l hl, hlt.trans_le hext.count, (hext.header l hlt).trans hhead, .inr ?_⟩
          simpa [isLoopIrreducible] using hdom

/-- What holds between the actions of the search of any graph: every block was found from one that is left later, and the
edges that lead back are marked. -/
structure Marking (g : Graph) (first : Nat) (F : Dfs.Frames Nat) (s : State) : Prop where
  covers : dfsBackEdgesSearch.Covers (fun b => (g.block b).succs) (fun s => LoopsOnly g s.graph) { graph := g } first F s
  grey : ∀ b, s.grey b = true ↔ b ∈ F.map Prod.fst
  black : ∀ b, s.black b = true ↔ b ∈ s.dfsBlocks
  nodup : s.dfsBlocks.Nodup
  left : ∀ b ∈ s.dfsBlocks, b ∉ F.map Prod.fst
  path : ∀ F₁ b F₂, F.map Prod.fst = F₁ ++ b :: F₂ → b ≠ first → ∃ p ∈ F₂, g.Edge p b
  found : ∀ l₁ b l₂, s.dfsBlocks = l₁ ++ b :: l₂ → b ≠ first → ∃ p, (p ∈ l₂ ∨ p ∈ F.map Prod.fst) ∧ g.Edge p b
  headers : HeadersOnly g s.graph
  marked : ∀ p q, Followed g F s.dfsBlocks p q → q ∈ F.map Prod.fst → s.graph.Marked p q
  back : ∀ l₁ b l₂, s.dfsBlocks = l₁ ++ b :: l₂ → ∀ p ∈ l₁ ++ [b], g.Edge p b → s.graph.Marked p b

namespace Marking

theorem mem_blocks (hg : g.WellConnected first) (hI : Marking g first F s) (hb : dfsBackEdgesSearch.seen s b = true) :
    b ∈ g.blocks := by
  have hwhite := (hI.covers.white b hb).resolve_left (by simp [dfsBackEdgesSearch])
  exact hg.mem_of_leads (hwhite.lift id fun _ _ hw => hw.1)

theorem seen_of_left (hI : Marking g first F s) (hb : b ∈ s.dfsBlocks) : dfsBackEdgesSearch.seen s b = true := by
  simp [dfsBackEdgesSearch, (hI.black b).2 hb]

/-- An edge that has been followed leads to a block that has been seen. -/
theorem seen_of_followed (hI : Marking g first F s) (hf : Followed g F s.dfsBlocks p q) :
    dfsBackEdgesSearch.seen s q = true := by
  rcases hf with ⟨done, hp, hq⟩ | ⟨hp, hq⟩
  · exact (hI.covers.frame _ hp).2.2 q hq
  · rcases hI.covers.closed p (hI.seen_of_left hp) (by simp [dfsBackEdgesSearch]) with hF | hall
    · exact absurd hF (hI.left p hp)
    · exact hall q hq

/-- One more edge has been followed; it is marked when it leads to a block on the path. -/
theorem push (hI : Marking g first ((a, done) :: F) s)
    (hc : dfsBackEdgesSearch.Covers (fun b => (g.block b).succs) (fun s => LoopsOnly g s.graph) { graph := g } first
      ((a, done ++ [b]) :: F) s') (hgrey : s'.grey = s.grey) (hblack : s'.black = s.black)
    (hpost : s'.dfsBlocks = s.dfsBlocks) (hext : Extends s.graph s'.graph) (hheaders : HeadersOnly g s'.graph)
    (hmark : b ∈ ((a, done) :: F).map Prod.fst → s'.graph.Marked a b) : Marking g first ((a, done ++ [b]) :: F) s' where
  covers := hc
  grey := by
    rw [hgrey]
    exact hI.grey
  black := by
    rw [hblack, hpost]
    exact hI.black
  nodup := hpost ▸ hI.nodup
  left := hpost ▸ hI.left
  path := hI.path
  found := hpost ▸ hI.found
  headers := hheaders
  marked p q hf hq := by
    rw [hpost, followed_push] at hf
    rcases hf with hf | ⟨rfl, rfl⟩
    · exact (hI.marked p q hf hq).mono hext
    · exact hmark hq
  back l₁ c l₂ heq p hp he := (hI.back l₁ c l₂ (hpost ▸ heq) p hp he).mono hext

theorem again {rest : List Nat} (hg : g.WellConnected first) (hI : Marking g first ((a, done) :: F) s)
    (hN : (g.block a).succs = done ++ b :: rest) (hb : dfsBackEdgesSearch.seen s b = true)
    (hs : dfsBackEdgesSearch.again s a b = some s') : Marking g first ((a, done ++ [b]) :: F) s' := by
  have hcovers := ((dfsBackEdgesSearch_marks g).rule _ _).again hI.covers hN hb hs
  simp only [dfsBackEdgesSearch] at hs
  split at hs
  · obtain ⟨-, hgrey, hblack, hpost⟩ := addLoopInfo_frame hs
    obtain ⟨hext, hheaders, hmark⟩ := addLoopInfo_marks hI.headers (hI.mem_blocks hg hb) hs
    exact hI.push hcovers hgrey hblack hpost hext hheaders fun _ => hmark
  · next hgrey =>
      obtain rfl := Option.some.inj hs
      exact hI.push hcovers rfl rfl rfl (.refl _) hI.headers fun hm => absurd ((hI.grey b).2 hm) hgrey

theorem enter (hI : Marking g first F s) (ha : Dfs.Reached (fun b => (g.block b).succs) (· = first) F a)
    (hs : dfsBackEdgesSearch.seen s a = false) (he : dfsBackEdgesSearch.enter s a = some s') :
    Marking g first ((a, []) :: F) s' := by
  have hcovers := ((dfsBackEdgesSearch_marks g).rule _ _).enter hI.covers ha trivial hs he
  obtain rfl := Option.some.inj he
  have hunseen : s.grey a = false ∧ s.black a = false := by simpa [dfsBackEdgesSearch] using hs
  have hblack : a ∉ s.dfsBlocks := fun hm => by simpa [hunseen.2] using (hI.black a).2 hm
  refine ⟨hcovers, fun b => ?_, hI.black, hI.nodup, fun b hb hm => ?_, fun F₁ b F₂ heq hb => ?_, fun l₁ b l₂ heq hb => ?_,
    hI.headers, fun p q hf hq => ?_, hI.back⟩
  · by_cases hb : b = a <;> simp [hb, hI.grey]
  · rcases List.mem_cons.1 hm with rfl | hm
    · exact hblack hb
    · exact hI.left b hb hm
  · cases F₁ with
    | nil =>
        obtain ⟨rfl, rfl⟩ := List.cons.inj heq
        cases F with
        | nil => exact absurd ha hb
        | cons f F =>
            obtain ⟨rest, hN⟩ := ha
            have hN' : (g.block f.1).succs = f.2 ++ a :: rest := hN
            exact ⟨f.1, List.mem_cons_self, by simp [Edge, hN']⟩
    | cons _ F₁ => exact hI.path F₁ b F₂ (List.cons.inj heq).2 hb
  · obtain ⟨p, hp, hpb⟩ := hI.found l₁ b l₂ heq hb
    exact ⟨p, hp.imp_right (List.mem_cons_of_mem a), hpb⟩
  · rw [followed_enter] at hf
    rcases List.mem_cons.1 hq with rfl | hq
    · exact absurd (hs.symm.trans (hI.seen_of_followed hf)) Bool.false_ne_true
    · exact hI.marked p q hf hq

theorem leave (hI : Marking g first ((a, (g.block a).succs) :: F) s) (hs : dfsBackEdgesSearch.leave s a = some s') :
    Marking g first F s' ∧ a ∈ s'.dfsBlocks := by
  obtain ⟨hcovers, -⟩ := ((dfsBackEdgesSearch_marks g).rule _ _).leave hI.covers hs
  simp only [dfsBackEdgesSearch, Option.bind_eq_bind, ASSERT_bind, Option.pure_def, Option.some.injEq] at hs
  obtain ⟨-, rfl⟩ := hs
  have hF : a ∉ F.map Prod.fst := (List.nodup_cons.1 hI.covers.nodup).1
  have hblack : a ∉ s.dfsBlocks := fun hm => hI.left a hm List.mem_cons_self
  refine ⟨⟨hcovers, fun b => ?_, fun b => ?_, ?_, fun b hb => ?_, fun F₁ b F₂ heq hb => ?_, fun l₁ b l₂ heq hb => ?_,
    hI.headers, fun p q hf hq => ?_, fun l₁ b l₂ heq p hp he => ?_⟩, by simp⟩
  · by_cases hb : b = a
    · simp [hb, hF]
    · simp [hb, hI.grey]
  · by_cases hb : b = a
    · simp [hb]
    · simp [hb, hI.black]
  · exact List.nodup_append.2 ⟨hI.nodup, List.nodup_singleton a, fun x hx y hy hxy =>
      hblack (List.mem_singleton.1 hy ▸ hxy ▸ hx)⟩
  · rcases List.mem_append.1 hb with hb | hb
    · exact fun hm => hI.left b hb (List.mem_cons_of_mem a hm)
    · rwa [List.mem_singleton.1 hb]
  · exact hI.path (a :: F₁) b F₂ (by simp [heq]) hb
  · rcases concat_eq_append_cons.1 heq with ⟨rfl, rfl, rfl⟩ | ⟨l', rfl, hl⟩
    · -- the block that is left now was found from the one below it on the path
      obtain ⟨p, hp, hpb⟩ := hI.path [] b (F.map Prod.fst) rfl hb
      exact ⟨p, .inr hp, hpb⟩
    · obtain ⟨p, hp, hpb⟩ := hI.found l₁ b l' hl hb
      refine ⟨p, ?_, hpb⟩
      rcases hp with hp | hp
      · exact .inl (List.mem_append_left _ hp)
      · exact (List.mem_cons.1 hp).imp (fun hpa => by simp [hpa]) id
  · exact hI.marked p q (followed_leave.1 hf) (List.mem_cons_of_mem a hq)
  · rcases concat_eq_append_cons.1 heq with ⟨rfl, rfl, rfl⟩ | ⟨l', rfl, hl⟩
    · -- its sources have been left, or it is its own, so the edges to it have been followed with it on the path
      refine hI.marked p b ?_ List.mem_cons_self
      rcases List.mem_append.1 hp with hp | hp
      · exact .inr ⟨hp, he⟩
      · obtain rfl := List.mem_singleton.1 hp
        exact .inl ⟨_, List.mem_cons_self, he⟩
    · exact hI.back l₁ b l' hl p hp he

theorem start (hnone : ∀ b ∈ g.blocks, (g.block b).loop = none) : Marking g first [] { graph := g } := by
  refine ⟨.start (.refl g), by simp, by simp, .nil, List.forall_mem_nil _, by simp, by simp, fun b hb l hl => ?_, ?_, by simp⟩
  · rw [hnone b hb] at hl
    cases hl
  · simp [Followed]

end Marking

theorem dfsBackEdgesSearch_marking (hg : g.WellConnected first) : dfsBackEdgesSearch.Rule (fun b => (g.block b).succs)
    (· = first) (fun _ _ => True) (Marking g first) fun b F s => Marking g first F s ∧ b ∈ s.dfsBlocks where
  next hI := hI.covers.keeps.succs
  enter hI ha _ hs he := hI.enter ha hs he
  again hI hN hb hs := hI.again hg hN hb hs
  forth := by
    intro F s a done b rest s' hI _ hb hs
    obtain rfl := Option.some.inj hs
    exact ⟨hI, hb, trivial⟩
  leave hI hs := hI.leave hs
  back := by
    rintro F s a done b rest s' ⟨hI, hb⟩ hN hs
    have hcovers := ((dfsBackEdgesSearch_marks g).rule _ _).back ⟨hI.covers, hI.seen_of_left hb⟩ hN hs
    obtain rfl := Option.some.inj hs
    exact hI.push hcovers rfl rfl rfl (.refl _) hI.headers fun hm => absurd hm (hI.left b hb)

/-- The blocks in the order in which the search has left them. -/
theorem collectBackEdges_marks (hg : g.WellConnected first) (hnone : ∀ b ∈ g.blocks, (g.block b).loop = none)
    (hs : collectBackEdges g = some s) : LoopsOnly g s.graph ∧ (∀ b, b ∈ s.dfsBlocks ↔ b ∈ g.blocks) ∧
      Postorder g.Edge s.graph.Marked first s.dfsBlocks := by
  simp only [collectBackEdges, hg.firstBlock, Option.bind_eq_bind, Option.bind_some, Option.bind_eq_some_iff, ASSERT_eq_some,
    exists_const, Option.pure_def] at hs
  obtain ⟨t, ht, hlen, hs⟩ := hs
  obtain rfl := Option.some.inj hs
  obtain ⟨hI, -⟩ := (dfsBackEdgesSearch_marking hg).visit (.start hnone) rfl trivial rfl ht
  have hsub : t.dfsBlocks ⊆ g.blocks := fun b hb => hI.mem_blocks hg (hI.seen_of_left hb)
  rw [hI.covers.keeps.count, hg.count] at hlen
  have hperm := (hI.nodup.subperm hsub).perm_of_length_le hlen.ge
  refine ⟨hI.covers.keeps, fun b => hperm.mem_iff, ⟨fun l₁ b l₂ heq hb => ?_, hI.back⟩⟩
  obtain ⟨p, hp, hpb⟩ := hI.found l₁ b l₂ heq hb
  exact ⟨p, hp.resolve_right List.not_mem_nil, hpb⟩

/-! ## The loop tree -/

theorem populate_extends (h : populate l g b = some g') : Extends g g' := by
  rw [populate] at h
  split at h
  · exact .loopAddBasicBlock h
  · split at h
    · next hk => exact (Extends.setOuterLoop hk.2 l).trans (.addInnerLoop h)
    · exact Option.some.inj h ▸ .refl g

theorem dfsPopulateLoops_extends (g : Graph) (l : Nat) :
    (dfsPopulateLoops l).Marks (fun b => (g.block b).preds) fun s => Extends g s.1 :=
  dfsPopulateLoops_marks_of (·.only) fun h hs => h.trans (populate_extends hs)

theorem populateFrom_extends {s s' : Graph × (Nat → Bool)} (h : populateFrom l s a = some s') : Extends s.1 s'.1 := by
  rw [populateFrom] at h
  split at h
  · exact Option.some.inj h ▸ .refl _
  · next hs => exact ((dfsPopulateLoops_extends s.1 l).visit (.refl _) (Bool.eq_false_iff.2 hs) h).1

theorem setLoopIfNone_extends : Extends g (setLoopIfNone l g a) := by
  rw [setLoopIfNone]
  split
  · next hnone => exact .setLoop hnone
  · exact .refl g

theorem foldl_setLoopIfNone_extends {sources : List Nat} : Extends g (sources.foldl (setLoopIfNone l) g) := by
  induction sources generalizing g with
  | nil => exact .refl g
  | cons a sources ih => exact setLoopIfNone_extends.trans ih

theorem populateLoop_extends (h : populateLoop g b = some g') : Extends g g' := by
  rw [populateLoop] at h
  split at h
  · exact Option.some.inj h ▸ .refl g
  · split at h
    · exact Option.some.inj h ▸ .refl g
    · split at h
      · exact Option.some.inj h ▸ foldl_setLoopIfNone_extends
      · simp only [populateReducibleLoop, Option.bind_eq_bind, Option.bind_eq_some_iff, Option.pure_def,
          Option.some.injEq] at h
        obtain ⟨_, -, s, hs, rfl⟩ := h
        exact foldlM_rel (R := fun s s' : Graph × (Nat → Bool) => Extends s.1 s'.1) (fun _ => .refl _) (fun h h' => h.trans h')
          (fun _ _ _ _ => populateFrom_extends) hs

theorem addToRoot_extends (h : addToRoot l g b = some g') : Extends g g' ∧ (g'.block b).loop ≠ none := by
  rw [addToRoot] at h
  split at h
  · refine ⟨.loopAddBasicBlock h, ?_⟩
    simp only [loopAddBasicBlock, Option.bind_eq_bind, ASSERT_bind, Option.pure_def, Option.some.injEq] at h
    rw [← h.2]
    simp
  · next k hk =>
      have hext : Extends g g' := by
        split at h
        · next hk => exact (Extends.setOuterLoop hk l).trans (.addInnerLoop h)
        · exact Option.some.inj h ▸ .refl g
      exact ⟨hext, by simp [hext.loop b k hk]⟩

/-- What the analysis leaves of any graph: each block is in a loop, and the edges that lead back are marked. -/
structure Analyzed (g : Graph) (first : Nat) (order : List Nat) (g' : Graph) : Prop where
  only : LoopsOnly g { g' with loopTreeRoot := g.loopTreeRoot }
  mem : ∀ b, b ∈ order ↔ b ∈ g.blocks
  loop : ∀ b ∈ order, (g'.block b).loop ≠ none
  postorder : Postorder g.Edge g'.Marked first order

theorem analyze_analyzed (hg : g.WellConnected first) (hnone : ∀ b ∈ g.blocks, (g.block b).loop = none)
    (h : analyze g = some g') : ∃ order, Analyzed g first order g' := by
  simp only [analyze, buildLoopTree, Option.bind_eq_bind, Option.bind_eq_some_iff, Option.pure_def, Option.some.injEq] at h
  obtain ⟨s, hs, g₁, h₁, g₂, h₂, rfl⟩ := h
  obtain ⟨honly, hmem, hpost⟩ := collectBackEdges_marks hg hnone hs
  have hpop : Extends s.graph g₁ := foldlM_rel .refl .trans (fun _ _ _ _ => populateLoop_extends) h₁
  obtain ⟨hroot, hloop⟩ := foldlM_passed
    (P := fun done g => Extends (g₁.newLoop s.loops.length none false true).1 g ∧ ∀ b ∈ done, (g.block b).loop ≠ none)
    (fun done b rest t t' _ ht hstep => by
      obtain ⟨hext, hb⟩ := addToRoot_extends hstep
      refine ⟨ht.1.trans hext, fun c hc => ?_⟩
      rcases List.mem_append.1 hc with hc | hc
      · obtain ⟨k, hk⟩ := Option.ne_none_iff_exists'.1 (ht.2 c hc)
        simp [hext.loop c k hk]
      · rwa [List.mem_singleton.1 hc]) ⟨.refl _, List.forall_mem_nil _⟩ h₂
  have hext := (hpop.trans (.newLoop ..)).trans hroot
  have honly₂ := honly.trans hext.only
  refine ⟨s.dfsBlocks, ⟨?_, honly₂.block⟩, hmem, hloop, hpost.mono fun p q hm => ?_⟩
  · rw [honly₂.graph]
  · obtain ⟨l, hl, hlt, hh, hi⟩ := hm.mono hext
    refine ⟨l, hl, hlt, hh, ?_⟩
    rcases hi with hi | hd
    · exact .inl hi
    · exact .inr (dominates_mono (g := g₂) (fun _ => rfl) le_rfl hd)

end LoopAnalyzer

end CompilerLab.Jit
