import CompilerLab.Jit.Lemmas.DomTree
import CompilerLab.Jit.LoopAnalyzer
import CompilerLab.Lib.NaturalLoop

/-!
# The search for back edges

In a reducible graph the edges to grey blocks are the edges to dominators of their sources, and a block is left before the
blocks that dominate it.
-/

namespace CompilerLab.Jit

open CompilerLab.Lib

namespace Graph

variable {g g' g'' : Graph} {first b l : Nat}

/-! ## Changes of loops -/

/-- The graphs differ in their loops. -/
structure LoopsOnly (g g' : Graph) : Prop where
  graph : g' = { g with block := g'.block, loop := g'.loop, loopCount := g'.loopCount }
  block : ∀ b, g'.block b = { g.block b with loop := (g'.block b).loop }

namespace LoopsOnly

theorem refl (g : Graph) : LoopsOnly g g := ⟨rfl, fun _ => rfl⟩

theorem trans (h : LoopsOnly g g') (h' : LoopsOnly g' g'') : LoopsOnly g g'' where
  graph := by rw [h'.graph, h.graph]
  block b := by rw [h'.block, h.block]

theorem modifyLoop (f : Loop → Loop) : LoopsOnly g (g.modifyLoop l f) := ⟨rfl, fun _ => rfl⟩

theorem newLoop (id : Nat) (header : Option Nat) (isIrreducible isRoot : Bool) :
    LoopsOnly g (g.newLoop id header isIrreducible isRoot).1 := ⟨rfl, fun _ => rfl⟩

theorem setLoop (o : Option Nat) : LoopsOnly g (g.modifyBlock b fun x => { x with loop := o }) where
  graph := rfl
  block c := by
    rw [modifyBlock_block]
    split
    · next hcb => rw [hcb]
    · rfl

theorem loopAddBasicBlock (h : g.loopAddBasicBlock l b = some g') : LoopsOnly g g' := by
  simp only [Graph.loopAddBasicBlock, Option.bind_eq_bind, ASSERT_bind, Option.pure_def, Option.some.injEq] at h
  rw [← h.2]
  exact (setLoop _).trans (modifyLoop _)

theorem addBackEdge (h : g.addBackEdge l b = some g') : LoopsOnly g g' := by
  simp only [Graph.addBackEdge, Option.bind_eq_bind, ASSERT_bind, Option.pure_def, Option.some.injEq] at h
  rw [← h.2]
  exact modifyLoop _

theorem succs (h : LoopsOnly g g') : (g'.block b).succs = (g.block b).succs := by rw [h.block]

theorem preds (h : LoopsOnly g g') : (g'.block b).preds = (g.block b).preds := by rw [h.block]

theorem blocks (h : LoopsOnly g g') : g'.blocks = g.blocks := by
  rw [h.graph]
  rfl

theorem count (h : LoopsOnly g g') : g'.getBasicBlocksCount = g.getBasicBlocksCount := by
  rw [h.graph]
  rfl

theorem blockCount (h : LoopsOnly g g') : g'.blockCount = g.blockCount := by rw [h.graph]

theorem dominates (h : LoopsOnly g g') (b c : Nat) : g'.dominates b c = g.dominates b c :=
  dominates_congr (fun c => by rw [h.block]) h.blockCount

end LoopsOnly

end Graph

namespace LoopAnalyzer

open Graph

variable {g : Graph} {first a h : Nat} {s s' : State} {S : Nat → Nat → Prop}

/-! ## Recording a back edge -/

/-- The loop object of a header has recorded the edges from `sources`, and nothing else is known of it. -/
structure OwnLoop (g g' : Graph) (h : Nat) (sources : List Nat) (l : Nat) : Prop where
  ge : g.loopCount ≤ l
  lt : l < g'.loopCount
  block : (g'.block h).loop = some l
  loop : g'.loop l =
    { id := l - g.loopCount, header := some h, backEdges := sources, basicBlocks := [h], isIrreducible := false }

/-- The edges of `S` are recorded in the loops of their targets. -/
structure Found (g : Graph) (S : Nat → Nat → Prop) (s : State) : Prop where
  only : LoopsOnly g s.graph
  loops : s.loops.length + g.loopCount = s.graph.loopCount
  without : ∀ h, (∀ u, ¬ S u h) → (s.graph.block h).loop = (g.block h).loop
  recorded : ∀ h, (∃ u, S u h) → ∃ l sources, OwnLoop g s.graph h sources l ∧ sources.Nodup ∧ ∀ v, v ∈ sources ↔ S v h

theorem Found.congr {S' : Nat → Nat → Prop} (hf : Found g S s) (hs : ∀ u h, S' u h ↔ S u h) : Found g S' s := by
  obtain rfl : S' = S := by
    funext u h
    exact propext (hs u h)
  exact hf

/-- The stored dominators tell a back edge. -/
theorem isLoopIrreducible_eq {g' : Graph} (hwc : g.WellConnected first) (ht : g.DomTree first) (ho : LoopsOnly g g')
    (ha : g.Leads first a) (hd : Dom g.Edge first h a) : isLoopIrreducible g' h a = false := by
  rw [isLoopIrreducible, ho.dominates, (ht.dominates_iff hwc ha).2 hd]
  rfl

theorem OwnLoop.ne {h' l l' : Nat} {sources sources' : List Nat} {g' : Graph} (ho : OwnLoop g g' h sources l)
    (ho' : OwnLoop g g' h' sources' l') (hne : h' ≠ h) : l' ≠ l := by
  rintro rfl
  have hheader := congrArg Loop.header (ho.loop.symm.trans ho'.loop)
  exact hne (Option.some.inj hheader).symm

/-- A back edge to a block that has none yet makes its loop. -/
theorem Found.addLoopInfo_new (hf : Found g S s) (hirr : ∀ g', LoopsOnly g g' → isLoopIrreducible g' h a = false)
    (hS : ∀ u, ¬ S u h) (hnone : (g.block h).loop = none) :
    ∃ s', LoopAnalyzer.addLoopInfo s h a = some s' ∧ Found g (fun u v => S u v ∨ u = a ∧ v = h) s' ∧
      s'.grey = s.grey ∧ s'.black = s.black ∧ s'.dfsBlocks = s.dfsBlocks := by
  have hloop : (s.graph.block h).loop = none := (hf.without h hS).trans hnone
  have hid : s.loops.length = s.graph.loopCount - g.loopCount := by
    have := hf.loops
    omega
  obtain ⟨g₁, hg₁⟩ : ∃ g₁, g₁ = (s.graph.newLoop s.loops.length (some h) false false).1 := ⟨_, rfl⟩
  have hmake : s.graph.newLoop s.loops.length (some h) false false = (g₁, s.graph.loopCount) := by rw [hg₁]; rfl
  have hnew : g₁.loop s.graph.loopCount = { id := s.loops.length, header := some h, isIrreducible := false } := by
    rw [hg₁]
    exact Function.update_self ..
  have hold : ∀ k, k ≠ s.graph.loopCount → g₁.loop k = s.graph.loop k := fun k hk => by
    rw [hg₁]
    exact Function.update_of_ne hk ..
  have honly : LoopsOnly s.graph g₁ := hg₁ ▸ .newLoop ..
  have hblock : g₁.block = s.graph.block := by rw [hg₁]; rfl
  obtain ⟨g₂, hg₂⟩ : ∃ g₂, g₂ = (g₁.modifyBlock h fun x => { x with loop := some s.graph.loopCount }).modifyLoop
    s.graph.loopCount fun x => { x with basicBlocks := x.basicBlocks ++ [h] } := ⟨_, rfl⟩
  have hadd : g₁.loopAddBasicBlock s.graph.loopCount h = some g₂ := by
    rw [hg₂]
    exact loopAddBasicBlock_eq (by rw [hblock]; exact hloop) (by simp [hnew])
  have hback := addBackEdge_eq (g := g₂) (b := a) (l := s.graph.loopCount) (by simp [hg₂, hnew])
  refine ⟨{ s with
    graph := g₂.modifyLoop s.graph.loopCount fun x => { x with backEdges := x.backEdges ++ [a] }
    loops := s.loops ++ [s.graph.loopCount] }, ?_, ⟨?_, ?_, fun v hv => ?_, fun v hv => ?_⟩, rfl, rfl, rfl⟩
  · simp only [LoopAnalyzer.addLoopInfo, hloop, hirr _ hf.only, hmake, hadd, hback, Option.bind_eq_bind, Option.bind_some,
      Option.pure_def]
  · have honly₂ : LoopsOnly g₁ g₂ := hg₂ ▸ (LoopsOnly.setLoop _).trans (.modifyLoop _)
    have honly₃ : LoopsOnly g₂ (g₂.modifyLoop s.graph.loopCount fun x => { x with backEdges := x.backEdges ++ [a] }) :=
      .modifyLoop _
    exact (hf.only.trans (honly.trans honly₂)).trans honly₃
  · have hcount : g₁.loopCount = s.graph.loopCount + 1 := by rw [hg₁]; rfl
    have := hf.loops
    simp only [hg₂, modifyLoop_loopCount, modifyBlock_loopCount, hcount, List.length_append, List.length_singleton]
    omega
  · have hvh : v ≠ h := fun hvh => hv a (.inr ⟨rfl, hvh⟩)
    rw [← hf.without v fun u hu => hv u (.inl hu), ← hblock]
    simp [hg₂, hvh]
  · have hcount : g₁.loopCount = s.graph.loopCount + 1 := by rw [hg₁]; rfl
    by_cases hvh : v = h
    · subst hvh
      refine ⟨s.graph.loopCount, [a], ⟨?_, ?_, ?_, ?_⟩, List.nodup_singleton a, fun u => ?_⟩
      · have := hf.loops
        omega
      · simp [hg₂, hcount]
      · simp [hg₂]
      · simp [hg₂, hnew, hid]
      · simp [hS u]
    · obtain ⟨u, hu⟩ := hv
      obtain ⟨l, sources, ho, hnodup, hmem⟩ := hf.recorded v ⟨u, hu.resolve_right fun hu => hvh hu.2⟩
      have hl : l ≠ s.graph.loopCount := ho.lt.ne
      refine ⟨l, sources, ⟨ho.ge, ?_, ?_, ?_⟩, hnodup, fun u => by simp [hmem, hvh]⟩
      · simp only [hg₂, modifyLoop_loopCount, modifyBlock_loopCount, hcount]
        exact Nat.lt_succ_of_lt ho.lt
      · simp [hg₂, hvh, hblock, ho.block]
      · simp [hg₂, hl, hold, ho.loop]

/-- A further back edge to a header is added to its loop. -/
theorem Found.addLoopInfo_more (hf : Found g S s) (hirr : ∀ g', LoopsOnly g g' → isLoopIrreducible g' h a = false)
    (hS : ∃ u, S u h) (hnew : ¬ S a h) :
    ∃ s', LoopAnalyzer.addLoopInfo s h a = some s' ∧ Found g (fun u v => S u v ∨ u = a ∧ v = h) s' ∧
      s'.grey = s.grey ∧ s'.black = s.black ∧ s'.dfsBlocks = s.dfsBlocks := by
  obtain ⟨l, sources, ho, hnodup, hmem⟩ := hf.recorded h hS
  have hback := addBackEdge_eq (g := s.graph) (b := a) (l := l) (by simpa [ho.loop, hmem] using hnew)
  have honly := hf.only.trans (.modifyLoop (l := l) fun x => { x with backEdges := x.backEdges ++ [a] })
  refine ⟨{ s with graph := s.graph.modifyLoop l fun x => { x with backEdges := x.backEdges ++ [a] } }, ?_,
    ⟨honly, hf.loops, fun v hv => hf.without v fun u hu => hv u (.inl hu), fun v hv => ?_⟩, rfl, rfl, rfl⟩
  · simp [LoopAnalyzer.addLoopInfo, ho.block, hback, hirr _ honly]
  · by_cases hvh : v = h
    · subst hvh
      refine ⟨l, sources ++ [a], ⟨ho.ge, ho.lt, ho.block, by simp [ho.loop]⟩, ?_, fun u => ?_⟩
      · exact List.nodup_append.2 ⟨hnodup, List.nodup_singleton a, fun x hx y hy hxy =>
          hnew ((hmem a).1 (List.mem_singleton.1 hy ▸ hxy ▸ hx))⟩
      · simp [hmem]
    · obtain ⟨u, hu⟩ := hv
      obtain ⟨l', sources', ho', hnodup', hmem'⟩ := hf.recorded v ⟨u, hu.resolve_right fun hu => hvh hu.2⟩
      exact ⟨l', sources', ⟨ho'.ge, ho'.lt, ho'.block, by simp [ho.ne ho' hvh, ho'.loop]⟩, hnodup',
        fun u => by simp [hmem', hvh]⟩

/-- A new back edge can be recorded. -/
theorem Found.addLoopInfo (hwc : g.WellConnected first) (ht : g.DomTree first) (hf : Found g S s) (ha : g.Leads first a)
    (hd : Dom g.Edge first h a) (hnew : ¬ S a h) (hnone : (g.block h).loop = none) :
    ∃ s', LoopAnalyzer.addLoopInfo s h a = some s' ∧ Found g (fun u v => S u v ∨ u = a ∧ v = h) s' ∧
      s'.grey = s.grey ∧ s'.black = s.black ∧ s'.dfsBlocks = s.dfsBlocks := by
  have hirr : ∀ g', LoopsOnly g g' → isLoopIrreducible g' h a = false :=
    fun _ ho => isLoopIrreducible_eq hwc ht ho ha hd
  by_cases hS : ∃ u, S u h
  · exact hf.addLoopInfo_more hirr hS hnew
  · exact hf.addLoopInfo_new hirr (not_exists.1 hS) hnone

theorem addLoopInfo_frame (hs : addLoopInfo s h a = some s') : LoopsOnly s.graph s'.graph ∧ s'.grey = s.grey ∧
    s'.black = s.black ∧ s'.dfsBlocks = s.dfsBlocks := by
  rw [addLoopInfo] at hs
  split at hs
  · simp only [Option.bind_eq_bind, Option.bind_eq_some_iff, Option.pure_def, Option.some.injEq] at hs
    obtain ⟨g₁, h₁, g₂, h₂, rfl⟩ := hs
    exact ⟨(LoopsOnly.newLoop ..).trans ((LoopsOnly.loopAddBasicBlock h₁).trans (.addBackEdge h₂)), rfl, rfl, rfl⟩
  · simp only [Option.bind_eq_bind, Option.bind_eq_some_iff, Option.pure_def] at hs
    obtain ⟨g₁, h₁, hs⟩ := hs
    split at hs
    · obtain rfl := Option.some.inj hs
      refine ⟨(LoopsOnly.addBackEdge h₁).trans ?_, rfl, rfl, rfl⟩
      dsimp only
      exact .modifyLoop _
    · obtain rfl := Option.some.inj hs
      exact ⟨.addBackEdge h₁, rfl, rfl, rfl⟩

/-! ## The search -/

/-- An edge that has been followed. -/
def Followed (g : Graph) (F : Dfs.Frames Nat) (dfsBlocks : List Nat) (u v : Nat) : Prop :=
  (∃ done, (u, done) ∈ F ∧ v ∈ done) ∨ u ∈ dfsBlocks ∧ v ∈ (g.block u).succs

/-- A reducible graph without information on loops. -/
structure Loopless (g : Graph) (first : Nat) : Prop where
  connected : g.WellConnected first
  succs : ∀ b ∈ g.blocks, (g.block b).succs.Nodup
  reducible : Reducible g.Edge first
  loops : ∀ b ∈ g.blocks, (g.block b).loop = none

/-- Such a graph with its dominator tree. -/
structure Analyzable (g : Graph) (first : Nat) : Prop extends Loopless g first where
  domTree : g.DomTree first

/-- What holds between the actions of the search: the grey blocks are on its path, the black ones have been left, and the
edges followed to dominators have been recorded. -/
structure Searching (g : Graph) (first : Nat) (F : Dfs.Frames Nat) (s : State) : Prop where
  covers : dfsBackEdgesSearch.Covers (fun b => (g.block b).succs) (fun s => LoopsOnly g s.graph) { graph := g } first F s
  grey : ∀ b, s.grey b = true ↔ b ∈ F.map Prod.fst
  black : ∀ b, s.black b = true ↔ b ∈ s.dfsBlocks
  path : OnPath g.Edge first (F.map Prod.fst)
  nodup : s.dfsBlocks.Nodup
  left : ∀ b ∈ s.dfsBlocks, b ∉ F.map Prod.fst
  order : ∀ b ∈ s.dfsBlocks, ∀ h, Dom g.Edge first h b → h ≠ b → h ∈ F.map Prod.fst ∨ Before s.dfsBlocks b h
  found : Found g (fun u h => Followed g F s.dfsBlocks u h ∧ Dom g.Edge first h u) s

theorem dfsBackEdgesSearch_marks (g : Graph) :
    dfsBackEdgesSearch.Marks (fun b => (g.block b).succs) fun s => LoopsOnly g s.graph where
  next hQ := hQ.succs
  enter := by
    intro s a s' hQ hs
    obtain rfl := Option.some.inj hs
    refine ⟨hQ, fun x => ?_⟩
    by_cases hx : x = a <;> simp [dfsBackEdgesSearch, hx]
  again := by
    intro s a b s' hQ hs
    simp only [dfsBackEdgesSearch] at hs
    split at hs
    · obtain ⟨ho, hgrey, hblack, -⟩ := addLoopInfo_frame hs
      exact ⟨hQ.trans ho, fun x => by simp only [dfsBackEdgesSearch, hgrey, hblack]⟩
    · obtain rfl := Option.some.inj hs
      exact ⟨hQ, fun _ => rfl⟩
  forth := by
    intro s a b s' hQ hs
    obtain rfl := Option.some.inj hs
    exact ⟨hQ, fun _ => rfl⟩
  back := by
    intro s a b s' hQ hs
    obtain rfl := Option.some.inj hs
    exact ⟨hQ, fun _ => rfl⟩
  leave := by
    intro s a s' hQ ha hs
    simp only [dfsBackEdgesSearch, Option.bind_eq_bind, ASSERT_bind, Option.pure_def, Option.some.injEq] at hs
    obtain ⟨-, rfl⟩ := hs
    refine ⟨hQ, fun x => ?_⟩
    by_cases hx : x = a
    · subst hx
      simpa [dfsBackEdgesSearch] using ha
    · simp [dfsBackEdgesSearch, hx]

section
variable {F : Dfs.Frames Nat} {l done : List Nat} {b u v : Nat}

theorem followed_push : Followed g ((a, done ++ [b]) :: F) l u v ↔ Followed g ((a, done) :: F) l u v ∨ u = a ∧ v = b := by
  simp only [Followed, List.mem_cons, Prod.mk.injEq]
  constructor
  · rintro (⟨d, ⟨rfl, rfl⟩ | hd, hv⟩ | h)
    · rcases List.mem_append.1 hv with hv | hv
      · exact .inl (.inl ⟨done, .inl ⟨rfl, rfl⟩, hv⟩)
      · exact .inr ⟨rfl, List.mem_singleton.1 hv⟩
    · exact .inl (.inl ⟨d, .inr hd, hv⟩)
    · exact .inl (.inr h)
  · rintro ((⟨d, ⟨rfl, rfl⟩ | hd, hv⟩ | h) | ⟨rfl, rfl⟩)
    · exact .inl ⟨d ++ [b], .inl ⟨rfl, rfl⟩, List.mem_append_left _ hv⟩
    · exact .inl ⟨d, .inr hd, hv⟩
    · exact .inr h
    · exact .inl ⟨done ++ [v], .inl ⟨rfl, rfl⟩, by simp⟩

theorem followed_enter : Followed g ((a, []) :: F) l u v ↔ Followed g F l u v := by
  simp only [Followed, List.mem_cons, Prod.mk.injEq]
  constructor
  · rintro (⟨d, ⟨rfl, rfl⟩ | hd, hv⟩ | h)
    · cases hv
    · exact .inl ⟨d, hd, hv⟩
    · exact .inr h
  · rintro (⟨d, hd, hv⟩ | h)
    · exact .inl ⟨d, .inr hd, hv⟩
    · exact .inr h

theorem followed_leave : Followed g F (l ++ [a]) u v ↔ Followed g ((a, (g.block a).succs) :: F) l u v := by
  simp only [Followed, List.mem_cons, Prod.mk.injEq, List.mem_append, List.not_mem_nil, or_false]
  constructor
  · rintro (⟨d, hd, hv⟩ | ⟨hu | rfl, hv⟩)
    · exact .inl ⟨d, .inr hd, hv⟩
    · exact .inr ⟨hu, hv⟩
    · exact .inl ⟨_, .inl ⟨rfl, rfl⟩, hv⟩
  · rintro (⟨d, ⟨rfl, rfl⟩ | hd, hv⟩ | ⟨hu, hv⟩)
    · exact .inr ⟨.inr rfl, hv⟩
    · exact .inl ⟨d, hd, hv⟩
    · exact .inr ⟨.inl hu, hv⟩

/-- An edge that has been followed without the path having changed. -/
theorem Searching.push (hI : Searching g first ((a, done) :: F) s)
    (hc : dfsBackEdgesSearch.Covers (fun b => (g.block b).succs) (fun s => LoopsOnly g s.graph) { graph := g } first
      ((a, done ++ [b]) :: F) s') (hgrey : s'.grey = s.grey) (hblack : s'.black = s.black)
    (hpost : s'.dfsBlocks = s.dfsBlocks)
    (hfound : Found g (fun u h => (Followed g ((a, done) :: F) s.dfsBlocks u h ∨ u = a ∧ h = b) ∧ Dom g.Edge first h u) s') :
    Searching g first ((a, done ++ [b]) :: F) s' where
  covers := hc
  grey := by
    rw [hgrey]
    exact hI.grey
  black := by
    rw [hblack, hpost]
    exact hI.black
  path := hI.path
  nodup := hpost ▸ hI.nodup
  left := hpost ▸ hI.left
  order := hpost ▸ hI.order
  found := hfound.congr fun u h => by rw [hpost, followed_push]

/-- An edge to a block that is not on the path is no back edge. -/
theorem Searching.push_other (hI : Searching g first ((a, done) :: F) s)
    (hc : dfsBackEdgesSearch.Covers (fun b => (g.block b).succs) (fun s => LoopsOnly g s.graph) { graph := g } first
      ((a, done ++ [b]) :: F) s) (hb : b ∉ ((a, done) :: F).map Prod.fst) : Searching g first ((a, done ++ [b]) :: F) s := by
  refine hI.push hc rfl rfl rfl (hI.found.congr fun u h => ?_)
  refine and_congr_left fun hd => or_iff_left ?_
  rintro ⟨rfl, rfl⟩
  exact hb (hI.path.mem_of_dom hd)

/-- The next edge has not been followed yet. -/
theorem not_followed {rest : List Nat} (hs : (g.block a).succs.Nodup) (hN : (g.block a).succs = done ++ b :: rest)
    (hF : (((a, done) :: F).map Prod.fst).Nodup) (ha : a ∉ l) : ¬ Followed g ((a, done) :: F) l a b := by
  rintro (⟨d, hd, hb⟩ | ⟨hl, -⟩)
  · rcases List.mem_cons.1 hd with hd | hd
    · obtain rfl := (Prod.mk.inj hd).2
      rw [hN] at hs
      exact (List.nodup_append.1 hs).2.2 b hb b List.mem_cons_self rfl
    · exact (List.nodup_cons.1 hF).1 (List.mem_map.2 ⟨_, hd, rfl⟩)
  · exact ha hl

theorem Searching.not_followed {rest : List Nat} (hg : Analyzable g first) (hI : Searching g first ((a, done) :: F) s)
    (hN : (g.block a).succs = done ++ b :: rest) : ¬ Followed g ((a, done) :: F) s.dfsBlocks a b :=
  LoopAnalyzer.not_followed (hg.succs a (hg.connected.mem_of_leads (hI.path.reachable List.mem_cons_self))) hN
    hI.covers.nodup fun ha => hI.left a ha List.mem_cons_self

/-- An edge to a block that has been seen; when the block is on the path the edge is recorded. -/
theorem Searching.again {rest : List Nat} (hg : Analyzable g first) (hI : Searching g first ((a, done) :: F) s)
    (hN : (g.block a).succs = done ++ b :: rest) (hb : dfsBackEdgesSearch.seen s b = true) :
    ∃ s', dfsBackEdgesSearch.again s a b = some s' ∧ Searching g first ((a, done ++ [b]) :: F) s' := by
  have hcovers := fun (t : State) (ht : dfsBackEdgesSearch.again s a b = some t) =>
    ((dfsBackEdgesSearch_marks g).rule _ _).again hI.covers hN hb ht
  have hba : b ∈ (g.block a).succs := by simp [hN]
  cases hgrey : s.grey b with
  | true =>
      have hpath := (hI.grey b).1 hgrey
      have ha : g.Leads first a := hI.path.reachable List.mem_cons_self
      have hd : Dom g.Edge first b a := hI.path.back hg.reducible hba hpath
      obtain ⟨s', hs', hfound, h₁, h₂, h₃⟩ := hI.found.addLoopInfo hg.connected hg.domTree ha hd
        (fun hS => hI.not_followed hg hN hS.1) (hg.loops b (hg.connected.mem_of_leads (hI.path.reachable hpath)))
      have hs : dfsBackEdgesSearch.again s a b = some s' := by simpa [dfsBackEdgesSearch, hgrey] using hs'
      refine ⟨s', hs, hI.push (hcovers s' hs) h₁ h₂ h₃ (hfound.congr fun u h => ?_)⟩
      constructor
      · rintro ⟨hf | ⟨rfl, rfl⟩, hd⟩
        · exact .inl ⟨hf, hd⟩
        · exact .inr ⟨rfl, rfl⟩
      · rintro (⟨hf, hd⟩ | ⟨rfl, rfl⟩)
        · exact ⟨.inl hf, hd⟩
        · exact ⟨.inr ⟨rfl, rfl⟩, hd⟩
  | false =>
      have hs : dfsBackEdgesSearch.again s a b = some s := by simp [dfsBackEdgesSearch, hgrey]
      refine ⟨s, hs, hI.push_other (hcovers s hs) fun hm => ?_⟩
      exact Bool.false_ne_true (hgrey.symm.trans ((hI.grey b).2 hm))

/-- The blocks that have been left are among those the search can reach. -/
theorem Searching.mem_blocks (hg : Analyzable g first) (hI : Searching g first F s) (hb : b ∈ s.dfsBlocks) :
    b ∈ g.blocks := by
  have hseen : dfsBackEdgesSearch.seen s b = true := by simp [dfsBackEdgesSearch, (hI.black b).2 hb]
  have hwhite := (hI.covers.white b hseen).resolve_left (by simp [dfsBackEdgesSearch])
  exact hg.connected.mem_of_leads (hwhite.lift id fun _ _ hw => hw.1)

/-- There is room in `dfsBlocks` for the block that is left. -/
theorem Searching.room (hg : Analyzable g first) (hI : Searching g first ((a, done) :: F) s) :
    s.dfsBlocks.length < s.graph.getBasicBlocksCount := by
  have hnodup : (a :: s.dfsBlocks).Nodup := List.nodup_cons.2 ⟨fun ha => hI.left a ha List.mem_cons_self, hI.nodup⟩
  have sub : a :: s.dfsBlocks ⊆ g.blocks := List.cons_subset.2
    ⟨hg.connected.mem_of_leads (hI.path.reachable List.mem_cons_self), fun b hb => hI.mem_blocks hg hb⟩
  rw [hI.covers.keeps.count, hg.connected.count]
  exact (hnodup.subperm sub).length_le

end

theorem dfsBackEdgesSearch_rule (hg : Analyzable g first) : dfsBackEdgesSearch.Rule (fun b => (g.block b).succs) (· = first)
    (fun _ _ => True) (Searching g first) fun b F s => Searching g first F s ∧ b ∈ s.dfsBlocks where
  next hI := hI.covers.keeps.succs
  enter := by
    intro F s a s' hI ha hE hs he
    have hcovers := ((dfsBackEdgesSearch_marks g).rule _ _).enter hI.covers ha hE hs he
    obtain rfl := Option.some.inj he
    have hunseen : s.grey a = false ∧ s.black a = false := by simpa [dfsBackEdgesSearch] using hs
    have hF : a ∉ F.map Prod.fst := fun hm => by simpa [hunseen.1] using (hI.grey a).2 hm
    have hblack : a ∉ s.dfsBlocks := fun hm => by simpa [hunseen.2] using (hI.black a).2 hm
    refine ⟨hcovers, fun b => ?_, hI.black, ?_, hI.nodup, fun b hb hm => ?_, fun b hb h hd hne => ?_, ?_⟩
    · by_cases hb : b = a <;> simp [hb, hI.grey]
    · cases F with
      | nil => exact ⟨.singleton a, fun x hx => (Option.some.inj hx).symm.trans ha⟩
      | cons p F =>
          obtain ⟨rest, hN⟩ := ha
          have hN' : (g.block p.1).succs = p.2 ++ a :: rest := hN
          have he : a ∈ (g.block p.1).succs := by simp [hN']
          exact hI.path.push he hF
    · rcases List.mem_cons.1 hm with rfl | hm
      · exact hblack hb
      · exact hI.left b hb hm
    · exact (hI.order b hb h hd hne).imp_left (List.mem_cons_of_mem a)
    · have hf := hI.found
      exact ⟨hf.only, hf.loops, fun h hu => hf.without h fun u => by
        rw [← followed_enter (a := a)]
        exact hu u, fun h hu => by
          simp only [followed_enter] at hu ⊢
          exact hf.recorded h hu⟩
  again := by
    intro F s a done b rest s' hI hN hb hs
    obtain ⟨s'', hs'', hI'⟩ := hI.again hg hN hb
    exact Option.some.inj (hs''.symm.trans hs) ▸ hI'
  forth := by
    intro F s a done b rest s' hI _ hb hs
    obtain rfl := Option.some.inj hs
    exact ⟨hI, hb, trivial⟩
  leave := by
    intro F s a s' hI hs
    obtain ⟨hcovers, -⟩ := ((dfsBackEdgesSearch_marks g).rule _ _).leave hI.covers hs
    simp only [dfsBackEdgesSearch, Option.bind_eq_bind, ASSERT_bind, Option.pure_def, Option.some.injEq] at hs
    obtain ⟨-, rfl⟩ := hs
    have hF : a ∉ F.map Prod.fst := (List.nodup_cons.1 hI.covers.nodup).1
    have hblack : a ∉ s.dfsBlocks := fun hm => hI.left a hm List.mem_cons_self
    refine ⟨⟨hcovers, fun b => ?_, fun b => ?_, hI.path.pop, ?_, fun b hb => ?_, fun b hb h hd hne => ?_, ?_⟩, by simp⟩
    · by_cases hb : b = a
      · simp [hb, hF]
      · simp [hb, hI.grey]
    · by_cases hb : b = a
      · simp [hb]
      · simp [hb, hI.black]
    · exact List.nodup_append.2 ⟨hI.nodup, List.nodup_singleton a, fun x hx y hy hxy =>
        hblack (List.mem_singleton.1 hy ▸ hxy ▸ hx)⟩
    · rcases List.mem_append.1 hb with hb | hb
      · exact fun hm => hI.left b hb (List.mem_cons_of_mem a hm)
      · rwa [List.mem_singleton.1 hb]
    · rcases List.mem_append.1 hb with hb' | hb
      · rcases hI.order b hb' h hd hne with hm | hm
        · rcases List.mem_cons.1 hm with rfl | hm
          · exact .inr (.concat hb')
          · exact .inl hm
        · exact .inr (hm.append _)
      · obtain rfl := List.mem_singleton.1 hb
        exact .inl ((List.mem_cons.1 (hI.path.mem_of_dom hd)).resolve_left hne)
    · have hf := hI.found
      exact ⟨hf.only, hf.loops, fun h hu => hf.without h fun u => by
        rw [← followed_leave]
        exact hu u, fun h hu => by
          simp only [followed_leave] at hu ⊢
          exact hf.recorded h hu⟩
  back := by
    rintro F s a done b rest s' ⟨hI, hb⟩ hN hs
    have hseen : dfsBackEdgesSearch.seen s b = true := by simp [dfsBackEdgesSearch, (hI.black b).2 hb]
    have hcovers := ((dfsBackEdgesSearch_marks g).rule _ _).back ⟨hI.covers, hseen⟩ hN hs
    obtain rfl := Option.some.inj hs
    exact hI.push_other hcovers (hI.left b hb)

theorem dfsBackEdgesSearch_progress (hg : Analyzable g first) : dfsBackEdgesSearch.Progress (fun b => (g.block b).succs)
    (· = first) (fun _ _ => True) (Searching g first) (fun b F s => Searching g first F s ∧ b ∈ s.dfsBlocks)
    g.blocks.length where
  bounded hI := hI.covers.length_le fun _ hx => hg.connected.mem_of_leads (hx.lift id fun _ _ hw => hw.1)
  enter _ _ _ _ := ⟨_, rfl⟩
  again hI hN hb := (hI.again hg hN hb).imp fun _ hs => hs.1
  forth _ _ _ := ⟨_, rfl⟩
  leave := by
    intro F s a hI
    simp only [dfsBackEdgesSearch, ASSERT_of (hI.room hg), Option.bind_eq_bind, Option.bind_some, Option.pure_def]
    exact ⟨_, rfl⟩
  back _ _ := ⟨_, rfl⟩

/-- What is known when the search for back edges has ended. -/
structure Searched (g : Graph) (first : Nat) (s : State) : Prop where
  nodup : s.dfsBlocks.Nodup
  mem : ∀ b, b ∈ s.dfsBlocks ↔ b ∈ g.blocks
  order : ∀ b ∈ g.blocks, ∀ h, Dom g.Edge first h b → h ≠ b → Before s.dfsBlocks b h
  found : Found g (BackEdge g.Edge first) s

theorem collectBackEdges_spec (hg : Analyzable g first) : ∃ s, collectBackEdges g = some s ∧ Searched g first s := by
  have hstart : Searching g first [] { graph := g } := by
    refine ⟨.start (.refl g), by simp, by simp, .nil, .nil, by simp, by simp, ⟨.refl g, by simp, fun _ _ => rfl, ?_⟩⟩
    rintro h ⟨u, hf, -⟩
    simp [Followed] at hf
  have hunseen : dfsBackEdgesSearch.seen { graph := g } first = false := rfl
  obtain ⟨s, hs⟩ := (dfsBackEdgesSearch_rule hg).visit_total (n := g.blockCount + 1) (dfsBackEdgesSearch_progress hg) hstart rfl
    trivial hunseen (Nat.lt_succ_of_le hg.connected.length_le)
  obtain ⟨hI, -⟩ := (dfsBackEdgesSearch_rule hg).visit hstart rfl trivial hunseen hs
  have hmem : ∀ b, b ∈ s.dfsBlocks ↔ b ∈ g.blocks := by
    refine fun b => ⟨hI.mem_blocks hg, fun hb => (hI.black b).1 ?_⟩
    have hseen := (dfsBackEdgesSearch_marks g).visit_closed (.refl g) hunseen (by simp [dfsBackEdgesSearch]) hs b
    have hgrey : s.grey b = false := by simpa using (hI.grey b).not
    simpa [dfsBackEdgesSearch, hgrey] using hseen.2 (.inr (hg.domTree.leads b hb))
  have hlen : s.dfsBlocks.length = s.graph.getBasicBlocksCount := by
    rw [hI.covers.keeps.count, hg.connected.count]
    exact ((List.perm_ext_iff_of_nodup hI.nodup hg.connected.nodup).2 hmem).length_eq
  refine ⟨s, ?_, hI.nodup, hmem, fun b hb h hd hne => ?_, hI.found.congr fun u h => ?_⟩
  · simp only [collectBackEdges, hg.connected.firstBlock, hs, ASSERT_of hlen, Option.bind_eq_bind, Option.bind_some,
      Option.pure_def]
  · exact (hI.order b ((hmem b).2 hb) h hd hne).resolve_left (by simp)
  · constructor
    · exact fun hu => ⟨.inr ⟨(hmem u).2 (hg.connected.mem_of_leads hu.reachable), hu.edge⟩, hu.dom⟩
    · rintro ⟨⟨d, hd, -⟩ | ⟨hu, he⟩, hdom⟩
      · exact absurd hd (by simp)
      · exact ⟨hg.domTree.leads u ((hmem u).1 hu), he, hdom⟩

/-- A walk back through the predecessors marks the blocks it comes to, and keeps what adding a block keeps. -/
theorem dfsPopulateLoops_marks_of {Q : Graph → Prop} {l : Nat} (honly : ∀ {g'}, Q g' → LoopsOnly g g')
    (hstep : ∀ {g' b g''}, Q g' → populate l g' b = some g'' → Q g'') :
    (dfsPopulateLoops l).Marks (fun b => (g.block b).preds) fun s => Q s.1 where
  next hQ := (honly hQ).preds
  enter := by
    intro s a s' hQ hs
    simp only [dfsPopulateLoops, Option.bind_eq_bind, Option.bind_eq_some_iff, Option.pure_def, Option.some.injEq] at hs
    obtain ⟨g', hg', rfl⟩ := hs
    refine ⟨hstep hQ hg', fun x => ?_⟩
    by_cases hx : x = a <;> simp [dfsPopulateLoops, hx]
  again hQ hs := Option.some.inj hs ▸ ⟨hQ, fun _ => rfl⟩
  forth hQ hs := Option.some.inj hs ▸ ⟨hQ, fun _ => rfl⟩
  back hQ hs := Option.some.inj hs ▸ ⟨hQ, fun _ => rfl⟩
  leave hQ _ hs := Option.some.inj hs ▸ ⟨hQ, fun _ => rfl⟩

end LoopAnalyzer

end CompilerLab.Jit
