import CompilerLab.Jit.Lemmas.LoopHistory
import CompilerLab.Jit.Theorems.LoopAnalyzer

/-!
# Repeating the loop analysis

The analysis takes the loops its blocks already have for loops of its own, and does not clear them before it starts.
-/

namespace CompilerLab.Jit.LoopAnalyzer

open CompilerLab.Lib Graph

variable {g g' f' : Graph} {first b h k l m x y root root' : Nat} {own own' : Nat → Nat}

/-! ## Histories -/

/-- The graph without what earlier runs have left of loops. -/
def fresh (g : Graph) : Graph :=
  { g with
    block := fun b => { g.block b with loop := none }
    loop := fun _ => { header := none, isIrreducible := false }
    loopCount := 0
    loopTreeRoot := none }

/-- An edit makes no loop objects and leaves those there are in each other; blocks may be added to them. -/
structure Edited (g g' : Graph) : Prop where
  loopCount : g'.loopCount = g.loopCount
  loop : ∀ l, l < g.loopCount → (g'.loop l).isRoot = (g.loop l).isRoot ∧ (g'.loop l).outerLoop = (g.loop l).outerLoop
  block : ∀ b l, (g'.block b).loop = some l → l < g.loopCount

/-- A graph that has been edited and analysed in any order. -/
inductive History : Graph → Prop where
  | fresh (g : Graph) : History (fresh g)
  | edit {g g' : Graph} : History g → Edited g g' → History g'
  | analyze {g g' : Graph} : History g → LoopAnalyzer.analyze g = some g' → History g'

theorem History.nested (h : History g) : Nested (fun _ => False) g := by
  induction h with
  | fresh g =>
      refine ⟨fun b l hl => ?_, fun l hl => absurd hl (Nat.not_lt_zero l), fun l hl => absurd hl (Nat.not_lt_zero l)⟩
      cases hl
  | @edit g g' _ he ih =>
      refine ⟨fun b l hl => he.loopCount ▸ he.block b l hl, fun l hl o ho => ?_, fun l hl => ?_⟩
      · rw [he.loopCount] at hl ⊢
        exact ih.bound l hl o ((he.loop l hl).2 ▸ ho)
      · rw [he.loopCount] at hl
        rw [(he.loop l hl).1, (he.loop l hl).2]
        exact (ih.placed l hl).imp_right (Or.imp_right fun ⟨_, hf, _⟩ => hf.elim)
  | analyze _ hs ih => exact (analyze_nested ih hs).1

/-! ## The same loops -/

/-- The loops agree, where `M` tells which other loops are taken for the same. A loop without a header has no back edges. -/
structure SameLoop (M : Nat → Nat → Prop) (l m : Loop) : Prop where
  header : l.header = m.header
  isRoot : l.isRoot = m.isRoot
  isIrreducible : l.header ≠ none → l.isIrreducible = m.isIrreducible
  backEdges : l.header ≠ none → l.backEdges.Perm m.backEdges
  basicBlocks : l.basicBlocks.Perm m.basicBlocks
  outerLoop : Option.Rel M l.outerLoop m.outerLoop
  innerLoops : (∀ i ∈ l.innerLoops, ∃ j ∈ m.innerLoops, M i j) ∧ ∀ j ∈ m.innerLoops, ∃ i ∈ l.innerLoops, M i j

/-- The graphs have the same loop tree, and the blocks are in the same loops. -/
structure SameLoops (blocks : List Nat) (M : Nat → Nat → Prop) (g g' : Graph) : Prop where
  unique : ∀ l m x y, M l x → M m y → (l = m ↔ x = y)
  root : Option.Rel M g.loopTreeRoot g'.loopTreeRoot
  block : ∀ b ∈ blocks, Option.Rel M (g.block b).loop (g'.block b).loop
  loop : ∀ l x, M l x → SameLoop M (g.loop l) (g'.loop x)

/-- The analysis gives the same loops as that of a fresh copy. -/
def Repeats (g : Graph) : Prop := ∃ g' f' M, analyze g = some g' ∧ analyze (fresh g) = some f' ∧ SameLoops g.blocks M g' f'

/-- The loops of the same header, and the roots. -/
def Matched (g : Graph) (first root root' : Nat) (own own' : Nat → Nat) (l x : Nat) : Prop :=
  l = root ∧ x = root' ∨ ∃ h, Header g.Edge first h ∧ l = own h ∧ x = own' h

theorem LoopTree.own_ne (ht : LoopTree g first root own g') (hh : Header g.Edge first h) : own h ≠ root := by
  intro heq
  have hr := (ht.headers h hh).isRoot
  rw [heq, ht.rootLoop.2.1] at hr
  cases hr

theorem LoopTree.own_inj (ht : LoopTree g first root own g') (hh : Header g.Edge first h) (hk : Header g.Edge first k)
    (heq : own h = own k) : h = k := by
  have hhead := (ht.headers h hh).header
  rw [heq, (ht.headers k hk).header] at hhead
  exact (Option.some.inj hhead).symm

theorem matched_unique (ht : LoopTree g first root own g') (hf : LoopTree g first root' own' f')
    (hl : Matched g first root root' own own' l x) (hm : Matched g first root root' own own' m y) : l = m ↔ x = y := by
  rcases hl with ⟨rfl, rfl⟩ | ⟨h, hh, rfl, rfl⟩ <;> rcases hm with ⟨rfl, rfl⟩ | ⟨k, hk, rfl, rfl⟩
  · exact iff_of_true rfl rfl
  · exact iff_of_false (ht.own_ne hk).symm (hf.own_ne hk).symm
  · exact iff_of_false (ht.own_ne hh) (hf.own_ne hh)
  · exact ⟨fun heq => ht.own_inj hh hk heq ▸ rfl, fun heq => hf.own_inj hh hk heq ▸ rfl⟩

/-- The loops of a block match. -/
theorem matched_block (ht : LoopTree g first root own g') (hf : LoopTree g first root' own' f')
    (hleads : ∀ b ∈ g.blocks, g.Leads first b) (hb : b ∈ g.blocks) :
    Option.Rel (Matched g first root root' own own') (g'.block b).loop (f'.block b).loop := by
  rcases ht.blocks b hb with ⟨h, hh, hl⟩ | ⟨hout, hl⟩
  · rcases hf.blocks b hb with ⟨k, hk, hx⟩ | ⟨hout, hx⟩
    · obtain rfl := (hk.2 h hh.1).antisymm (hh.2 k hk.1) (hk.1.dom.reachable (hleads b hb))
      rw [hl, hx]
      exact .some (.inr ⟨_, hh.1.1, rfl, rfl⟩)
    · exact absurd hh.1 (hout h)
  · rcases hf.blocks b hb with ⟨k, hk, hx⟩ | ⟨-, hx⟩
    · exact absurd hk.1 (hout k)
    · rw [hl, hx]
      exact .some (.inl ⟨rfl, rfl⟩)

/-- The loops around a header's loop match. -/
theorem matched_outer (ht : LoopTree g first root own g') (hf : LoopTree g first root' own' f')
    (hh : Header g.Edge first h) (hh' : g.Leads first h) :
    Option.Rel (Matched g first root root' own own') (g'.loop (own h)).outerLoop (f'.loop (own' h)).outerLoop := by
  rcases ht.outer h hh with ⟨k, hk, hl⟩ | ⟨hout, hl⟩
  · rcases hf.outer h hh with ⟨m, hm, hx⟩ | ⟨hout, hx⟩
    · obtain rfl := (hm.smallest k hk.ne hk.inLoop).antisymm (hk.smallest m hm.ne hm.inLoop) (hm.inLoop.dom.reachable hh')
      rw [hl, hx]
      exact .some (.inr ⟨_, hk.inLoop.1, rfl, rfl⟩)
    · exact absurd hk.inLoop (hout k hk.ne)
  · rcases hf.outer h hh with ⟨m, hm, hx⟩ | ⟨-, hx⟩
    · exact absurd hm.inLoop (hout m hm.ne)
    · rw [hl, hx]
      exact .some (.inl ⟨rfl, rfl⟩)

/-- Two loop trees of one graph are the same. -/
theorem LoopTree.same (ht : LoopTree g first root own g') (hf : LoopTree g first root' own' f')
    (hleads : ∀ b ∈ g.blocks, g.Leads first b) (hmem : ∀ h, Header g.Edge first h → h ∈ g.blocks) :
    SameLoops g.blocks (Matched g first root root' own own') g' f' := by
  have unique : ∀ {l x m y}, Matched g first root root' own own' l x → Matched g first root root' own own' m y →
      (l = m ↔ x = y) := matched_unique ht hf
  have some_iff : ∀ {o o' : Option Nat} {l x}, Option.Rel (Matched g first root root' own own') o o' →
      Matched g first root root' own own' l x → (o = some l ↔ o' = some x) := by
    rintro _ _ l x (hm | _) hl
    · rw [Option.some.injEq, Option.some.injEq, unique hm hl]
    · simp
  have outer : ∀ {h}, Header g.Edge first h → Option.Rel (Matched g first root root' own own') (g'.loop (own h)).outerLoop
      (f'.loop (own' h)).outerLoop := fun hh => matched_outer ht hf hh (hleads _ (hmem _ hh))
  have lists : ∀ {l x}, Matched g first root root' own own' l x → (g'.loop l).basicBlocks.Perm (f'.loop x).basicBlocks ∧
      (∀ i ∈ (g'.loop l).innerLoops, ∃ j ∈ (f'.loop x).innerLoops, Matched g first root root' own own' i j) ∧
      ∀ j ∈ (f'.loop x).innerLoops, ∃ i ∈ (g'.loop l).innerLoops, Matched g first root root' own own' i j := by
    intro l x hm
    have hl := ht.links l (hm.symm.imp (fun ⟨h, hh, hl, _⟩ => ⟨h, hh, hl⟩) fun hr => hr.1)
    have hx := hf.links x (hm.symm.imp (fun ⟨h, hh, _, hx⟩ => ⟨h, hh, hx⟩) fun hr => hr.2)
    refine ⟨(List.perm_ext_iff_of_nodup hl.basicNodup hx.basicNodup).2 fun b => ?_, fun i hi => ?_, fun j hj => ?_⟩
    · rw [hl.basicBlocks, hx.basicBlocks]
      exact and_congr_right fun hb => some_iff (matched_block ht hf hleads hb) hm
    · obtain ⟨h, hh, rfl, ho⟩ := (hl.innerLoops i).1 hi
      exact ⟨own' h, (hx.innerLoops _).2 ⟨h, hh, rfl, (some_iff (outer hh) hm).1 ho⟩, .inr ⟨h, hh, rfl, rfl⟩⟩
    · obtain ⟨h, hh, rfl, ho⟩ := (hx.innerLoops j).1 hj
      exact ⟨own h, (hl.innerLoops _).2 ⟨h, hh, rfl, (some_iff (outer hh) hm).2 ho⟩, .inr ⟨h, hh, rfl, rfl⟩⟩
  refine ⟨fun l m x y hl hm => unique hl hm, ?_, fun b hb => matched_block ht hf hleads hb, fun l x hm => ?_⟩
  · rw [ht.loopTreeRoot, hf.loopTreeRoot]
    exact .some (.inl ⟨rfl, rfl⟩)
  · obtain ⟨hblocks, hinner⟩ := lists hm
    rcases hm with ⟨rfl, rfl⟩ | ⟨h, hh, rfl, rfl⟩
    · obtain ⟨hh, hr, ho⟩ := ht.rootLoop
      obtain ⟨hh', hr', ho'⟩ := hf.rootLoop
      refine ⟨hh.trans hh'.symm, hr.trans hr'.symm, fun hne => absurd hh hne, fun hne => absurd hh hne, hblocks, ?_, hinner⟩
      rw [ho, ho']
      exact .none
    · have hl := ht.headers h hh
      have hx := hf.headers h hh
      refine ⟨hl.header.trans hx.header.symm, hl.isRoot.trans hx.isRoot.symm, fun _ => hl.isIrreducible.trans hx.isIrreducible.symm,
        fun _ => (List.perm_ext_iff_of_nodup hl.nodup hx.nodup).2 fun u => ?_, hblocks, outer hh, hinner⟩
      rw [hl.backEdges, hx.backEdges]

/-! ## Repeating the analysis -/

/-- The loops of headers are those of no earlier run: they would lead to another root. -/
theorem old_not_matched {M : Nat → Nat → Prop} {r : Nat} (hn : Nested (fun _ => False) g)
    (hext : Extends g { g' with loopTreeRoot := g.loopTreeRoot }) (hr : g.loopCount ≤ r) (hroot : g'.loopTreeRoot = some r)
    (hf : LoopTree g first root own f') (hs : SameLoops g.blocks M g' f') (hh : g.Leads first h) :
    Header g.Edge first h → ∀ l, M l (own h) → g.loopCount ≤ l := by
  have hmroot : M r root := by
    have hrel := hs.root
    rw [hroot, hf.loopTreeRoot] at hrel
    cases hrel
    assumption
  have new : ∀ l, M l root → g.loopCount ≤ l := fun l hl => ((hs.unique l r root root hl hmroot).2 rfl) ▸ hr
  -- an old loop is not a root, so it is in another one, which is old as well
  have up : ∀ h l, Header g.Edge first h → M l (own h) → l < g.loopCount →
      ∃ o < g.loopCount, Option.Rel M (some o) (f'.loop (own h)).outerLoop := by
    intro h l hh hl hlt
    have hsame := hs.loop l (own h) hl
    rcases hn.placed l hlt with hroot | ho | ⟨_, hfalse, _⟩
    · have hnot := hsame.isRoot.trans (hf.headers h hh).isRoot
      have hold : (g'.loop l).isRoot = (g.loop l).isRoot := hext.isRoot l hlt
      rw [hold, hroot] at hnot
      cases hnot
    · obtain ⟨o, ho⟩ := Option.ne_none_iff_exists'.1 ho
      have hold : (g'.loop l).outerLoop = some o := hext.outerLoop l hlt o ho
      exact ⟨o, hn.bound l hlt o ho, hold ▸ hsame.outerLoop⟩
    · exact hfalse.elim
  refine Dom.induct (P := fun h => Header g.Edge first h → ∀ l, M l (own h) → g.loopCount ≤ l) ?_ ?_ hh
  · intro hh l hl
    by_contra hlt
    obtain ⟨o, ho, hrel⟩ := up first l hh hl (Nat.lt_of_not_le hlt)
    rcases hf.outer first hh with ⟨k, hk, heq⟩ | ⟨-, heq⟩
    · exact hk.ne (hk.inLoop.dom .refl).symm
    · rw [heq] at hrel
      cases hrel with
      | some hm => exact absurd (new o hm) ho.not_ge
  · intro b hb hbr
    by_cases hh : Header g.Edge first b
    · rcases hf.outer b hh with ⟨k, hk, heq⟩ | ⟨-, heq⟩
      · refine ⟨k, hk.inLoop.dom, hk.ne, fun ih _ l hl => ?_⟩
        by_contra hlt
        obtain ⟨o, ho, hrel⟩ := up b l hh hl (Nat.lt_of_not_le hlt)
        rw [heq] at hrel
        cases hrel with
        | some hm => exact absurd (ih hk.inLoop.1 o hm) ho.not_ge
      · refine ⟨first, .root first b, Ne.symm hbr, fun _ _ l hl => ?_⟩
        by_contra hlt
        obtain ⟨o, ho, hrel⟩ := up b l hh hl (Nat.lt_of_not_le hlt)
        rw [heq] at hrel
        cases hrel with
        | some hm => exact absurd (new o hm) ho.not_ge
    · exact ⟨first, .root first b, Ne.symm hbr, fun _ hb => absurd hb hh⟩

/-- Without loops of earlier runs the graph can be analysed as its fresh copy can. -/
theorem analyzable_of_fresh (hg : Analyzable (fresh g) first) (hnone : ∀ b ∈ g.blocks, (g.block b).loop = none) :
    Analyzable g first where
  connected := hg.connected.congr rfl rfl rfl rfl (fun _ => rfl) fun _ => rfl
  succs := hg.succs
  reducible := hg.reducible
  loops := hnone
  domTree := ⟨hg.domTree.leads, hg.domTree.root, hg.domTree.idom, hg.domTree.nodup, hg.domTree.dominated⟩

/-- The analysis can be repeated exactly when no block has a loop. -/
theorem repeats_iff (h : History g) (hg : Analyzable (fresh g) first) :
    Repeats g ↔ ∀ b ∈ g.blocks, (g.block b).loop = none := by
  have hleads : ∀ b ∈ g.blocks, g.Leads first b := hg.domTree.leads
  obtain ⟨f', root', own', hf', hf⟩ := analyze_spec hg
  have hf : LoopTree g first root' own' f' := hf.congr (by rfl) (by rfl)
  constructor
  · rintro ⟨g', f'', M, hg', hf'', hs⟩ b hb
    obtain rfl := Option.some.inj (hf'.symm.trans hf'')
    obtain ⟨-, hext, r, hr, hroot⟩ := analyze_nested h.nested hg'
    rw [Option.eq_none_iff_forall_ne_some]
    intro l hl
    have hlt := h.nested.range b l hl
    have hrel := hs.block b hb
    have hl' : (g'.block b).loop = some l := hext.loop b l hl
    rw [hl'] at hrel
    rcases hf.blocks b hb with ⟨k, hk, hx⟩ | ⟨-, hx⟩
    · rw [hx] at hrel
      cases hrel with
      | some hm =>
          have hk' := hk.1.dom.reachable (hleads b hb)
          exact absurd (old_not_matched h.nested hext hr hroot hf hs hk' hk.1.1 l hm) hlt.not_ge
    · rw [hx] at hrel
      have hroots := hs.root
      rw [hroot, hf.loopTreeRoot] at hroots
      cases hrel with
      | some hm =>
          cases hroots with
          | some hm' => exact absurd (((hs.unique l r root' root' hm hm').2 rfl) ▸ hr) hlt.not_ge
  · intro hnone
    obtain ⟨g', root, own, hg', ht⟩ := analyze_spec (analyzable_of_fresh hg hnone)
    exact ⟨g', f', _, hg', hf', ht.same hf hleads fun h ⟨u, hu⟩ => hg.connected.mem_of_leads (hu.dom.reachable hu.reachable)⟩

/-- The analysis changes nothing but the loops. -/
theorem fresh_analyze (hn : Nested (fun _ => False) g) (hs : analyze g = some g') : fresh g' = fresh g := by
  have honly := (analyze_nested hn hs).2.1.only
  have hblock : ∀ b, { g'.block b with loop := none } = { g.block b with loop := none } := by
    intro b
    have hb : g'.block b = { g.block b with loop := (g'.block b).loop } := honly.block b
    rw [hb]
  have hgraph : fresh g' = { fresh { g' with loopTreeRoot := g.loopTreeRoot } with
      block := fun b => { g'.block b with loop := none } } := rfl
  rw [hgraph, honly.graph]
  simp only [fresh, hblock]

/-- A graph of one block. -/
def oneBlock : Graph := ofLists [] [{ id := 0 }] []

theorem oneBlock_analyzable : Analyzable (fresh oneBlock) 0 := by
  have hedge : ∀ u v, ¬ (fresh oneBlock).Edge u v := by
    intro u v
    cases u <;> simp [Edge, fresh, oneBlock, ofLists]
  refine ⟨⟨?_, by decide, fun b _ hc => ?_, by decide⟩, ?_⟩
  · refine ⟨rfl, ?_, ?_, rfl, ?_, ?_, ?_, ?_⟩ <;> decide
  · obtain ⟨c, -, he⟩ := Relation.TransGen.tail'_iff.1 hc
    exact hedge c b he.1
  · refine .of_stored (leads_of_lt (by decide)) rfl (fun b hb hne => ?_) (by decide) (by decide)
    exact absurd (List.mem_singleton.1 hb) hne

/-- The graph after its analysis. -/
def oneBlockAnalyzed : Graph := (analyze (fresh oneBlock)).getD oneBlock

theorem oneBlockAnalyzed_eq : analyze (fresh oneBlock) = some oneBlockAnalyzed := by
  have hsome : (analyze (fresh oneBlock)).isSome := by decide
  obtain ⟨g', hg'⟩ := Option.isSome_iff_exists.1 hsome
  rw [oneBlockAnalyzed, hg', Option.getD_some]

theorem oneBlockAnalyzed_history : History oneBlockAnalyzed := .analyze (.fresh oneBlock) oneBlockAnalyzed_eq

theorem oneBlockAnalyzed_analyzable : Analyzable (fresh oneBlockAnalyzed) 0 := by
  have hfresh := fresh_analyze (History.fresh oneBlock).nested oneBlockAnalyzed_eq
  rw [hfresh]
  exact oneBlock_analyzable

theorem repeats_iff_oneBlock : History oneBlockAnalyzed ∧ Analyzable (fresh oneBlockAnalyzed) 0 ∧
    (Repeats oneBlockAnalyzed ↔ ∀ b ∈ oneBlockAnalyzed.blocks, (oneBlockAnalyzed.block b).loop = none) :=
  ⟨oneBlockAnalyzed_history, oneBlockAnalyzed_analyzable, repeats_iff oneBlockAnalyzed_history oneBlockAnalyzed_analyzable⟩

/-- The root of the second run has that of the first run inside, which still has the block. -/
theorem oneBlock_not_repeated : History oneBlockAnalyzed ∧ Analyzable (fresh oneBlockAnalyzed) 0 ∧
    ¬ Repeats oneBlockAnalyzed := by
  refine ⟨oneBlockAnalyzed_history, oneBlockAnalyzed_analyzable, ?_⟩
  rintro ⟨g', f', M, hg', hf', hs⟩
  have hg : (analyze oneBlockAnalyzed).map (fun g => ((g.block 0).loop, g.loopTreeRoot)) = some (some 0, some 1) := by decide
  have hf : (analyze (fresh oneBlockAnalyzed)).map (fun g => ((g.block 0).loop, g.loopTreeRoot)) = some (some 0, some 0) := by
    decide
  rw [hg', Option.map_some, Option.some.injEq, Prod.mk.injEq] at hg
  rw [hf', Option.map_some, Option.some.injEq, Prod.mk.injEq] at hf
  have hblock := hs.block 0 (by decide)
  have hroot := hs.root
  rw [hg.1, hf.1] at hblock
  rw [hg.2, hf.2] at hroot
  cases hblock with
  | some h₀ =>
      cases hroot with
      | some h₁ => exact absurd ((hs.unique 0 1 0 0 h₀ h₁).2 rfl) (by decide)

end CompilerLab.Jit.LoopAnalyzer
