import CompilerLab.Jit.Lemmas.LinearOrdering
import CompilerLab.Jit.Lemmas.LoopHeaders

/-!
# What the steps of the linear ordering queue

A block is put into the queue when it is not visited and waits for no other block. A jump on an edge to a visited block
is the next block to visit.
-/

namespace CompilerLab.Jit

namespace Graph

open CompilerLab.Lib

variable {g g' : Graph} {b i n p c : Nat}

/-! ## A jump on an edge -/

theorem InstrsOnly.setPrev (g : Graph) (i p) : InstrsOnly g (g.setPrev i p) := .modifyInstr ..

theorem InstrsOnly.setNext (g : Graph) (i p) : InstrsOnly g (g.setNext i p) := .modifyInstr ..

theorem pushPhi_instrsOnly : InstrsOnly g (g.pushPhi b i) := by
  unfold pushPhi
  split
  · dsimp only
    split
    · exact .trans (.modifyBlock (by intro; rfl)) (.trans (.setNext ..) (.setPrev ..))
    · exact .trans (.modifyBlock (by intro; rfl)) (.setNext ..)
  · exact .trans (.setNext ..) (.trans (.setPrev ..) (.modifyBlock (by intro; rfl)))

theorem pushInstruction_instrsOnly {back : Bool} (h : pushInstruction back g b i = some g') : InstrsOnly g g' := by
  simp only [pushInstruction, Option.bind_eq_bind, ASSERT_bind] at h
  obtain ⟨-, -, h⟩ := h
  have hparent : InstrsOnly g (g.setParent i (some b)) := .modifyInstr ..
  refine hparent.trans ?_
  split at h
  · cases h
    exact .trans pushPhi_instrsOnly (.modifyBlock (by intro; rfl))
  split at h
  · split at h
    · cases h
      exact .trans (.setPrev ..) (.trans (.modifyBlock (by intro; rfl)) (.trans (.setNext ..) (.modifyBlock (by intro; rfl))))
    · cases h
      exact .trans (.setPrev ..) (.trans (.modifyBlock (by intro; rfl)) (.modifyBlock (by intro; rfl)))
  split at h
  · simp only [Option.bind_eq_some_iff, Option.some.injEq] at h
    obtain ⟨last, -, _, rfl, h⟩ := h
    cases h
    exact .trans (.setPrev ..) (.trans (.setNext ..) (.trans (.modifyBlock (by intro; rfl)) (.modifyBlock (by intro; rfl))))
  · cases h
    exact .trans (.setNext ..) (.trans (.setPrev ..) (.trans (.modifyBlock (by intro; rfl)) (.modifyBlock (by intro; rfl))))

/-- A jump has been put on the edge from `p` to `c`: the two blocks have it as their neighbour. -/
structure PutsJump (g : Graph) (p c : Nat) (g' : Graph) : Prop where
  new : (g'.block g.blockCount).preds = [p] ∧ (g'.block g.blockCount).succs = [c] ∧
    (g'.block g.blockCount).dominator = none
  succs : ∀ b, b ≠ g.blockCount → (g'.block b).succs = if b = p then (g.block p).succs.replace c g.blockCount else (g.block b).succs
  preds : ∀ b, b ≠ g.blockCount → (g'.block b).preds = if b = c then (g.block c).preds.replace p g.blockCount else (g.block b).preds
  loop : ∀ b, b ≠ g.blockCount → (g'.block b).loop = (g.block b).loop
  dominator : ∀ b, b ≠ g.blockCount → (g'.block b).dominator = (g.block b).dominator
  blockCount : g'.blockCount = g.blockCount + 1
  bblocks : g'.bblocks = g.bblocks ++ [some g.blockCount]
  firstBlock : g'.firstBlock = g.firstBlock
  loops : ∀ l, (g'.loop l).header = (g.loop l).header ∧ (g'.loop l).isIrreducible = (g.loop l).isIrreducible

theorem InstrsOnly.fields (h : InstrsOnly g g') (c : Nat) : (g'.block c).succs = (g.block c).succs ∧
    (g'.block c).preds = (g.block c).preds ∧ (g'.block c).loop = (g.block c).loop ∧
      (g'.block c).dominator = (g.block c).dominator := by
  have hc := h.block c
  simp only [BasicBlock.withoutList, BasicBlock.mk.injEq] at hc
  tauto

theorem InstrsOnly.rest (h : InstrsOnly g g') : g'.blockCount = g.blockCount ∧ g'.bblocks = g.bblocks ∧
    g'.firstBlock = g.firstBlock ∧ g'.loop = g.loop := by
  have hcount := congrArg Graph.blockCount h.graph
  have hbblocks := congrArg Graph.bblocks h.graph
  have hfirst := congrArg Graph.firstBlock h.graph
  have hloop := congrArg Graph.loop h.graph
  exact ⟨hcount, hbblocks, hfirst, hloop⟩

theorem insertBetween_edge (hpn : p ≠ n) (hcn : c ≠ n) (hnew : (g.block n).preds = [] ∧ (g.block n).succs = [])
    (h : g.insertBetween n p c = some g') :
    (∀ b, (g'.block b).succs = (if b = n then [c] else if b = p then (g.block p).succs.replace c n else (g.block b).succs) ∧
      (g'.block b).preds = (if b = n then [p] else if b = c then (g.block c).preds.replace p n else (g.block b).preds) ∧
      (g'.block b).loop = (g.block b).loop ∧ (g'.block b).dominator = (g.block b).dominator) ∧
    g'.blockCount = g.blockCount ∧ g'.bblocks = g.bblocks ∧ g'.firstBlock = g.firstBlock ∧ g'.loop = g.loop := by
  simp only [insertBetween, replaceSuccessor, addPredecessor, replacePredecessor, addSuccessor, Option.bind_eq_bind,
    Option.bind_eq_some_iff, ASSERT_eq_some, exists_const, Option.pure_def, Option.some.injEq] at h
  obtain ⟨_, ⟨-, rfl⟩, _, ⟨-, rfl⟩, _, ⟨-, rfl⟩, g₁, ⟨-, -, hg₁⟩, h⟩ := h
  have hphis : InstrsOnly g₁ g' := by
    split at h
    · cases h
      exact .refl _
    · rw [ASSERT_bind] at h
      refine forPhi_instrsOnly (fun g phi g' hg => ?_) h.2
      obtain ⟨-, rfl⟩ := replaceSourceBasicBlock_eq_some.1 hg
      exact .modifyInstr ..
  refine ⟨fun b => ?_, ?_⟩
  · obtain ⟨hs, hp, hl, hd⟩ := hphis.fields b
    obtain ⟨hpreds, hsuccs⟩ := hnew
    rw [hs, hp, hl, hd, ← hg₁]
    simp only [modifyBlock_block]
    by_cases hbn : b = n
    · subst hbn
      simp [hpn.symm, hcn.symm, hpreds, hsuccs]
    · by_cases hbp : b = p <;> by_cases hbc : b = c <;> simp_all
  · obtain ⟨h₁, h₂, h₃, h₄⟩ := hphis.rest
    rw [h₁, h₂, h₃, h₄, ← hg₁]
    exact ⟨rfl, rfl, rfl, rfl⟩

theorem insertJmpBlock_putsJump (hp : p < g.blockCount) (hc : c < g.blockCount)
    (h : LinearOrdering.State.insertJmpBlock g p c = some (g', n)) : n = g.blockCount ∧ PutsJump g p c g' := by
  simp only [LinearOrdering.State.insertJmpBlock, createJMP, createInst, List.foldl_nil, Option.bind_eq_bind,
    Option.bind_eq_some_iff, Option.pure_def, Option.some.injEq, Prod.mk.injEq] at h
  obtain ⟨⟨g₁, m⟩, h₁, g₂, h₂, l, -, g₃, h₃, g₄, h₄, rfl, rfl⟩ := h
  have hpush := pushInstruction_instrsOnly h₂
  have hadd := (loopAddBasicBlock_frame h₃).1
  have new := createEmptyBasicBlock_addsBlock (fun ht => by rw [beq_iff_eq.1 ht]; rfl) h₁
  obtain rfl : m = g.blockCount := new.eq
  have hlast : (g.lastBlock == some c) = false := by
    -- a block made for a jump to the last block already has it as its successor
    by_contra hlast
    rw [Bool.not_eq_false] at hlast
    refine (insertBetween_splitsEdge hp.ne h₄).new ?_
    rw [(hadd g.blockCount).1, (hpush.fields g.blockCount).1, new.succs_new, if_pos hlast, beq_iff_eq.1 hlast]
    exact List.mem_singleton_self c
  rw [hlast] at h₁
  obtain rfl : g.newBasicBlock.1 = g₁ := (Prod.mk.inj (Option.some.inj h₁)).1
  have block := g.newBasicBlock_block
  simp only [loopAddBasicBlock, Option.bind_eq_bind, ASSERT_bind, Option.pure_def, Option.some.injEq] at h₃
  obtain ⟨-, h₃⟩ := h₃
  have hblock₃ : ∀ b, (g₃.block b).succs = (g.newBasicBlock.1.block b).succs ∧
      (g₃.block b).preds = (g.newBasicBlock.1.block b).preds ∧
        (b ≠ g.blockCount → (g₃.block b).loop = (g.newBasicBlock.1.block b).loop) ∧
          (g₃.block b).dominator = (g.newBasicBlock.1.block b).dominator := by
    intro b
    obtain ⟨hs, hp, hl, hd⟩ := hpush.fields b
    rw [← hs, ← hp, ← hl, ← hd, ← h₃]
    by_cases hb : b = g.blockCount <;> simp [hb]
  have hloops : ∀ l, (g₃.loop l).header = (g.loop l).header ∧ (g₃.loop l).isIrreducible = (g.loop l).isIrreducible := by
    intro k
    have hloop : g₂.loop = g.loop := hpush.rest.2.2.2
    rw [← h₃, modifyLoop_loop, modifyBlock_loop, hloop]
    split
    · next hk => exact hk ▸ ⟨rfl, rfl⟩
    · exact ⟨rfl, rfl⟩
  have hnew : (g₃.block g.blockCount).preds = [] ∧ (g₃.block g.blockCount).succs = [] := by
    obtain ⟨hs, hp, -, -⟩ := hblock₃ g.blockCount
    simp [hs, hp, block]
  obtain ⟨hblock₄, hcount, hbblocks, hfirst, hloop⟩ := insertBetween_edge hp.ne hc.ne hnew h₄
  obtain ⟨hcount₂, hbblocks₂, hfirst₂, -⟩ := hpush.rest
  refine ⟨rfl, ⟨?_, fun b hb => ?_, fun b hb => ?_, fun b hb => ?_, fun b hb => ?_, ?_, ?_, ?_, fun l => ?_⟩⟩
  · obtain ⟨hs, hp, -, hd⟩ := hblock₄ g.blockCount
    simp [hs, hp, hd, (hblock₃ g.blockCount).2.2.2, block]
  · rw [(hblock₄ b).1, (hblock₃ b).1, (hblock₃ p).1]
    simp [hb, block, hp.ne]
  · rw [(hblock₄ b).2.1, (hblock₃ b).2.1, (hblock₃ c).2.1]
    simp [hb, block, hc.ne]
  · rw [(hblock₄ b).2.2.1, (hblock₃ b).2.2.1 hb]
    simp [hb, block]
  · rw [(hblock₄ b).2.2.2, (hblock₃ b).2.2.2]
    simp [hb, block]
  · rw [hcount, ← h₃]
    exact hcount₂
  · rw [hbblocks, ← h₃]
    exact hbblocks₂
  · rw [hfirst, ← h₃]
    exact hfirst₂
  · rw [hloop]
    exact hloops l

/-! ## An inverted branch -/

theorem inverseConditionalBranch_frame {t f : Nat} (hs : (g.block b).succs = [t, f])
    (h : g.inverseConditionalBranch b = some g') :
    (∀ c, g'.block c = { g.block c with succs := if c = b then [f, t] else (g.block c).succs }) ∧
      g'.blockCount = g.blockCount ∧ g'.blocks = g.blocks ∧ g'.firstBlock = g.firstBlock ∧ g'.loop = g.loop := by
  obtain ⟨cmp, -, rfl⟩ := inverseConditionalBranch_eq_some.1 h
  refine ⟨fun c => ?_, rfl, rfl, rfl, rfl⟩
  rw [modifyBlock_block]
  split
  · next hcb =>
      subst hcb
      simp only [Graph.inverse, modifyInstr_block, hs]
  · rfl

end Graph

namespace LinearOrdering

variable {s s' : State} {a : Action} {g : Graph} {b h l t f x y : Nat} {q q' : List Nat}

/-! ## The queue -/

/-- The loop of `x` is inside the loop of `y`: `addIntoQueue` puts `x` before `y`. -/
def State.Deeper (s : State) (x y : Nat) : Prop :=
  ∃ l m, (s.graph.block x).loop = some l ∧ (s.graph.block y).loop = some m ∧ s.graph.isIn l m = true

/-- What `addIntoQueue` makes of the queue. -/
inductive State.Adds (s : State) (x : Nat) (q : List Nat) : List Nat → Prop
  | skip (h : s.visited x = true ∨ s.unvisitedForwardEdgesExist x = some true) : Adds s x q q
  | insert {l : Nat} {q' : List Nat} (hv : s.visited x = false) (hu : s.unvisitedForwardEdgesExist x = some false)
      (hl : (s.graph.block x).loop = some l) (hq : State.insertByLoop s.graph l x q = some q') : Adds s x q q'

theorem State.addIntoQueue_adds (h : s.addIntoQueue x = some s') :
    ∃ q, s.Adds x s.remainedBlocks q ∧ s' = { s with remainedBlocks := q } := by
  simp only [State.addIntoQueue, Option.bind_eq_bind, Option.pure_def] at h
  split at h
  · next hv =>
      cases h
      exact ⟨_, .skip (.inl hv), rfl⟩
  · next hv =>
      simp only [Option.bind_eq_some_iff] at h
      obtain ⟨u, hu, h⟩ := h
      split at h
      · next hu' =>
          cases h
          exact ⟨_, .skip (.inr (hu' ▸ hu)), rfl⟩
      · next hu' =>
          simp only [Option.bind_eq_some_iff, Option.some.injEq] at h
          obtain ⟨l, hl, q, hq, rfl⟩ := h
          rw [Bool.not_eq_true] at hv hu'
          exact ⟨q, .insert hv (hu' ▸ hu) hl hq, rfl⟩

theorem mem_insertByLoop (h : State.insertByLoop g l x q = some q') : y ∈ q' ↔ y = x ∨ y ∈ q := by
  induction q generalizing q' with
  | nil =>
      cases h
      simp
  | cons b q ih =>
      simp only [State.insertByLoop, Option.bind_eq_bind, Option.bind_eq_some_iff, Option.pure_def] at h
      obtain ⟨m, -, h⟩ := h
      split at h
      · cases h
        simp
      · simp only [Option.bind_eq_some_iff, Option.some.injEq] at h
        obtain ⟨r, hr, rfl⟩ := h
        rw [List.mem_cons, ih hr, List.mem_cons]
        tauto

theorem head_insertByLoop (hx : (s.graph.block x).loop = some l) (h : State.insertByLoop s.graph l x q = some q') :
    (q'.head? = some x ∧ ∀ y ∈ q.head?, s.Deeper x y) ∨ ∃ y, q.head? = some y ∧ q'.head? = some y ∧ ¬ s.Deeper x y := by
  cases q with
  | nil =>
      cases h
      exact .inl ⟨rfl, by simp⟩
  | cons b q =>
      simp only [State.insertByLoop, Option.bind_eq_bind, Option.bind_eq_some_iff, Option.pure_def] at h
      obtain ⟨m, hm, h⟩ := h
      split at h
      · next hin =>
          cases h
          exact .inl ⟨rfl, by simpa using ⟨l, m, hx, hm, hin⟩⟩
      · next hin =>
          simp only [Option.bind_eq_some_iff, Option.some.injEq] at h
          obtain ⟨r, -, rfl⟩ := h
          refine .inr ⟨b, rfl, rfl, ?_⟩
          rintro ⟨l', m', hl', hm', hin'⟩
          obtain rfl := Option.some.inj (hx.symm.trans hl')
          obtain rfl := Option.some.inj (hm.symm.trans hm')
          exact hin hin'

namespace State.Adds

theorem subset (h : s.Adds x q q') (hy : y ∈ q') : y = x ∨ y ∈ q := by
  cases h with
  | skip _ => exact .inr hy
  | insert _ _ _ hq => exact (mem_insertByLoop hq).1 hy

theorem mem (h : s.Adds x q q') (hy : y ∈ q) : y ∈ q' := by
  cases h with
  | skip _ => exact hy
  | insert _ _ _ hq => exact (mem_insertByLoop hq).2 (.inr hy)

theorem congr (h : s'.Adds x q q') (hg : s'.graph = s.graph) (hv : s'.visited = s.visited) : s.Adds x q q' := by
  have hu : s'.unvisitedForwardEdgesExist x = s.unvisitedForwardEdgesExist x := by
    rw [unvisitedForwardEdgesExist, unvisitedForwardEdgesExist, hg, hv]
  cases h with
  | skip h => exact .skip (by rwa [← hu, ← hv])
  | insert hv' hu' hl hq => exact .insert (hv ▸ hv') (hu ▸ hu') (hg ▸ hl) (hg ▸ hq)

/-- A block is put off only when it is visited or waits for another one. -/
theorem self (h : s.Adds x q q') (hx : x ∉ q') : s.visited x = true ∨ s.unvisitedForwardEdgesExist x = some true := by
  cases h with
  | skip h => exact h
  | insert _ _ _ hq => exact absurd ((mem_insertByLoop hq).2 (.inl rfl)) hx

/-- When the block is at the front of the queue. -/
theorem head_eq_self (h : s.Adds x q q') (hv : s.visited x = false) : q'.head? = some x ↔ q.head? = some x ∨
    s.unvisitedForwardEdgesExist x = some false ∧ ∀ y ∈ q.head?, s.Deeper x y := by
  cases h with
  | skip h =>
      have hu := h.resolve_left fun h => Bool.false_ne_true (hv.symm.trans h)
      simp [hu]
  | insert _ hu hl hq =>
      rcases head_insertByLoop hl hq with ⟨hx, hd⟩ | ⟨y, hy, hy', hd⟩
      · exact iff_of_true hx (.inr ⟨hu, hd⟩)
      · rw [hy', hy]
        refine ⟨.inl, fun h => h.resolve_right ?_⟩
        rintro ⟨-, hall⟩
        exact hd (hall y rfl)

/-- When another block stays at the front of the queue. -/
theorem head_eq_other (h : s.Adds x q q') (hne : x ≠ y) : q'.head? = some y ↔ q.head? = some y ∧
    (s.visited x = true ∨ s.unvisitedForwardEdgesExist x = some true ∨ ¬ s.Deeper x y) := by
  cases h with
  | skip h => exact ⟨fun hy => ⟨hy, h.imp_right .inl⟩, And.left⟩
  | insert hv hu hl hq =>
      simp only [hv, hu, Bool.false_eq_true, Option.some.injEq, false_or]
      rcases head_insertByLoop hl hq with ⟨hx, hd⟩ | ⟨z, hz, hz', hd⟩
      · rw [hx, Option.some.injEq]
        exact ⟨fun hxy => absurd hxy hne, fun hy => absurd (hd y hy.1) hy.2⟩
      · rw [hz', hz, Option.some.injEq]
        exact ⟨fun hzy => ⟨hzy, hzy ▸ hd⟩, And.left⟩

end State.Adds

/-! ## The steps -/

/-- Block `b` has been taken from the queue. -/
def State.visiting (s : State) (b : Nat) (q : List Nat) (pending : Option Nat) : State :=
  { s with
    visited := Function.update s.visited b true, remainedBlocks := q, newOrder := s.newOrder ++ [b], pending }

/-- The steps with what they find and what they do. -/
inductive Moves (s : State) : Action → State → Prop
  | visitOne {b c : Nat} {rest q : List Nat} (hp : s.pending = none) (hq : s.remainedBlocks = b :: rest)
      (hv : s.visited b = false) (hs : (s.graph.block b).succs = [c])
      (h : ((s.visiting b rest none).visited c = true ∨
          (s.visiting b rest none).unvisitedForwardEdgesExist c = some true) ∧ q = rest ∨ q = c :: rest) :
      Moves s (.visit b) (s.visiting b q none)
  | visitTwo {b t f : Nat} {rest : List Nat} (hp : s.pending = none) (hq : s.remainedBlocks = b :: rest)
      (hv : s.visited b = false) (hs : (s.graph.block b).succs = [t, f]) : Moves s (.visit b) (s.visiting b rest (some b))
  | visitEnd {b : Nat} {rest : List Nat} (hp : s.pending = none) (hq : s.remainedBlocks = b :: rest)
      (hv : s.visited b = false) (hs : (s.graph.block b).succs = [] ∨ 2 < (s.graph.block b).succs.length) :
      Moves s (.visit b) (s.visiting b rest none)
  | jump {b t f n : Nat} {g : Graph} (hp : s.pending = some b) (hs : (s.graph.block b).succs = [t, f])
      (ht : s.visited t = true) (hf : s.visited f = true) (h : State.insertJmpBlock s.graph b f = some (g, n)) :
      Moves s (.jump b)
        { s with graph := g, remainedBlocks := n :: s.remainedBlocks, cfgChanged := true, pending := none }
  | inverse {b t f : Nat} {g : Graph} (hp : s.pending = some b) (hs : (s.graph.block b).succs = [t, f])
      (h : s.graph.inverseConditionalBranch b = some g) : Moves s (.inverse b) { s with graph := g }
  | queue {b t f : Nat} {q q' : List Nat} (hp : s.pending = some b) (hs : (s.graph.block b).succs = [t, f])
      (hf : s.visited f = false)
      (h : (s.graph.block f).loop ≠ (s.graph.block b).loop ∧ s.Adds f s.remainedBlocks q ∨
        (s.graph.block f).loop = (s.graph.block b).loop ∧ q = f :: s.remainedBlocks)
      (h' : s.Adds t q q') : Moves s (.queue b) { s with remainedBlocks := q', pending := none }

theorem State.visitBlock_moves {rest : List Nat} (hp : s.pending = none) (hq : s.remainedBlocks = b :: rest)
    (h : s.visitBlock b rest = some (a, s')) : Moves s a s' := by
  simp only [State.visitBlock, Option.bind_eq_bind, ASSERT_bind, Option.pure_def] at h
  obtain ⟨hv, h⟩ := h
  have hvisit : ∀ q p, { s with
      visited := Function.update s.visited b true, remainedBlocks := q, newOrder := s.newOrder ++ [b], pending := p } =
        s.visiting b q p := fun _ _ => rfl
  simp only [hvisit, hp] at h
  split at h
  · next c hs =>
      split at h
      · next hc =>
          cases h
          exact .visitOne hp hq hv hs (.inl ⟨.inl hc, rfl⟩)
      · simp only [Option.bind_eq_some_iff] at h
        obtain ⟨u, hu, h⟩ := h
        split at h
        · next hu' =>
            cases h
            exact .visitOne hp hq hv hs (.inl ⟨.inr (hu' ▸ hu), rfl⟩)
        · cases h
          exact .visitOne hp hq hv hs (.inr rfl)
  · next hs =>
      cases h
      exact .visitTwo hp hq hv hs
  · next hone htwo =>
      cases h
      refine .visitEnd hp hq hv ?_
      rcases hs : (s.graph.block b).succs with _ | ⟨c, _ | ⟨t, _ | ⟨f, l⟩⟩⟩
      · exact .inl rfl
      · exact absurd hs (hone c)
      · exact absurd hs (htwo c t)
      · exact .inr (by simp)

theorem State.queueCond_moves (hp : s.pending = some b) (h : s.queueCond b = some (a, s')) : Moves s a s' := by
  simp only [State.queueCond, Option.bind_eq_bind, Option.bind_eq_some_iff, ASSERT_eq_some, exists_const] at h
  obtain ⟨l, hl, h2, t, ht, f, hf, h⟩ := h
  have hs : (s.graph.block b).succs = [t, f] := by
    obtain ⟨t', f', hs⟩ := List.length_eq_two.1 h2
    rw [hs] at ht hf ⊢
    rw [Option.some.inj ht, Option.some.inj hf]
  split at h
  · next hboth =>
      simp only [Option.bind_eq_some_iff, Option.pure_def, Option.some.injEq, Prod.mk.injEq] at h
      obtain ⟨⟨g, n⟩, hj, rfl, rfl⟩ := h
      exact .jump hp hs hboth.2 hboth.1 hj
  · next hboth =>
      simp only [Option.bind_eq_some_iff] at h
      obtain ⟨m, hm, h⟩ := h
      split at h
      · simp only [Option.bind_eq_some_iff, Option.pure_def, Option.some.injEq, Prod.mk.injEq] at h
        obtain ⟨g, hg, rfl, rfl⟩ := h
        exact .inverse hp hs hg
      · next hm' =>
          have hfv : s.visited f = false := by
            -- a visited false successor would have been exchanged for the true one
            by_contra hfv
            rw [Bool.not_eq_false] at hfv
            have htv : s.visited t = false := Bool.eq_false_iff.2 fun htv => hboth ⟨hfv, htv⟩
            simp only [State.mustInverseCondition, hs, hl, htv, hfv, Option.bind_eq_bind, Option.bind_some,
              List.getElem?_cons_zero, List.getElem?_cons_succ, Bool.false_eq_true, if_false, if_true, Option.pure_def,
              Option.some.injEq] at hm
            exact hm' hm.symm
          split at h
          · next hloop =>
              simp only [Option.bind_eq_some_iff, Option.pure_def, Option.some.injEq, Prod.mk.injEq] at h
              obtain ⟨s₁, h₁, s₂, h₂, rfl, rfl⟩ := h
              obtain ⟨q, hadd, rfl⟩ := addIntoQueue_adds h₁
              obtain ⟨q', hadd', rfl⟩ := addIntoQueue_adds h₂
              exact .queue hp hs hfv (.inl ⟨hl ▸ hloop, hadd.congr rfl rfl⟩) (hadd'.congr rfl rfl)
          · next hloop =>
              simp only [Option.bind_some, Option.bind_eq_some_iff, Option.pure_def, Option.some.injEq,
                Prod.mk.injEq] at h
              obtain ⟨s₂, h₂, rfl, rfl⟩ := h
              obtain ⟨q', hadd', rfl⟩ := addIntoQueue_adds h₂
              exact .queue hp hs hfv (.inr ⟨hl ▸ not_not.1 hloop, rfl⟩) (hadd'.congr rfl rfl)

theorem step_moves (h : Step s a s') : Moves s a s' := by
  unfold Step State.step at h
  split at h
  · next hp => exact State.queueCond_moves hp h
  · next hp hq => exact State.visitBlock_moves hp hq h
  · cases h

end LinearOrdering

end CompilerLab.Jit
