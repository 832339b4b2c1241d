import CompilerLab.Jit.Theorems.LinearOrder
import Mathlib.Algebra.BigOperators.Group.Finset.Basic

/-!
# Termination of the linear ordering

Every step visits a block, makes a jump, which is the next block to visit, or is done with a branch, unless it inverts a
branch. A branch is inverted a second time only when each of its successors is to come before the other one, and then it is
inverted for ever.
-/

namespace CompilerLab.Jit.LinearOrdering

open CompilerLab.Lib Graph

variable {g g' : Graph} {first b c f l t x y n : Nat} {s s' s₀ : State} {a : Action} {as : List Action} {order : List Nat}

/-- Branch `b` in the loop `l` is to be inverted whichever of its successors is the false one: `x` in the loop waits for
another block, and `y` outside waits for none. -/
structure State.Undecided (s : State) (b x y l : Nat) : Prop where
  pending : s.pending = some b
  succs : (s.graph.block b).succs = [x, y] ∨ (s.graph.block b).succs = [y, x]
  unvisited : s.visited x = false ∧ s.visited y = false
  loop : (s.graph.block b).loop = some l ∧ (s.graph.block x).loop = some l ∧ (s.graph.block y).loop ≠ some l
  waits : s.unvisitedForwardEdgesExist x = some true ∧ s.unvisitedForwardEdgesExist y = some false
  branch : (s.graph.inverseConditionalBranch b).isSome

/-! ## Inversions -/

theorem State.mustInverseCondition_eq_true (hs : (s.graph.block b).succs = [t, f]) (ht : s.visited t = false)
    (hf : s.visited f = false) : s.mustInverseCondition b = some true ↔ ∃ l, (s.graph.block b).loop = some l ∧
      ((s.graph.block f).loop ≠ some l ∧ (s.graph.block t).loop = some l ∨
        s.unvisitedForwardEdgesExist f = some true ∧ s.unvisitedForwardEdgesExist t = some false) := by
  simp only [mustInverseCondition, hs, ht, hf, Option.bind_eq_bind, Option.bind_eq_some_iff, List.getElem?_cons_zero,
    List.getElem?_cons_succ, Option.some.injEq, exists_eq_left', Bool.false_eq_true, if_false, Option.pure_def]
  refine exists_congr fun l => and_congr_right fun _ => ?_
  split
  · next h => simp [h]
  · next h =>
      simp only [Option.bind_eq_some_iff, h, false_or]
      constructor
      · rintro ⟨u, hu, h⟩
        cases u with
        | false => cases h
        | true =>
            simp only [if_true, Option.bind_eq_some_iff, Option.some.injEq] at h
            obtain ⟨v, hv, h⟩ := h
            rw [Bool.not_eq_true'] at h
            exact ⟨hu, h ▸ hv⟩
      · rintro ⟨hu, hv⟩
        exact ⟨true, hu, by simp [hv]⟩

theorem State.mustInverseCondition_visited (hs : (s.graph.block b).succs = [t, f]) (ht : s.visited t = true) :
    s.mustInverseCondition b ≠ some true := by
  cases hl : (s.graph.block b).loop <;> simp [mustInverseCondition, hs, ht, hl]

theorem queueCond_inverse (h : Step s (.inverse b) s') : ∃ g', s.pending = some b ∧
    s.mustInverseCondition b = some true ∧ s.graph.inverseConditionalBranch b = some g' ∧ s' = { s with graph := g' } := by
  unfold Step State.step at h
  split at h
  · next c hp =>
      simp only [State.queueCond, Option.bind_eq_bind, Option.bind_eq_some_iff, ASSERT_eq_some, exists_const] at h
      obtain ⟨_, -, -, _, -, _, -, h⟩ := h
      split at h
      · simp [Option.bind_eq_some_iff] at h
      simp only [Option.bind_eq_some_iff] at h
      obtain ⟨m, hm, h⟩ := h
      split at h
      · next hm' =>
          simp only [Option.bind_eq_some_iff, Option.pure_def, Option.some.injEq, Prod.mk.injEq, Action.inverse.injEq] at h
          obtain ⟨g', hg', rfl, rfl⟩ := h
          exact ⟨g', hp, hm' ▸ hm, hg', rfl⟩
      · split at h <;> simp [Option.bind_eq_some_iff] at h
  · next b' rest hp hq =>
      cases State.visitBlock_moves hp hq h with
      | inverse hp' => cases hp.symm.trans hp'
  · cases h

theorem unvisitedForwardEdgesExist_inverse (hs : (s.graph.block b).succs = [t, f])
    (hi : s.graph.inverseConditionalBranch b = some g') :
    ({ s with graph := g' } : State).unvisitedForwardEdgesExist c = s.unvisitedForwardEdgesExist c := by
  obtain ⟨hblock, hcount, -, -, hloop⟩ := inverseConditionalBranch_frame hs hi
  have hheader : ∀ c, g'.isLoopHeader c = s.graph.isLoopHeader c := fun c => by
    simp [isLoopHeader, hblock, hloop]
  have hdom : ∀ c d, g'.dominates c d = s.graph.dominates c d := fun c d =>
    dominates_congr (fun c => by rw [hblock]) hcount
  simp [State.unvisitedForwardEdgesExist, hheader, hdom, hblock, hloop]

/-- An inverted branch can be inverted again. -/
theorem inverseConditionalBranch_again (hs : (g.block b).succs = [t, f]) (hi : g.inverseConditionalBranch b = some g') :
    (g'.inverseConditionalBranch b).isSome := by
  obtain ⟨cmp, hc, rfl⟩ := inverseConditionalBranch_eq_some.1 hi
  obtain ⟨j, hl, hj, hp, hcmp⟩ := endsWithConditionalJump_eq_some hc
  have again : ∀ u : BasicBlock → BasicBlock, u (g.block b) = { g.block b with succs := [f, t] } →
      ((g.inverse cmp).modifyBlock b u).endsWithConditionalJump b = some (some cmp) := by
    intro u hu
    have hinstr : ∀ i, ((g.inverse cmp).instr i).opcode = (g.instr i).opcode ∧
        ((g.inverse cmp).instr i).prev = (g.instr i).prev := by
      intro i
      rw [Graph.inverse, modifyInstr_instr]
      split
      · next hi => exact hi ▸ ⟨rfl, rfl⟩
      · exact ⟨rfl, rfl⟩
    have hblock : (g.inverse cmp).block = g.block := rfl
    simp [endsWithConditionalJump, hblock, hu, hl, hinstr, hj, hp, hcmp, ASSERT_of]
  exact Option.isSome_iff_exists.2 ⟨_, inverseConditionalBranch_eq_some.2 ⟨cmp, again _ (by simp [hs]), rfl⟩⟩

/-- After an inversion the branch is left as it is, unless it is undecided. -/
theorem inverted (hs : (s.graph.block b).succs = [t, f]) (h : Step s (.inverse b) s')
    (hu : ∀ x y l, ¬ s.Undecided b x y l) : s'.mustInverseCondition b ≠ some true := by
  obtain ⟨g', hp, hm, hg', rfl⟩ := queueCond_inverse h
  obtain ⟨hblock, -, -, -, -⟩ := inverseConditionalBranch_frame hs hg'
  have hs' : (g'.block b).succs = [f, t] := by rw [hblock, if_pos rfl]
  have hloop : ∀ c, (g'.block c).loop = (s.graph.block c).loop := fun c => by rw [hblock]
  have hbranch : (s.graph.inverseConditionalBranch b).isSome := Option.isSome_of_mem hg'
  rcases Bool.eq_false_or_eq_true (s.visited t) with ht | ht
  · exact absurd hm (State.mustInverseCondition_visited hs ht)
  rcases Bool.eq_false_or_eq_true (s.visited f) with hf | hf
  · exact State.mustInverseCondition_visited hs' hf
  intro hm'
  obtain ⟨l, hl, hcase⟩ := (State.mustInverseCondition_eq_true hs ht hf).1 hm
  obtain ⟨l', hl', hcase'⟩ := (State.mustInverseCondition_eq_true (s := { s with graph := g' }) hs' hf ht).1 hm'
  simp only [hloop, unvisitedForwardEdgesExist_inverse hs hg'] at hl' hcase'
  obtain rfl := Option.some.inj (hl.symm.trans hl')
  rcases hcase with ⟨hfl, htl⟩ | ⟨hfw, htw⟩ <;> rcases hcase' with ⟨htl', hfl'⟩ | ⟨htw', hfw'⟩
  · exact htl' htl
  · exact hu t f l ⟨hp, .inl hs, ⟨ht, hf⟩, ⟨hl, htl, hfl⟩, ⟨htw', hfw'⟩, hbranch⟩
  · exact hu f t l ⟨hp, .inr hs, ⟨hf, ht⟩, ⟨hl, hfl', htl'⟩, ⟨hfw, htw⟩, hbranch⟩
  · cases hfw.symm.trans hfw'

/-- An undecided branch is inverted and stays undecided. -/
theorem State.Undecided.step (h : s.Undecided b x y l) : ∃ a s', Step s a s' ∧ s'.Undecided b x y l := by
  obtain ⟨g', hg'⟩ := Option.isSome_iff_exists.1 h.branch
  obtain ⟨hx, hy⟩ := h.unvisited
  obtain ⟨hl, hxl, hyl⟩ := h.loop
  -- both orders of the successors are to be inverted
  have both : ∀ t f, (s.graph.block b).succs = [t, f] → s.visited f = false → s.mustInverseCondition b = some true →
      Step s (.inverse b) { s with graph := g' } := by
    intro t f hs hf hm
    simp [Step, State.step, State.queueCond, h.pending, hl, hs, hf, hm, hg', ASSERT_of]
  have keeps : ∀ t f, (s.graph.block b).succs = [t, f] →
      ((g'.block b).succs = [x, y] ∨ (g'.block b).succs = [y, x]) →
        ({ s with graph := g' } : State).Undecided b x y l := by
    intro t f hs hs'
    obtain ⟨hblock, -, -, -, -⟩ := inverseConditionalBranch_frame hs hg'
    have hloop : ∀ c, (g'.block c).loop = (s.graph.block c).loop := fun c => by rw [hblock]
    refine ⟨h.pending, hs', h.unvisited, ?_, ?_, inverseConditionalBranch_again hs hg'⟩
    · simp only [hloop]
      exact h.loop
    · simp only [unvisitedForwardEdgesExist_inverse hs hg']
      exact h.waits
  rcases h.succs with hs | hs
  · refine ⟨_, _, both x y hs hy ?_, keeps x y hs (.inr ?_)⟩
    · exact (State.mustInverseCondition_eq_true hs hx hy).2 ⟨l, hl, .inl ⟨hyl, hxl⟩⟩
    · rw [(inverseConditionalBranch_frame hs hg').1, if_pos rfl]
  · refine ⟨_, _, both y x hs hx ?_, keeps y x hs (.inl ?_)⟩
    · exact (State.mustInverseCondition_eq_true hs hy hx).2 ⟨l, hl, .inr h.waits⟩
    · rw [(inverseConditionalBranch_frame hs hg').1, if_pos rfl]

/-! ## What the steps use up -/

/-- What is left to do for the blocks below `n`: a jump is made for a branch at most, and queued at once. -/
def remaining (g : Graph) (V : Nat → Bool) (n : Nat) : Nat :=
  ∑ b ∈ Finset.range n, if V b then 0 else if b < g.blockCount then 4 else 1

/-- What is left to do for the branch whose successors are to be queued. -/
def State.branchSteps (s : State) : Nat :=
  match s.pending with
  | none => 0
  | some b => if s.mustInverseCondition b = some true then 3 else 2

/-- What is left to do. -/
def State.left (g : Graph) (s : State) : Nat := remaining g s.visited s.graph.blockCount + s.branchSteps

theorem State.branchSteps_none (h : s.pending = none) : s.branchSteps = 0 := by simp [branchSteps, h]

theorem State.branchSteps_some (h : s.pending = some b) :
    s.branchSteps = if s.mustInverseCondition b = some true then 3 else 2 := by
  simp only [branchSteps, h]

theorem State.branchSteps_le (s : State) : s.branchSteps ≤ 3 := by
  unfold branchSteps
  split
  · exact Nat.zero_le 3
  · split <;> omega

theorem State.two_le_branchSteps (h : s.pending = some b) : 2 ≤ s.branchSteps := by
  rw [branchSteps_some h]
  split <;> omega

theorem remaining_visit {V : Nat → Bool} (hb : b < n) (hv : V b = false) :
    remaining g (Function.update V b true) n + (if b < g.blockCount then 4 else 1) = remaining g V n := by
  have hmem : b ∈ Finset.range n := Finset.mem_range.2 hb
  have hrest : ∀ c ∈ (Finset.range n).erase b, (if Function.update V b true c then 0 else if c < g.blockCount then 4 else 1) =
      if V c then 0 else if c < g.blockCount then 4 else 1 := by
    intro c hc
    rw [Function.update_of_ne (Finset.ne_of_mem_erase hc)]
  rw [remaining, remaining, ← Finset.add_sum_erase _ _ hmem, ← Finset.add_sum_erase (Finset.range n) _ hmem,
    Finset.sum_congr rfl hrest, Function.update_self, hv]
  simp only [if_true, Bool.false_eq_true, if_false]
  omega

theorem remaining_jump (V : Nat → Bool) (h : g.blockCount ≤ n) : remaining g V (n + 1) ≤ remaining g V n + 1 := by
  rw [remaining, Finset.sum_range_succ, remaining]
  split <;> simp [h.not_gt]

/-- A step that does not invert an undecided branch leaves less to do. -/
theorem Arranging.left_lt (hg : Arranged g first order) (h : Arranging g first s) (hstep : Step s a s')
    (hu : ∀ b x y l, ¬ s.Undecided b x y l) : s'.left g + 1 ≤ s.left g := by
  have he := h.extended
  -- a block that is taken from the queue
  have visit : ∀ {b : Nat} {rest q : List Nat} {p : Option Nat}, s.pending = none → s.remainedBlocks = b :: rest →
      s.visited b = false → (b ∈ g.blocks ∨ p = none) → (s.visiting b q p).left g + 1 ≤ s.left g := by
    intro b rest q p hp hq hv hcost
    have hlt : b < s.graph.blockCount := he.lt hg (he.queued b (.inr (by simp [hq])))
    have hrem := remaining_visit (g := g) hlt hv
    have hcount : (s.visiting b q p).left g =
      remaining g (Function.update s.visited b true) s.graph.blockCount + (s.visiting b q p).branchSteps := rfl
    rw [hcount, State.left, State.branchSteps_none hp]
    rcases hcost with hb | hp'
    · rw [if_pos (hg.connected.lt b hb)] at hrem
      have := (s.visiting b q p).branchSteps_le
      omega
    · have hzero : (s.visiting b q p).branchSteps = 0 := State.branchSteps_none hp'
      split at hrem <;> omega
  cases step_moves hstep with
  | @visitOne b c rest q hp hq hv _ _ => exact visit hp hq hv (.inr rfl)
  | @visitTwo b t f rest hp hq hv hs => exact visit hp hq hv (.inl (he.mem_of_two (he.queued b (.inr (by simp [hq]))) hs))
  | @visitEnd b rest hp hq hv _ => exact visit hp hq hv (.inr rfl)
  | @jump b t f n g₁ hp _ _ hf hj =>
      obtain ⟨-, hput, -⟩ := he.jump hg hp hf hj
      have hjump := remaining_jump (g := g) s.visited he.blockCount
      have htwo := State.two_le_branchSteps hp
      change remaining g s.visited g₁.blockCount + 0 + 1 ≤ remaining g s.visited s.graph.blockCount + s.branchSteps
      rw [hput.blockCount]
      omega
  | @inverse b t f g₁ hp hs hi =>
      have hnot := inverted hs hstep (hu b)
      obtain ⟨_, -, hm, -, -⟩ := queueCond_inverse hstep
      obtain ⟨-, hcount, -⟩ := inverseConditionalBranch_frame hs hi
      have hthree : s.branchSteps = 3 := by rw [State.branchSteps_some hp, if_pos hm]
      have hp' : ({ s with graph := g₁ } : State).pending = some b := hp
      have htwo := (State.branchSteps_some hp').trans (if_neg hnot)
      rw [State.left, State.left, hthree, htwo, hcount]
  | @queue b t f q q' hp _ _ _ _ =>
      have htwo := State.two_le_branchSteps hp
      change remaining g s.visited s.graph.blockCount + 0 + 1 ≤ remaining g s.visited s.graph.blockCount + s.branchSteps
      omega

theorem State.Undecided.endless (h : s.Undecided b x y l) (hr : Run Step s₀ as s) :
    ¬ ∃ n, ∀ as s, Run Step s₀ as s → as.length ≤ n := by
  rintro ⟨n, hn⟩
  obtain ⟨bs, s', hlen, hr', -⟩ := Run.exists_of_length (R := Step) (P := fun s => s.Undecided b x y l) h (·.step) (n + 1)
  have := hn _ _ (hr.append hr')
  rw [List.length_append, hlen] at this
  omega

/-- The ordering of a graph ends after finitely many steps exactly when no branch is undecided in any state it reaches. -/
theorem linear_ordering_terminates_iff {g₀ : Graph} (hg₀ : Arrangeable g₀ first) (ha : LoopAnalyzer.analyze g₀ = some g)
    (hs : LinearOrdering.start g = some s₀) : (∃ n, ∀ as s, Run Step s₀ as s → as.length ≤ n) ↔
      ∀ as s, Run Step s₀ as s → ∀ b x y l, ¬ s.Undecided b x y l := by
  obtain ⟨order, hg⟩ := hg₀.analyze ha
  constructor
  · exact fun hn as s hr b x y l hu => hu.endless hr hn
  · intro hu
    refine ⟨s₀.left g, fun as s hr => ?_⟩
    have := hr.length_add_le (m := State.left g) fun hr hstep => (Arranging.run hg hs hr).left_lt hg hstep (hu _ _ hr)
    omega

/-! ## An exit before a join -/

/-- `for (;;) { if (x < y) { } else { if (x < y) { } else break; } } return x;` for arguments `x` and `y`, with its dominators.
The blocks 3 and 2 are the arms of the branch in block 1, and block 4, which both lead to, ends the body of the loop. -/
def exitBeforeJoin : Graph := ofLists
  [{ opcode := .ARG, type := .I32, next := some 1, parent := some 0, users := [2, 4, 8] },
   { opcode := .ARG, type := .I32, prev := some 0, parent := some 0, users := [2, 4] },
   { opcode := .CMP, type := .I32, ccode := .LT, next := some 3, parent := some 1,
     properties := INPUT_SIDE_EFFECTS, inputs := [some 0, some 1] },
   { opcode := .JCMP, type := .I64, prev := some 2, parent := some 1, properties := CF_SIDE_EFFECTS },
   { opcode := .CMP, type := .I32, ccode := .LT, next := some 5, parent := some 2,
     properties := INPUT_SIDE_EFFECTS, inputs := [some 0, some 1] },
   { opcode := .JCMP, type := .I64, prev := some 4, parent := some 2, properties := CF_SIDE_EFFECTS },
   { opcode := .JMP, type := .I64, parent := some 3, properties := CF_SIDE_EFFECTS },
   { opcode := .JMP, type := .I64, parent := some 4, properties := CF_SIDE_EFFECTS },
   { opcode := .RET, type := .I32, parent := some 5, properties := .CF ||| .INPUT ||| .SIDE_EFFECTS,
     inputs := [some 0] }]
  [{ id := 0, succs := [1], instrsCount := 2, firstInst := some 0, lastInst := some 1, dominated := [1] },
   { id := 1, preds := [0, 4], succs := [3, 2], instrsCount := 2, firstInst := some 2, lastInst := some 3,
     dominator := some 0, dominated := [2, 3, 4] },
   { id := 2, preds := [1], succs := [4, 5], instrsCount := 2, firstInst := some 4, lastInst := some 5,
     dominator := some 1, dominated := [5] },
   { id := 3, preds := [1], succs := [4], instrsCount := 1, firstInst := some 6, lastInst := some 6, dominator := some 1 },
   { id := 4, preds := [2, 3], succs := [1], instrsCount := 1, firstInst := some 7, lastInst := some 7, dominator := some 1 },
   { id := 5, preds := [2], instrsCount := 1, firstInst := some 8, lastInst := some 8, dominator := some 2 }]
  []

theorem exitBeforeJoin_arrangeable : Arrangeable exitBeforeJoin 0 where
  connected := by constructor <;> decide
  succs := by decide
  loops := by decide
  unused b hb := by rw [exitBeforeJoin, ofLists_block_ge hb]

/-- `n` steps of the ordering. -/
def steps : Nat → State → Option State
  | 0, s => some s
  | n + 1, s => do
      let (_, s) ← s.step
      steps n s

theorem steps_run (h : steps n s = some s') : ∃ as, Run Step s as s' := by
  induction n generalizing s with
  | zero =>
      cases h
      exact ⟨[], .nil⟩
  | succ n ih =>
      simp only [steps, Option.bind_eq_bind, Option.bind_eq_some_iff] at h
      obtain ⟨⟨a, t⟩, hstep, h⟩ := h
      obtain ⟨as, hr⟩ := ih h
      exact ⟨a :: as, .cons hstep hr⟩

theorem exitBeforeJoin_steps : ((LoopAnalyzer.analyze exitBeforeJoin).bind fun g => (start g).bind fun s₀ =>
    (steps 4 s₀).map fun s => (s.pending :: [2, 4, 5].map fun b => (s.graph.block b).loop, (s.graph.block 2).succs,
      [s.unvisitedForwardEdgesExist 4, s.unvisitedForwardEdgesExist 5, some (s.visited 4), some (s.visited 5),
        some (s.graph.inverseConditionalBranch 2).isSome])) =
    some ([some 2, some 0, some 0, some 1], [4, 5], [some true, some false, some false, some false, some true]) := by decide

theorem linear_ordering_terminates_iff_exitBeforeJoin : ∃ g s₀, LoopAnalyzer.analyze exitBeforeJoin = some g ∧
    start g = some s₀ ∧ ((∃ n, ∀ as s, Run Step s₀ as s → as.length ≤ n) ↔
      ∀ as s, Run Step s₀ as s → ∀ b x y l, ¬ s.Undecided b x y l) := by
  obtain ⟨g, hg, h⟩ := Option.bind_eq_some_iff.1 exitBeforeJoin_steps
  obtain ⟨s₀, hs₀, -⟩ := Option.bind_eq_some_iff.1 h
  exact ⟨g, s₀, hg, hs₀, linear_ordering_terminates_iff exitBeforeJoin_arrangeable hg hs₀⟩

/-- Block 2 is visited before block 3, and its branch between the join and the exit is inverted for ever. -/
theorem exitBeforeJoin_wrong : Arrangeable exitBeforeJoin 0 ∧ (∀ b ∈ exitBeforeJoin.blocks, exitBeforeJoin.Leads 0 b) ∧
    ∃ g s₀, LoopAnalyzer.analyze exitBeforeJoin = some g ∧ start g = some s₀ ∧
      ¬ ∃ n, ∀ as s, Run Step s₀ as s → as.length ≤ n := by
  obtain ⟨g, hg, h⟩ := Option.bind_eq_some_iff.1 exitBeforeJoin_steps
  obtain ⟨s₀, hs₀, h⟩ := Option.bind_eq_some_iff.1 h
  obtain ⟨s, hs, heq⟩ := Option.map_eq_some_iff.1 h
  simp only [List.map_cons, List.map_nil, Prod.mk.injEq, List.cons.injEq, Option.some.injEq, and_true] at heq
  obtain ⟨⟨hp, hb, hx, hy⟩, hsuccs, hwx, hwy, hvx, hvy, hi⟩ := heq
  have hu : s.Undecided 2 4 5 0 := ⟨hp, .inl hsuccs, ⟨hvx, hvy⟩, ⟨hb, hx, by simp [hy]⟩, ⟨hwx, hwy⟩, hi⟩
  obtain ⟨as, hr⟩ := steps_run hs
  refine ⟨exitBeforeJoin_arrangeable, ?_, g, s₀, hg, hs₀, ?_⟩
  · have edge : ∀ {b c}, c ∈ (exitBeforeJoin.block b).succs → exitBeforeJoin.Edge b c := id
    have h1 : exitBeforeJoin.Leads 0 1 := .single (edge (by decide))
    have h2 : exitBeforeJoin.Leads 0 2 := h1.tail (edge (by decide))
    have h3 : exitBeforeJoin.Leads 0 3 := h1.tail (edge (by decide))
    have h4 : exitBeforeJoin.Leads 0 4 := h2.tail (edge (by decide))
    have h5 : exitBeforeJoin.Leads 0 5 := h2.tail (edge (by decide))
    have hall : exitBeforeJoin.blocks = [0, 1, 2, 3, 4, 5] := rfl
    rw [hall]
    simp only [List.forall_mem_cons]
    exact ⟨.refl, h1, h2, h3, h4, h5, List.forall_mem_nil _⟩
  · exact hu.endless hr

end CompilerLab.Jit.LinearOrdering
