import CompilerLab.Jit.Lemmas.BranchElimination
import CompilerLab.Jit.Lemmas.DomTree

/-!
# The dominator tree after branch elimination

The pass keeps the stored dominator tree and its flag. The tree is that of the resulting graph exactly when the removed
edges gave no block a dominator it did not have.
-/

namespace CompilerLab.Jit.Graph

open CompilerLab.Lib

variable {g g' : Graph} {first : Nat} {r : Bool}

/-- The pass decides the branch of `b` against `c`. -/
def DecidedAgainst (g : Graph) (b c : Nat) : Prop :=
  g.Edge b c ∧ ∃ s, g.propagateConstsInCond = some s ∧ ¬ s.1.Edge b c

/-- An edge of a branch that is not decided, or decided for it. -/
def Remains (g : Graph) (b c : Nat) : Prop := g.Edge b c ∧ ¬ g.DecidedAgainst b c

/-- On the edges that remain, no block has a dominator it does not have on all edges. -/
def KeepsDominators (g : Graph) (first : Nat) : Prop :=
  ∀ b, Relation.ReflTransGen g.Remains first b → ∀ x, Dom g.Remains first x b → Dom g.Edge first x b

theorem remains_eq {s : Graph × Bool} (h : g.propagateConstsInCond = some s) : g.Remains = s.1.Edge := by
  have hsub := (propagateConstsInCond_cuts h).1.succs
  funext b c
  simp only [Remains, DecidedAgainst, h, Option.some.injEq, exists_eq_left', not_and, not_not, eq_iff_iff]
  exact ⟨fun hb => hb.2 hb.1, fun hb => ⟨hsub b hb, fun _ => hb⟩⟩

/-- The pass leaves the blocks control leads to on the edges that remain, with these edges, the dominators they had, and the
lists of the blocks they dominate. -/
theorem runBranchElimination_leaves (hwc : g.WellConnected first) (ht : g.DomTree first) (hv : g.valid .DOM_TREE = true)
    (h : g.runBranchElimination = some (g', r)) : g'.valid .DOM_TREE = true ∧
    (∀ b, b ∈ g'.blocks ↔ Relation.ReflTransGen g.Remains first b) ∧
    (∀ b ∈ g'.blocks, ∀ c, g.Remains b c ↔ g'.Edge b c) ∧
    (∀ b, (g'.block b).dominator = (g.block b).dominator) ∧
    (∀ b ∈ g'.blocks, (g'.block b).dominated.Nodup) ∧
    ∀ b ∈ g'.blocks, ∀ c, c ∈ (g'.block b).dominated ↔ c ∈ g'.blocks ∧ (g'.block c).dominator = some b := by
  simp only [runBranchElimination, Option.bind_eq_bind, Option.bind_eq_some_iff] at h
  obtain ⟨⟨g₁, removed⟩, h₁, h⟩ := h
  obtain ⟨hcuts, hsame⟩ := propagateConstsInCond_cuts h₁
  have hE := remains_eq h₁
  cases removed with
  | false =>
      obtain rfl := hsame rfl
      have hg : g₁ = g' := congrArg Prod.fst (Option.some.inj h)
      subst hg
      rw [hE]
      exact ⟨hv, fun b => ⟨ht.leads b, hwc.mem_of_leads⟩, fun _ _ _ => Iff.rfl, fun _ => rfl, ht.nodup, ht.dominated⟩
  | true =>
      simp only [Bool.true_eq_false, if_false, hv, Option.bind_eq_some_iff, doMarkPhase, Option.bind_eq_bind,
        Option.pure_def, Option.some.injEq, postElimination] at h
      obtain ⟨_, ⟨rpo, hrpo, _, -, rfl⟩, g₃, h₃, g₄, ⟨_, -, rfl⟩, hg'⟩ := h
      obtain rfl := (Prod.mk.inj hg').1
      have hmem : ∀ b, b ∈ rpo ↔ g₁.Leads first b := mem_traverse (hcuts.firstBlock.trans hwc.firstBlock)
        (hcuts.isEmpty.trans hwc.isEmpty) hrpo
      have hleads : ∀ b, b ∈ rpo → b ∈ g.blocks := fun b hb =>
        hwc.mem_of_leads (((hmem b).1 hb).lift id fun u _ huv => hcuts.succs u huv)
      have hstart : KeepsLive g₁ rpo { g₁ with rpoBlocks := rpo.reverse } := by
        refine ⟨hcuts.blocks ▸ hwc.nodup, fun _ _ => rfl, fun _ => rfl, fun b hb => ?_, fun b hb c => ?_⟩
        · exact hcuts.dominated b ▸ ht.nodup b (hleads b hb)
        · have := ht.dominated b (hleads b hb) c
          rwa [← hcuts.dominated b, ← hcuts.blocks, ← hcuts.dominator c] at this
      obtain ⟨hkeep, hblocks⟩ := hstart.removeNotMarked h₃
      have hlive : ∀ b, b ∈ g₃.blocks ↔ b ∈ rpo := by
        intro b
        have hb : b ∈ rpo → b ∈ g₁.blocks := fun hb => hcuts.blocks ▸ hleads b hb
        have := hblocks b
        tauto
      rw [hE]
      refine ⟨rfl, fun b => (hlive b).trans (hmem b), fun b hb c => ?_, fun b => ?_, fun b hb => ?_, fun b hb => ?_⟩
      · rw [Edge, Edge, ← hkeep.succs b ((hlive b).1 hb)]
        rfl
      · exact (hkeep.dominator b).trans (hcuts.dominator b)
      · exact hkeep.dominated_nodup b ((hlive b).1 hb)
      · exact hkeep.dominated b ((hlive b).1 hb)

/-- The dominators in the resulting graph are those on the edges that remain. -/
theorem runBranchElimination_dom (hwc : g.WellConnected first) (ht : g.DomTree first) (hv : g.valid .DOM_TREE = true)
    (h : g.runBranchElimination = some (g', r)) {x b : Nat} : Dom g'.Edge first x b ↔ Dom g.Remains first x b := by
  obtain ⟨-, hblocks, hedges, -⟩ := runBranchElimination_leaves hwc ht hv h
  exact (Dom.congr fun u v hu => hedges u ((hblocks u).2 hu) v).symm

/-- The flag is valid after the pass, and the stored tree is right when no block has gained a dominator, and only then. -/
theorem branch_elimination_dom_tree_iff (hwc : g.WellConnected first) (ht : g.DomTree first)
    (hv : g.valid .DOM_TREE = true) (h : g.runBranchElimination = some (g', r)) :
    (g'.valid .DOM_TREE = true → g'.DomTree first) ↔ g.KeepsDominators first := by
  obtain ⟨hvalid, hblocks, hedges, hdominator, hnodup, hdominated⟩ := runBranchElimination_leaves hwc ht hv h
  have hsub : ∀ u v, g.Remains u v → g.Edge u v := fun _ _ hr => hr.1
  have hdom : ∀ {x b}, Dom g'.Edge first x b ↔ Dom g.Remains first x b := runBranchElimination_dom hwc ht hv h
  have hidom : ∀ {a b}, IDom g'.Edge first a b ↔ IDom g.Remains first a b := by
    intro a b
    exact ⟨fun hi => ⟨hdom.1 hi.dom, hi.ne, fun x hx hne => hdom.1 (hi.closest x (hdom.2 hx) hne)⟩,
      fun hi => ⟨hdom.2 hi.dom, hi.ne, fun x hx hne => hdom.2 (hi.closest x (hdom.1 hx) hne)⟩⟩
  have hmem : ∀ {b}, Relation.ReflTransGen g.Remains first b → b ∈ g.blocks := fun hb =>
    hwc.mem_of_leads (hb.lift id hsub)
  constructor
  · intro hg' b hb
    have hg' := hg' hvalid
    refine Dom.of_idoms (fun b => (g.block b).dominator.getD 0) (fun c hc hne => ?_) hb
    obtain ⟨a, ha, hi⟩ := ht.idom c (hmem hc) hne
    obtain ⟨a', ha', hi'⟩ := hg'.idom c ((hblocks c).2 hc) hne
    rw [hdominator, ha, Option.some.injEq] at ha'
    subst ha'
    rw [ha]
    exact ⟨hi, hidom.1 hi'⟩
  · intro hk _
    refine ⟨fun b hb => ?_, (hdominator first).trans ht.root, fun b hb hne => ?_, hnodup, hdominated⟩
    · have key : ∀ b, Relation.ReflTransGen g.Remains first b → g'.Leads first b := by
        intro b hb
        induction hb with
        | refl => exact .refl
        | tail hu huv ih => exact ih.tail ((hedges _ ((hblocks _).2 hu) _).1 huv)
      exact key b ((hblocks b).1 hb)
    · have hb := (hblocks b).1 hb
      obtain ⟨a, ha, hi⟩ := ht.idom b (hmem hb) hne
      exact ⟨a, (hdominator b).trans ha, hidom.2 (hi.mono hsub (hk b hb))⟩

/-! ## A decided branch -/

/-- `if (1 < 2) …; else …;` with a valid dominator tree, where the blocks `arms` follow the branch. -/
def decidedBranch (rest : List Instruction) (dominated : List Nat) (arms : List BasicBlock) : Graph :=
  { ofLists
    ([{ opcode := .ARG, type := .I32, next := some 1, parent := some 0, users := List.range' 5 rest.length },
      { opcode := .CONST, type := .I32, value := 1, prev := some 0, next := some 2, parent := some 0, users := [3] },
      { opcode := .CONST, type := .I32, value := 2, prev := some 1, parent := some 0, users := [3] },
      { opcode := .CMP, type := .I32, ccode := .LT, next := some 4, parent := some 1, properties := INPUT_SIDE_EFFECTS,
        inputs := [some 1, some 2] },
      { opcode := .JCMP, type := .I64, prev := some 3, parent := some 1, properties := CF_SIDE_EFFECTS }] ++ rest)
    ([{ id := 0, succs := [1], instrsCount := 3, firstInst := some 0, lastInst := some 2, dominated := [1] },
      { id := 1, preds := [0], succs := [2, 3], instrsCount := 2, firstInst := some 3, lastInst := some 4,
        dominator := some 0, dominated }] ++ arms) [] with
    valid := fun flag => flag = .DOM_TREE }

/-- `return x;` at the end of `b`. -/
def returnOf (b : Nat) : Instruction :=
  { opcode := .RET, type := .I32, parent := some b, properties := .CF ||| .INPUT ||| .SIDE_EFFECTS, inputs := [some 0] }

/-- Both arms return. -/
def returningArms : Graph := decidedBranch [returnOf 2, returnOf 3] [2, 3]
  [{ id := 2, preds := [1], instrsCount := 1, firstInst := some 5, lastInst := some 5, dominator := some 1 },
   { id := 3, preds := [1], instrsCount := 1, firstInst := some 6, lastInst := some 6, dominator := some 1 }]

/-- The arms meet again. -/
def meetingArms : Graph := decidedBranch [returnOf 4] [2, 3, 4]
  [{ id := 2, preds := [1], succs := [4], dominator := some 1 },
   { id := 3, preds := [1], succs := [4], dominator := some 1 },
   { id := 4, preds := [2, 3], instrsCount := 1, firstInst := some 5, lastInst := some 5, dominator := some 1 }]

theorem decidedBranch_edge_lt {rest dominated arms} {u v : Nat} (h : (decidedBranch rest dominated arms).Edge u v) :
    u < arms.length + 2 := by
  by_contra hu
  have hb : (decidedBranch rest dominated arms).block u = {} :=
    List.getD_eq_default _ _ (by simp only [List.length_append, List.length_cons, List.length_nil]; omega)
  simp [Edge, hb] at h

theorem returningArms_wellConnected : returningArms.WellConnected 0 where
  firstBlock := rfl
  first_mem := by decide
  nodup := by decide
  count := rfl
  lt := by decide
  succ_mem := by decide
  pred_mem := by decide
  edges := by decide

theorem meetingArms_wellConnected : meetingArms.WellConnected 0 where
  firstBlock := rfl
  first_mem := by decide
  nodup := by decide
  count := rfl
  lt := by decide
  succ_mem := by decide
  pred_mem := by decide
  edges := by decide

/-- The immediate dominators of a decided branch, from the arms on. -/
theorem decidedBranch_idom {rest dominated arms} (h : ∀ u < arms.length + 2,
      (1 ∈ ((decidedBranch rest dominated arms).block u).succs → u = 0) ∧
      (2 ∈ ((decidedBranch rest dominated arms).block u).succs → u = 1) ∧
      (3 ∈ ((decidedBranch rest dominated arms).block u).succs → u = 1)) :
    IDom (decidedBranch rest dominated arms).Edge 0 0 1 ∧ IDom (decidedBranch rest dominated arms).Edge 0 1 2 ∧
      IDom (decidedBranch rest dominated arms).Edge 0 1 3 := by
  have h01 : (decidedBranch rest dominated arms).Edge 0 1 := List.mem_singleton.2 rfl
  have h12 : (decidedBranch rest dominated arms).Edge 1 2 := List.mem_cons_self
  have h13 : (decidedBranch rest dominated arms).Edge 1 3 := List.mem_cons_of_mem _ (List.mem_singleton.2 rfl)
  refine ⟨.of_only_pred h01 (fun u hu => ?_) ?_ ?_, .of_only_pred h12 (fun u hu => ?_) ?_ ?_,
    .of_only_pred h13 (fun u hu => ?_) ?_ ?_⟩
  · exact (h u (decidedBranch_edge_lt hu)).1 hu
  · decide
  · decide
  · exact (h u (decidedBranch_edge_lt hu)).2.1 hu
  · decide
  · decide
  · exact (h u (decidedBranch_edge_lt hu)).2.2 hu
  · decide
  · decide

theorem returningArms_domTree : returningArms.DomTree 0 := by
  have hb : returningArms.blocks = [0, 1, 2, 3] := by decide
  obtain ⟨h1, h2, h3⟩ : IDom returningArms.Edge 0 0 1 ∧ IDom returningArms.Edge 0 1 2 ∧ IDom returningArms.Edge 0 1 3 :=
    decidedBranch_idom (by decide)
  have l1 : returningArms.Leads 0 1 := .single (List.mem_singleton.2 rfl)
  have l2 : returningArms.Leads 0 2 := l1.tail List.mem_cons_self
  have l3 : returningArms.Leads 0 3 := l1.tail (List.mem_cons_of_mem _ (List.mem_singleton.2 rfl))
  refine .of_stored ?_ rfl ?_ (by decide) (by decide)
  · rw [hb]
    simpa using ⟨.refl, l1, l2, l3⟩
  · rw [hb]
    simpa using ⟨⟨0, rfl, h1⟩, ⟨1, rfl, h2⟩, ⟨1, rfl, h3⟩⟩

theorem meetingArms_domTree : meetingArms.DomTree 0 := by
  have hb : meetingArms.blocks = [0, 1, 2, 3, 4] := by decide
  obtain ⟨h1, h2, h3⟩ : IDom meetingArms.Edge 0 0 1 ∧ IDom meetingArms.Edge 0 1 2 ∧ IDom meetingArms.Edge 0 1 3 :=
    decidedBranch_idom (by decide)
  have e12 : meetingArms.Edge 1 2 := List.mem_cons_self
  have e13 : meetingArms.Edge 1 3 := List.mem_cons_of_mem _ (List.mem_singleton.2 rfl)
  have e24 : meetingArms.Edge 2 4 := List.mem_singleton.2 rfl
  have e34 : meetingArms.Edge 3 4 := List.mem_singleton.2 rfl
  have preds : ∀ u < 5, 4 ∈ (meetingArms.block u).succs → u = 2 ∨ u = 3 := by decide
  have h4 : IDom meetingArms.Edge 0 1 4 := .of_arms e12 e13 (by decide) e24 e34
    (fun u hu => preds u (decidedBranch_edge_lt hu) hu) h2.dom h3.dom (by decide) (by decide)
  have l1 : meetingArms.Leads 0 1 := .single (List.mem_singleton.2 rfl)
  refine .of_stored ?_ rfl ?_ (by decide) (by decide)
  · rw [hb]
    simpa using ⟨.refl, l1, l1.tail e12, l1.tail e13, (l1.tail e12).tail e24⟩
  · rw [hb]
    simpa using ⟨⟨0, rfl, h1⟩, ⟨1, rfl, h2⟩, ⟨1, rfl, h3⟩, ⟨1, rfl, h4⟩⟩

/-- The graph a decided branch leaves. -/
theorem returningArms_remains {u v : Nat} : returningArms.Remains u v ↔
    v ∈ (((returningArms.propagateConstsInCond).get (by decide)).1.block u).succs := by
  rw [remains_eq (Option.some_get (by decide)).symm]
  rfl

theorem meetingArms_remains {u v : Nat} : meetingArms.Remains u v ↔
    v ∈ (((meetingArms.propagateConstsInCond).get (by decide)).1.block u).succs := by
  rw [remains_eq (Option.some_get (by decide)).symm]
  rfl

theorem returningArms_keepsDominators : returningArms.KeepsDominators 0 := by
  obtain ⟨h1, h2, -⟩ : IDom returningArms.Edge 0 0 1 ∧ IDom returningArms.Edge 0 1 2 ∧ IDom returningArms.Edge 0 1 3 :=
    decidedBranch_idom (by decide)
  have preds : ∀ u < 4, (1 ∈ (returningArms.block u).succs → u = 0) ∧ (2 ∈ (returningArms.block u).succs → u = 1) := by
    decide
  have r01 : returningArms.Remains 0 1 := returningArms_remains.2 (by decide)
  have r12 : returningArms.Remains 1 2 := returningArms_remains.2 (by decide)
  have r1 : IDom returningArms.Remains 0 0 1 :=
    .of_only_pred r01 (fun u hu => (preds u (decidedBranch_edge_lt hu.1)).1 hu.1) (by decide) (by decide)
  have r2 : IDom returningArms.Remains 0 1 2 :=
    .of_only_pred r12 (fun u hu => (preds u (decidedBranch_edge_lt hu.1)).2 hu.1) (by decide) (by decide)
  have reach : ∀ b, Relation.ReflTransGen returningArms.Remains 0 b → b = 0 ∨ b = 1 ∨ b = 2 := by
    intro b hb
    have step : ∀ u ≤ 2, ∀ v ∈ (((returningArms.propagateConstsInCond).get (by decide)).1.block u).succs,
        v = 0 ∨ v = 1 ∨ v = 2 := by decide
    induction hb with
    | refl => exact .inl rfl
    | tail _ huv ih => exact step _ (by omega) _ (returningArms_remains.1 huv)
  intro b hb
  refine Dom.of_idoms (fun b => b - 1) (fun c hc hne => ?_) hb
  rcases reach c hc with rfl | rfl | rfl
  · exact absurd rfl hne
  · exact ⟨h1, r1⟩
  · exact ⟨h2, r2⟩

theorem branch_elimination_dom_tree_returning : ∃ s, returningArms.runBranchElimination = some s ∧
    (s.1.valid .DOM_TREE = true → s.1.DomTree 0) := by
  obtain ⟨s, h⟩ := Option.isSome_iff_exists.1 (by decide : returningArms.runBranchElimination.isSome = true)
  exact ⟨s, h, (branch_elimination_dom_tree_iff returningArms_wellConnected returningArms_domTree rfl h).2
    returningArms_keepsDominators⟩

/-- The arm that is left dominates the block where the arms met, which keeps the block of the branch as its dominator. -/
theorem branch_elimination_dom_tree_meeting : meetingArms.WellConnected 0 ∧ meetingArms.DomTree 0 ∧
    meetingArms.valid .DOM_TREE = true ∧ ∃ s, meetingArms.runBranchElimination = some s ∧
      s.1.valid .DOM_TREE = true ∧ ¬ s.1.DomTree 0 := by
  obtain ⟨s, h⟩ := Option.isSome_iff_exists.1 (by decide : meetingArms.runBranchElimination.isSome = true)
  obtain ⟨hvalid, hblocks, -, hdominator, -⟩ :=
    runBranchElimination_leaves meetingArms_wellConnected meetingArms_domTree rfl h
  refine ⟨meetingArms_wellConnected, meetingArms_domTree, rfl, s, h, hvalid, fun ht => ?_⟩
  have preds : ∀ u < 5, (3 ∈ (meetingArms.block u).succs → u = 1) ∧ (4 ∈ (meetingArms.block u).succs → u = 2 ∨ u = 3) := by
    decide
  have cut : ¬ meetingArms.Remains 1 3 := fun h13 => absurd (meetingArms_remains.1 h13) (by decide)
  have d3 : Dom meetingArms.Remains 0 2 3 := Dom.of_preds (by decide) fun u hu =>
    absurd ((preds u (decidedBranch_edge_lt hu.1)).1 hu.1 ▸ hu) cut
  have d4 : Dom meetingArms.Remains 0 2 4 := Dom.of_preds (by decide) fun u hu => by
    rcases (preds u (decidedBranch_edge_lt hu.1)).2 hu.1 with rfl | rfl
    · exact .refl 0 2
    · exact d3
  have r01 : meetingArms.Remains 0 1 := meetingArms_remains.2 (by decide)
  have r12 : meetingArms.Remains 1 2 := meetingArms_remains.2 (by decide)
  have r24 : meetingArms.Remains 2 4 := meetingArms_remains.2 (by decide)
  have h4 : 4 ∈ s.1.blocks := (hblocks 4).2 (((Relation.ReflTransGen.single r01).tail r12).tail r24)
  -- the stored dominator of 4 is 1, so 2 would dominate 1
  obtain ⟨a, ha, hi⟩ := ht.idom 4 h4 (by decide)
  rw [hdominator] at ha
  obtain rfl : 1 = a := Option.some.inj ha
  have hdom {x b : Nat} := runBranchElimination_dom (x := x) (b := b) meetingArms_wellConnected meetingArms_domTree rfl h
  have h1 : Dom meetingArms.Remains 0 2 1 := hdom.1 (hi.closest 2 (hdom.2 d4) (by decide))
  exact absurd (h1 (.single ⟨r01, by decide⟩)) (by decide)

end CompilerLab.Jit.Graph
