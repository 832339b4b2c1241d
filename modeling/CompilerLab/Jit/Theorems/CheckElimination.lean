import CompilerLab.Jit.Lemmas.CheckElimination

/-!
# Check elimination

The pass finds the checks it has removed through the users lists, and stops when it asks for the block of one of them. When
it never does, it removes the checks that an equal check makes redundant and no others.
-/

namespace CompilerLab.Jit

open CompilerLab.Lib

namespace CheckElimination

open Graph

variable {g g' : Graph} {first : Nat} {buildDomTree : Graph → Option Graph}

/-- The instructions in the order in which the pass comes to them. -/
def visits (g : Graph) : List Nat := ((g.runRPO.bind getRPO).getD []).flatMap (nonPhis g)

/-- A check that is still there when the pass comes to it has only checks that are still there among its peers. -/
def FindsNoRemoved (g : Graph) (first : Nat) : Prop :=
  ∀ pre c post, visits g = pre ++ c :: post → (g.instr c).isCheck = true → (∀ d ∈ pre, ¬ g.Subsumes first d c) →
    ∀ u ∈ g.peers c, (g.instr u).parent ≠ none ∧ ∀ d ∈ pre, ¬ g.Subsumes first d u

open Classical in
/-- The pass never asks for the block of an instruction that is in none, removes the checks that an equal check that stays
dominates and nothing else, and on every path the same check fails first, with the same operands. -/
def EliminatesChecks (buildDomTree : Graph → Option Graph) (g : Graph) (first : Nat) : Prop :=
  ∃ g' removed, removeChecks buildDomTree g = some (g', removed) ∧
    (∀ b ∈ g.blocks, g'.instrs b = (g.instrs b).filter fun i => ¬ ∃ c, g'.Within c ∧ g.Subsumes first c i) ∧
    ∀ path, g.IsPath first path → g'.IsPath first path ∧ ∀ (m : Machine) (s : m.State),
      g'.firstFailing m s (path.flatMap g'.instrs) = g.firstFailing m s (path.flatMap g.instrs)

theorem mem_visits (hg : g.Checkable first) {i : Nat} : i ∈ visits g ↔ g.Within i ∧ (g.instr i).isPhi = false := by
  obtain ⟨l, v, hrun, hv, -, hmem⟩ := hg.runRPO
  have hl : visits g = l.flatMap (nonPhis g) := by
    rw [visits, hrun, Option.bind_some, getRPO, ASSERT_of hv]
    rfl
  simp only [hl, List.mem_flatMap, hmem, mem_nonPhis, Within, ← and_assoc, exists_and_right]

/-- The loops of the pass are the pruning of the instructions in the order of the visits. -/
theorem removeChecks_prunes (buildDomTree : Graph → Option Graph) (hg : g.Checkable first) : ∃ l v,
    Option.Rel (Tracks { g with rpoBlocks := l, valid := v }) ((visits g).foldlM (pruning g first).visit [])
      (removeChecks buildDomTree g) := by
  obtain ⟨l, v, hrun, hv, hnodup, hmem⟩ := hg.runRPO
  have hdom : v .DOM_TREE = true := runRPO_valid hrun hg.valid
  have hs : Graph.instrs { g with rpoBlocks := l, valid := v } = g.instrs := funext (instrs_congr rfl rfl rfl)
  have hp : pruning { g with rpoBlocks := l, valid := v } first = pruning g first := by
    apply pruning_congr <;> rfl
  have hn : nonPhis { g with rpoBlocks := l, valid := v } = nonPhis g := by
    funext b
    rw [nonPhis, hs]
    rfl
  have hl : visits g = l.flatMap (nonPhis g) := by
    rw [visits, hrun, Option.bind_some, getRPO, ASSERT_of hv]
    rfl
  have hremove : removeChecks buildDomTree g = l.foldlM removeInBlock ({ g with rpoBlocks := l, valid := v }, false) := by
    simp only [removeChecks, hrun, getRPO, ASSERT_of hv, hdom, Option.bind_eq_bind, Option.bind_some, if_true,
      Option.pure_def]
  refine ⟨l, v, ?_⟩
  rw [hremove, hl, ← hp, ← hn]
  exact removeInBlocks_prunes (hg.withRPO hnodup hmem hdom) fun b hb => (hmem b).1 hb

theorem isPhi_of_isCheck {i : Instruction} (h : i.isCheck = true) : i.isPhi = false := by
  by_contra hp
  have hop : i.opcode = .PHI := by simpa [Instruction.isPhi] using hp
  rw [Instruction.isCheck, hop] at h
  cases h

theorem safe_iff (hg : g.Checkable first) : (pruning g first).Safe (visits g) ↔ FindsNoRemoved g first := by
  have within : ∀ {pre c post d}, visits g = pre ++ c :: post → d ∈ pre → g.Within d := fun heq hd =>
    ((mem_visits hg).1 (by rw [heq]; exact List.mem_append_left _ hd)).1
  have hremoved : ∀ {pre c post d u}, visits g = pre ++ c :: post → d ∈ pre →
      (u ∈ (pruning g first).removed d ↔ g.Subsumes first d u) := fun heq hd =>
    (mem_removed_iff hg).trans (and_iff_right (within heq hd))
  constructor
  · intro h pre c post heq hck hpre u hu
    have hc : g.Within c := ((mem_visits hg).1 (by rw [heq]; simp)).1
    obtain ⟨hgone, hkept⟩ := h pre c post heq (fun d hd => mt (hremoved heq hd).1 (hpre d hd)) u
      (mem_looks.2 ⟨hc, hck, hu⟩)
    exact ⟨by simpa [pruning] using hgone, fun d hd => mt (hremoved heq hd).2 (hkept d hd)⟩
  · intro h pre c post heq hpre u hu
    obtain ⟨-, hck, hu⟩ := mem_looks.1 hu
    obtain ⟨hgone, hkept⟩ := h pre c post heq hck (fun d hd => mt (hremoved heq hd).2 (hpre d hd)) u hu
    exact ⟨by simpa [pruning] using hgone, fun d hd => mt (hremoved heq hd).1 (hkept d hd)⟩

/-- What has been removed when the loops are done. -/
theorem mem_dead_iff (hg : g.Checkable first) {dead : List Nat} (h : (visits g).foldlM (pruning g first).visit [] = some dead)
    {i : Nat} : i ∈ dead ↔ ∃ c, (g.Within c ∧ c ∉ dead) ∧ g.Subsumes first c i := by
  have hremoved := Pruning.removed_of_run (removed_trans hg) h
  constructor
  · intro hi
    obtain ⟨c, -, hcd, hci⟩ := Pruning.exists_kept (removed_trans hg) (fun _ => not_mem_removed_self) hremoved hi
    obtain ⟨hc, hs⟩ := (mem_removed_iff hg).1 hci
    exact ⟨c, ⟨hc, hcd⟩, hs⟩
  · rintro ⟨c, ⟨hc, -⟩, hs⟩
    exact (hremoved i).2 ⟨c, (mem_visits hg).2 ⟨hc, isPhi_of_isCheck hs.1⟩, (mem_removed_iff hg).2 ⟨hc, hs⟩⟩

/-- The pass does what it should if and only if no removed check is found again. -/
theorem check_elimination_iff (hg : g.Checkable first) :
    EliminatesChecks buildDomTree g first ↔ FindsNoRemoved g first := by
  obtain ⟨l, v, hprunes⟩ := removeChecks_prunes buildDomTree hg
  rw [← safe_iff hg, ← Pruning.run_iff_safe (removed_trans hg)]
  constructor
  · rintro ⟨g', removed, hrun, -⟩
    rw [hrun] at hprunes
    cases hdead : (visits g).foldlM (pruning g first).visit [] with
    | none =>
        rw [hdead] at hprunes
        cases hprunes
    | some dead => exact ⟨dead, rfl⟩
  · rintro ⟨dead, hdead⟩
    rw [hdead] at hprunes
    obtain ⟨g', removed, hrun, hr⟩ : ∃ g' removed, removeChecks buildDomTree g = some (g', removed) ∧
        Removes dead { g with rpoBlocks := l, valid := v } g' := by
      generalize removeChecks buildDomTree g = o at hprunes
      cases hprunes with
      | some ht => exact ⟨_, _, rfl, ht.1⟩
    have hinstrs : ∀ b, g'.instrs b = (g.instrs b).filter (· ∉ dead) := fun b => by
      rw [hr.instrs]
      congr 1
      apply instrs_congr <;> rfl
    have hblocks : g'.blocks = g.blocks := by
      rw [hr.graph]
      rfl
    have hwithin : ∀ c, g'.Within c ↔ g.Within c ∧ c ∉ dead := fun c => by
      simp only [Within, hblocks, hinstrs, List.mem_filter, decide_eq_true_eq, ← and_assoc, exists_and_right]
    have hedge : g'.Edge = g.Edge := by
      funext b c
      have hs := congrArg BasicBlock.succs (hr.only.block b)
      have hs' : (g'.block b).succs = (g.block b).succs := hs
      rw [Edge, Edge, hs']
    have hdata : ∀ i, (g'.instr i).opcode = (g.instr i).opcode ∧ (g'.instr i).inputs = (g.instr i).inputs := fun i =>
      ⟨(hr.data i).1, (hr.data i).2.2.2.1⟩
    refine ⟨g', removed, hrun, fun b _ => ?_, fun path hp => ⟨⟨hedge ▸ hp.chain, hp.head⟩, fun m s => ?_⟩⟩
    · rw [hinstrs]
      refine List.filter_congr fun i _ => ?_
      rw [decide_eq_decide, mem_dead_iff hg hdead]
      simp only [hwithin]
    · have hpath : path.flatMap g'.instrs = (path.flatMap g.instrs).filter (· ∉ dead) := by
        rw [List.filter_flatMap]
        congr 1
        exact funext hinstrs
      rw [firstFailing_congr hdata, hpath]
      refine firstFailing_filter hp hg.lists hg.ssa (fun u hu => ?_) s
      obtain ⟨c, -, hs⟩ := (mem_dead_iff hg hdead).1 (by simpa using hu)
      exact ⟨c, hs⟩

/-! ## Equal checks in two arms -/

/-- A branch with two equal checks in its arm 2 and a third one in its arm 3. -/
def checkedArms (arms : List Nat) : Graph :=
  { Graph.ofLists
      [{ opcode := .ARG, type := .REF, next := some 1, parent := some 0, users := [4, 5, 7] },
        { opcode := .ARG, type := .I32, prev := some 0, parent := some 0, users := [2, 2] },
        { opcode := .CMP, type := .I32, next := some 3, parent := some 1, properties := .INPUT, users := [3],
          inputs := [some 1, some 1] },
        { opcode := .JCMP, type := .VOID, prev := some 2, parent := some 1, properties := .CF ||| .INPUT ||| .SIDE_EFFECTS,
          inputs := [some 2] },
        { opcode := .NULL_CHECK, type := .REF, next := some 5, parent := some 2, properties := .INPUT ||| .SIDE_EFFECTS,
          inputs := [some 0] },
        { opcode := .NULL_CHECK, type := .REF, prev := some 4, next := some 6, parent := some 2,
          properties := .INPUT ||| .SIDE_EFFECTS, inputs := [some 0] },
        { opcode := .RETVOID, type := .VOID, prev := some 5, parent := some 2, properties := .CF ||| .SIDE_EFFECTS },
        { opcode := .NULL_CHECK, type := .REF, next := some 8, parent := some 3, properties := .INPUT ||| .SIDE_EFFECTS,
          inputs := [some 0] },
        { opcode := .RETVOID, type := .VOID, prev := some 7, parent := some 3, properties := .CF ||| .SIDE_EFFECTS }]
      [{ id := 0, succs := [1], instrsCount := 2, firstInst := some 0, lastInst := some 1, dominated := [1] },
        { id := 1, preds := [0], succs := arms, instrsCount := 2, firstInst := some 2, lastInst := some 3,
          dominator := some 0, dominated := [2, 3, 4] },
        { id := 2, preds := [1], succs := [4], instrsCount := 3, firstInst := some 4, lastInst := some 6,
          dominator := some 1 },
        { id := 3, preds := [1], succs := [4], instrsCount := 2, firstInst := some 7, lastInst := some 8,
          dominator := some 1 },
        { id := 4, preds := [2, 3], dominator := some 1 }] [] with
    lastBlock := some 4
    valid := fun a => a == .DOM_TREE }

/-- The arm 2 is the true one, or the false one. -/
def arms (k : Bool) : List Nat := if k then [2, 3] else [3, 2]

theorem checkedArms_edge_lt {k : Bool} {u v : Nat} (h : (checkedArms (arms k)).Edge u v) : u < 5 := by
  by_contra hu
  have hb : (checkedArms (arms k)).block u = {} := List.getD_eq_default _ _ (Nat.le_of_not_lt hu)
  simp [Edge, hb] at h

theorem checkedArms_idoms (k : Bool) : IDom (checkedArms (arms k)).Edge 0 0 1 ∧ IDom (checkedArms (arms k)).Edge 0 1 2 ∧
    IDom (checkedArms (arms k)).Edge 0 1 3 ∧ IDom (checkedArms (arms k)).Edge 0 1 4 := by
  have preds : ∀ u < 5, (1 ∈ ((checkedArms (arms k)).block u).succs → u = 0) ∧
      (2 ∈ ((checkedArms (arms k)).block u).succs → u = 1) ∧ (3 ∈ ((checkedArms (arms k)).block u).succs → u = 1) ∧
      (4 ∈ ((checkedArms (arms k)).block u).succs → u = 2 ∨ u = 3) := by
    revert k
    decide
  have e12 : 2 ∈ ((checkedArms (arms k)).block 1).succs := by cases k <;> decide
  have e13 : 3 ∈ ((checkedArms (arms k)).block 1).succs := by cases k <;> decide
  have h2 : IDom (checkedArms (arms k)).Edge 0 1 2 :=
    .of_only_pred e12 (fun u hu => (preds u (checkedArms_edge_lt hu)).2.1 hu) (by decide) (by decide)
  have h3 : IDom (checkedArms (arms k)).Edge 0 1 3 :=
    .of_only_pred e13 (fun u hu => (preds u (checkedArms_edge_lt hu)).2.2.1 hu) (by decide) (by decide)
  refine ⟨.of_only_pred (List.mem_singleton.2 rfl) (fun u hu => (preds u (checkedArms_edge_lt hu)).1 hu) (by decide)
    (by decide), h2, h3, ?_⟩
  exact .of_arms e12 e13 (by decide) (List.mem_singleton.2 rfl) (List.mem_singleton.2 rfl)
    (fun u hu => (preds u (checkedArms_edge_lt hu)).2.2.2 hu) h2.dom h3.dom (by decide) (by decide)

theorem checkedArms_leads (k : Bool) : ∀ b ∈ (checkedArms (arms k)).blocks, (checkedArms (arms k)).Leads 0 b :=
  leads_of_lt (by revert k; decide)

theorem checkedArms_domTree (k : Bool) : (checkedArms (arms k)).DomTree 0 := by
  have hb : (checkedArms (arms k)).blocks = [0, 1, 2, 3, 4] := by revert k; decide
  obtain ⟨h1, h2, h3, h4⟩ := checkedArms_idoms k
  refine .of_stored (checkedArms_leads k) rfl ?_ (by cases k <;> decide) (by cases k <;> decide)
  rw [hb]
  simpa using ⟨⟨0, rfl, h1⟩, ⟨1, rfl, h2⟩, ⟨1, rfl, h3⟩, ⟨1, rfl, h4⟩⟩

/-- The checks, and where they are. -/
theorem checkedArms_check {k : Bool} {c : Nat} (h : ((checkedArms (arms k)).instr c).isCheck = true) :
    (c = 4 ∨ c = 5 ∨ c = 7) ∧ ((checkedArms (arms k)).instr c).parent = some (if c = 7 then 3 else 2) := by
  rcases Nat.lt_or_ge c 9 with hc | hc
  · have inside : ∀ c < 9, ((checkedArms (arms k)).instr c).isCheck = true → (c = 4 ∨ c = 5 ∨ c = 7) ∧
        ((checkedArms (arms k)).instr c).parent = some (if c = 7 then 3 else 2) := by
      cases k <;> decide
    exact inside c hc h
  · have hi : (checkedArms (arms k)).instr c = { opcode := .INVALID, type := .INVALID } := List.getD_eq_default _ _ hc
    rw [hi] at h
    cases h

theorem checkedArms_checkable (k : Bool) : (checkedArms (arms k)).Checkable 0 where
  connected := by
    refine ⟨rfl, ?_, ?_, rfl, ?_, ?_, ?_, ?_⟩ <;> revert k <;> decide
  reachable := checkedArms_leads k
  rpo := nofun
  lists := by
    refine (Lists.ofLists (fun b => ([], if b = 0 then [0, 1] else if b = 1 then [2, 3] else if b = 2 then [4, 5, 6]
      else if b = 3 then [7, 8] else [])) ?_ ?_).congr rfl rfl fun _ => ⟨rfl, rfl, rfl, rfl⟩
    · revert k
      decide
    · revert k
      decide
  inputs := by
    have inside : ∀ b ∈ (checkedArms (arms k)).blocks, ∀ i ∈ (checkedArms (arms k)).instrs b,
        ∀ a ∈ ((checkedArms (arms k)).instr i).inputs, ∃ c ∈ (checkedArms (arms k)).blocks,
          ∃ j ∈ (checkedArms (arms k)).instrs c, a = some j := by
      revert k
      decide
    rintro i ⟨b, hb, hi⟩ - a ha
    obtain ⟨c, hc, j, hj, rfl⟩ := inside b hb i hi a ha
    exact ⟨j, rfl, c, hc, hj⟩
  domTree := checkedArms_domTree k
  valid := rfl
  shape c _ hck := by
    have hin : ((checkedArms (arms k)).instr 4).hasInputs = true := by cases k <;> decide
    rcases (checkedArms_check hck).1 with rfl | rfl | rfl
    · exact ⟨hin, [0], rfl, .null rfl rfl⟩
    · exact ⟨hin, [0], rfl, .null rfl rfl⟩
    · exact ⟨hin, [0], rfl, .null rfl rfl⟩
  users := by
    have inside : ∀ b ∈ (checkedArms (arms k)).blocks, ∀ i ∈ (checkedArms (arms k)).instrs b,
        ∀ u ∈ ((checkedArms (arms k)).instr i).users,
          ((checkedArms (arms k)).instr i).users.count u ≤ ((checkedArms (arms k)).instr u).inputs.count (some i) := by
      revert k
      decide
    rintro i ⟨b, hb, hi⟩
    exact inside b hb i hi
  used := by
    have inside : ∀ b ∈ (checkedArms (arms k)).blocks, ∀ i ∈ (checkedArms (arms k)).instrs b,
        ∀ a ∈ ((checkedArms (arms k)).instr i).inputs, ∀ x ∈ a, i ∈ ((checkedArms (arms k)).instr x).users := by
      revert k
      decide
    rintro i ⟨b, hb, hi⟩ x hx
    exact inside b hb i hi _ hx x rfl
  parent i b hb := by
    rcases Nat.lt_or_ge i 9 with hi | hi
    · have inside : ∀ i < 9, ∀ b ∈ ((checkedArms (arms k)).instr i).parent, b ∈ (checkedArms (arms k)).blocks := by
        cases k <;> decide
      exact inside i hi b hb
    · have hi : (checkedArms (arms k)).instr i = { opcode := .INVALID, type := .INVALID } := List.getD_eq_default _ _ hi
      rw [hi] at hb
      cases hb
  ssa c b _ hck x hx := by
    obtain ⟨hc, hparent⟩ := checkedArms_check hck
    have hx0 : x = 0 := by
      rcases hc with rfl | rfl | rfl <;> exact Option.some.inj (List.mem_singleton.1 hx)
    subst hx0
    refine ⟨0, _, rfl, hparent, .inr ⟨?_, Dom.root 0 _⟩⟩
    split <;> decide

/-- Of the three checks only the two in one arm are redundant. -/
theorem checkedArms_subsumes {k : Bool} {c u : Nat} : (checkedArms (arms k)).Subsumes 0 c u ↔ c = 4 ∧ u = 5 := by
  constructor
  · rintro ⟨hck, hop, -, b, d, hb, hd, hdom⟩
    obtain ⟨hc, hcb⟩ := checkedArms_check hck
    obtain ⟨hu, hud⟩ := checkedArms_check (isCheck_congr hop ▸ hck)
    obtain rfl := Option.some.inj (hb.symm.trans hcb)
    obtain rfl := Option.some.inj (hd.symm.trans hud)
    have path {a : Nat} (ha : a ≠ 0) (ha' : a ≠ 1) :
        Relation.ReflTransGen (Avoids (checkedArms (arms k)).Edge a) 0 1 := .single ⟨List.mem_singleton.2 rfl, ha.symm⟩
    have e12 : 2 ∈ ((checkedArms (arms k)).block 1).succs := by cases k <;> decide
    have e13 : 3 ∈ ((checkedArms (arms k)).block 1).succs := by cases k <;> decide
    have d23 : ¬ Dom (checkedArms (arms k)).Edge 0 2 3 := fun h =>
      absurd (h ((path (by decide) (by decide)).tail ⟨e13, by decide⟩)) (by decide)
    have d32 : ¬ Dom (checkedArms (arms k)).Edge 0 3 2 := fun h =>
      absurd (h ((path (by decide) (by decide)).tail ⟨e12, by decide⟩)) (by decide)
    have b2 : (checkedArms (arms k)).instrs 2 = [4, 5, 6] := by cases k <;> decide
    have b3 : (checkedArms (arms k)).instrs 3 = [7, 8] := by cases k <;> decide
    by_cases hc7 : c = 7
    · by_cases hu7 : u = 7
      · subst hc7
        subst hu7
        obtain ⟨-, hdom⟩ := hdom.resolve_right fun h => h.1 rfl
        exact absurd hdom (Before.not_self (by rw [if_pos rfl, b3]; decide))
      · rw [if_pos hc7, if_neg hu7] at hdom
        exact absurd (hdom.resolve_left fun h => absurd h.1 (by decide)).2 d32
    · by_cases hu7 : u = 7
      · rw [if_neg hc7, if_pos hu7] at hdom
        exact absurd (hdom.resolve_left fun h => absurd h.1 (by decide)).2 d23
      · rw [if_neg hc7, if_neg hu7, b2] at hdom
        obtain ⟨-, hdom⟩ := hdom.resolve_right fun h => h.1 rfl
        rcases hc with rfl | rfl | rfl
        · have split : [4, 5, 6] = [] ++ 4 :: [5, 6] := rfl
          have hm := hdom.mem_of_split_left (by decide) split
          simp only [List.mem_cons, List.not_mem_nil, or_false] at hm
          omega
        · have split : [4, 5, 6] = [4] ++ 5 :: [6] := rfl
          have hm := hdom.mem_of_split_left (by decide) split
          simp only [List.mem_cons, List.not_mem_nil, or_false] at hm
          omega
        · exact absurd rfl hc7
  · rintro ⟨rfl, rfl⟩
    exact ⟨rfl, rfl, rfl, 2, 2, rfl, rfl, .inl ⟨rfl, [], [5, 6], rfl, List.mem_cons_self⟩⟩

theorem checkedArms_findsNoRemoved : FindsNoRemoved (checkedArms (arms true)) 0 := by
  have hvisits : visits (checkedArms (arms true)) = [0, 1, 2, 3, 7, 8, 4, 5, 6] := by decide
  intro pre c post heq hck hpre u hu
  rw [hvisits] at heq
  have hlinked : ∀ u ∈ (checkedArms (arms true)).peers c, ((checkedArms (arms true)).instr u).parent ≠ none := by
    rcases (checkedArms_check hck).1 with rfl | rfl | rfl <;> decide
  refine ⟨hlinked u hu, fun d hd hs => ?_⟩
  obtain ⟨rfl, rfl⟩ := checkedArms_subsumes.1 hs
  -- the check 4 has been passed, so the next one is 5, which it has removed
  obtain ⟨l₁, l₂, rfl⟩ := List.append_of_mem hd
  have hbefore : Before [0, 1, 2, 3, 7, 8, 4, 5, 6] 4 c := ⟨l₁, l₂ ++ c :: post, by rw [heq]; simp, by simp⟩
  have split : [0, 1, 2, 3, 7, 8, 4, 5, 6] = [0, 1, 2, 3, 7, 8] ++ 4 :: [5, 6] := rfl
  have hm := hbefore.mem_of_split_left (by decide) split
  simp only [List.mem_cons, List.not_mem_nil, or_false] at hm
  have hc5 : c = 5 := by
    have hc := (checkedArms_check hck).1
    omega
  exact hpre 4 hd (checkedArms_subsumes.2 ⟨rfl, hc5⟩)

theorem check_elimination_iff_true_arm : EliminatesChecks (fun _ => none) (checkedArms (arms true)) 0 :=
  (check_elimination_iff (checkedArms_checkable true)).2 checkedArms_findsNoRemoved

/-- A removed check is found again when its arm comes first. -/
theorem check_elimination_finds_removed : ¬ ∀ (g : Graph) (first : Nat), g.Checkable first →
    EliminatesChecks (fun _ => none) g first := by
  intro h
  obtain ⟨g', removed, hrun, -⟩ := h _ _ (checkedArms_checkable false)
  have hstop : removeChecks (fun _ => none) (checkedArms (arms false)) = none := rfl
  rw [hstop] at hrun
  cases hrun

end CheckElimination

end CompilerLab.Jit
