import CompilerLab.Jit.DCE
import CompilerLab.Jit.Lemmas.Removal
import CompilerLab.Jit.Lemmas.Traversals

/-!
# What dead code elimination removes

The live instructions are closed under taking operands, so marking adds what an instruction needs and no more.
-/

namespace CompilerLab.Jit

open CompilerLab.Lib

namespace Graph

variable {g g' : Graph} {first b i j : Nat}

theorem walk_congr (hi : g'.instr = g.instr) (n : Nat) (cur : Option Nat) : g'.walk n cur = g.walk n cur := by
  induction n generalizing cur with
  | zero => cases cur <;> rfl
  | succ n ih =>
      cases cur with
      | none => rfl
      | some i => rw [walk, walk, ih, hi]

theorem instrs_congr (hi : g'.instr = g.instr) (hb : g'.block = g.block) (hc : g'.instrCount = g.instrCount) (b : Nat) :
    g'.instrs b = g.instrs b := by
  rw [instrs, instrs, beginInstr, beginInstr, hb, hc, walk_congr hi]

/-- A graph whose blocks can all be reached, with its instructions in lists and with every input in the graph. A stored
order of the blocks is one of all of them. -/
structure WellFormed (g : Graph) (first : Nat) : Prop where
  connected : g.WellConnected first
  reachable : ∀ b ∈ g.blocks, g.Leads first b
  rpo : g.valid .RPO = true → g.rpoBlocks.Nodup ∧ ∀ b, b ∈ g.rpoBlocks ↔ b ∈ g.blocks
  lists : g.Lists
  inputs : ∀ i, g.Within i → (g.instr i).hasInputs = true → ∀ a ∈ (g.instr i).inputs, ∃ j, a = some j ∧ g.Within j

/-- What was valid stays valid. -/
theorem runRPO_valid {a : AnalysisFlag} (h : g.runRPO = some g') (ha : g.valid a = true) : g'.valid a = true := by
  rw [Graph.runRPO] at h
  split at h
  · rwa [← Option.some.inj h]
  · simp only [Option.bind_eq_bind, Option.bind_eq_some_iff, Option.pure_def, Option.some.injEq] at h
    obtain ⟨l, -, rfl⟩ := h
    by_cases har : a = .RPO <;> simp [setAnalysisValid, har, ha]

namespace WellFormed

theorem lt (h : g.WellFormed first) (hi : g.Within i) : i < g.instrCount := by
  obtain ⟨b, -, hi⟩ := hi
  obtain ⟨phis, rest, hl⟩ := h.lists.listed b
  rw [hl.instrs_eq] at hi
  exact hl.lt i hi

theorem uses (h : g.WellFormed first) (hi : g.Within i) (hj : g.Uses i j) : g.Within j := by
  obtain ⟨k, hk, hw⟩ := h.inputs i hi hj.1 _ hj.2
  rwa [Option.some.inj hk]

/-- `PassManager::Run<RPO>` gives the order of all blocks, whether it is computed or was stored. -/
theorem runRPO (h : g.WellFormed first) : ∃ l v, g.runRPO = some { g with rpoBlocks := l, valid := v } ∧
    v .RPO = true ∧ l.Nodup ∧ ∀ b, b ∈ l ↔ b ∈ g.blocks := by
  by_cases hv : g.valid .RPO = true
  · obtain ⟨hnodup, hmem⟩ := h.rpo hv
    exact ⟨g.rpoBlocks, g.valid, by rw [Graph.runRPO, if_pos hv], hv, hnodup, hmem⟩
  · obtain ⟨l, hl, hnodup, hmem⟩ := h.connected.doRPO h.reachable
    refine ⟨l, Function.update g.valid .RPO true, ?_, Function.update_self .., hnodup, hmem⟩
    rw [Graph.runRPO, if_neg hv, hl]
    rfl

end WellFormed

end Graph

namespace DCE

variable {g : Graph} {first i j : Nat} {alive : Nat → Bool} {l : List Nat}

/-! ## Marking -/

theorem markAliveInputs_marks (g : Graph) :
    (markAliveInputs g).Marks ((markAliveInputs g).next fun _ => false) fun _ => True where
  next _ := rfl
  enter := by
    intro s a s' _ hs
    simp only [markAliveInputs, Option.bind_eq_bind, Option.bind_eq_some_iff, Option.pure_def, Option.some.injEq] at hs
    obtain ⟨i, rfl, rfl⟩ := hs
    refine ⟨trivial, fun x => ?_⟩
    cases x with
    | none => simp [markAliveInputs]
    | some j => by_cases hj : j = i <;> simp [markAliveInputs, hj]
  again := by
    intro s a b s' _ hs
    obtain rfl := Option.some.inj hs
    exact ⟨trivial, fun _ => rfl⟩
  forth := by
    intro s a b s' _ hs
    obtain rfl := Option.some.inj hs
    exact ⟨trivial, fun _ => rfl⟩
  back := by
    intro s a b s' _ hs
    obtain rfl := Option.some.inj hs
    exact ⟨trivial, fun _ => rfl⟩
  leave := by
    intro s a s' _ _ hs
    obtain rfl := Option.some.inj hs
    exact ⟨trivial, fun _ => rfl⟩

theorem mem_next {x : Option Nat} {s : Nat → Bool} : x ∈ (markAliveInputs g).next s (some i) ↔
    (g.instr i).hasInputs = true ∧ x ∈ (g.instr i).inputs := by
  simp only [markAliveInputs, Option.elim_some]
  split_ifs with h <;> simp [h]

/-- The inputs that are followed are the operands. -/
theorem reaches_iff {x : Option Nat} (h : g.WellFormed first) (hi : g.Within i) :
    Relation.ReflTransGen (fun u v => v ∈ (markAliveInputs g).next (fun _ => false) u) (some i) x ↔
      ∃ j, x = some j ∧ g.Within j ∧ Relation.ReflTransGen g.Uses i j := by
  constructor
  · intro hx
    induction hx with
    | refl => exact ⟨i, rfl, hi, .refl⟩
    | tail _ hz ih =>
        obtain ⟨j, rfl, hj, hij⟩ := ih
        obtain ⟨hin, hz⟩ := mem_next.1 hz
        obtain ⟨k, rfl, hk⟩ := h.inputs j hj hin _ hz
        exact ⟨k, rfl, hk, hij.tail ⟨hin, hz⟩⟩
  · rintro ⟨j, rfl, -, hij⟩
    exact hij.lift some fun _ _ hu => mem_next.2 hu

/-- The live instructions so far are instructions of the graph, and their operands are live. -/
structure Closed (g : Graph) (alive : Nat → Bool) : Prop where
  within : ∀ i, alive i = true → g.Within i
  uses : ∀ i j, alive i = true → g.Uses i j → alive j = true

theorem markAlive_eq (h : g.WellFormed first) (hi : g.Within i) (hc : Closed g alive) :
    ∃ alive', markAlive g alive (some i) = some alive' ∧ Closed g alive' ∧
      ∀ j, alive' j = true ↔ alive j = true ∨ Relation.ReflTransGen g.Uses i j := by
  cases hs : alive i with
  | true =>
      refine ⟨alive, if_pos hs, hc, fun j => ⟨.inl, ?_⟩⟩
      rintro (hj | hj)
      · exact hj
      · induction hj with
        | refl => exact hs
        | tail _ hu ih => exact hc.uses _ _ ih hu
  | false =>
      have hseen : (markAliveInputs g).seen alive (some i) = false := hs
      have closed : ∀ x, (markAliveInputs g).seen alive x = true →
          ∀ y ∈ (markAliveInputs g).next (fun _ => false) x, (markAliveInputs g).seen alive y = true := by
        intro x hx y hy
        cases x with
        | none => cases hx
        | some k =>
            obtain ⟨hin, hy⟩ := mem_next.1 hy
            obtain ⟨j, rfl, -⟩ := h.inputs k (hc.within k hx) hin y hy
            exact hc.uses k j hx ⟨hin, hy⟩
      have reach : ∀ x, Relation.ReflTransGen ((markAliveInputs g).White
          ((markAliveInputs g).next fun _ => false) alive) (some i) x → ∃ j, x = some j ∧ g.Within j := by
        intro x hx
        obtain ⟨j, hj, hw, -⟩ := (reaches_iff h hi).1 (hx.lift id fun _ _ hw => hw.1)
        exact ⟨j, hj, hw⟩
      obtain ⟨alive', hv⟩ := (markAliveInputs_marks g).visit_total (U := (List.range g.instrCount).map some)
        (n := g.instrCount + 1) trivial hseen (fun x hx => by
          obtain ⟨j, rfl, hj⟩ := reach x hx
          exact List.mem_map_of_mem (List.mem_range.2 (h.lt hj)))
        (fun s x _ hx => by
          obtain ⟨j, -, rfl⟩ := List.mem_map.1 hx
          exact ⟨_, rfl⟩)
        (fun _ _ _ _ _ _ => ⟨_, rfl⟩) (fun _ _ _ _ _ _ => ⟨_, rfl⟩) (fun _ _ _ _ _ _ => ⟨_, rfl⟩)
        (fun _ _ _ _ => ⟨_, rfl⟩) (by simp)
      have mem : ∀ j, alive' j = true ↔ alive j = true ∨ Relation.ReflTransGen g.Uses i j := by
        intro j
        refine ((markAliveInputs_marks g).visit_closed trivial hseen closed hv (some j)).trans (or_congr_right ?_)
        rw [reaches_iff h hi]
        constructor
        · rintro ⟨k, hk, -, hik⟩
          exact Option.some.inj hk ▸ hik
        · intro hij
          obtain ⟨k, hk, hw, hik⟩ := (reaches_iff h hi).1 (hij.lift some fun _ _ hu => mem_next.2 hu)
          exact ⟨k, hk, hw, hik⟩
      refine ⟨alive', by rw [markAlive, hseen, if_neg Bool.false_ne_true, hv], ⟨?_, ?_⟩, mem⟩
      · intro j hj
        rcases (mem j).1 hj with hj | hj
        · exact hc.within j hj
        · obtain ⟨k, hk, hw, -⟩ := (reaches_iff h hi).1 (hj.lift some fun _ _ hu => mem_next.2 hu)
          exact Option.some.inj hk ▸ hw
      · intro j k hj hjk
        refine (mem k).2 (((mem j).1 hj).imp (fun hj => hc.uses j k hj hjk) fun hij => hij.tail hjk)

/-- The first loop of the pass marks what the instructions with side effects need. -/
theorem markInstrs_eq (h : g.WellFormed first) (hl : ∀ i ∈ l, g.Within i) :
    ∃ alive, markInstrs g l (fun _ => false) = some alive ∧ ∀ j, alive j = true ↔
      ∃ i ∈ l, (g.instr i).hasSideEffects = true ∧ Relation.ReflTransGen g.Uses i j := by
  obtain ⟨alive, ha, -, hmem⟩ : ∃ alive, markInstrs g l (fun _ => false) = some alive ∧ Closed g alive ∧
      ∀ j, alive j = true ↔ ∃ i ∈ l, (g.instr i).hasSideEffects = true ∧ Relation.ReflTransGen g.Uses i j := by
    refine foldlM_completes (P := fun done alive => Closed g alive ∧ ∀ j, alive j = true ↔
      ∃ i ∈ done, (g.instr i).hasSideEffects = true ∧ Relation.ReflTransGen g.Uses i j) ?_ ⟨⟨nofun, nofun⟩, by simp⟩
    rintro done i rest alive heq ⟨hc, hmem⟩
    cases he : (g.instr i).hasSideEffects with
    | false =>
        refine ⟨alive, rfl, hc, fun j => ?_⟩
        simp [hmem, or_and_right, exists_or, he]
    | true =>
        obtain ⟨alive', ha, hc', hmem'⟩ := markAlive_eq h (hl i (by simp [heq])) hc
        refine ⟨alive', ha, hc', fun j => ?_⟩
        simp [hmem', hmem, or_and_right, exists_or, he]
  exact ⟨alive, ha, hmem⟩

/-! ## Removing -/

theorem removeDead_removes (h : g.Lists) (hl : l.Nodup) (hp : ∀ i ∈ l, g.Within i) :
    ∃ g', removeDead g l = some g' ∧ g.Removes l g' := by
  refine foldlM_completes (P := fun done g' => g.Removes done g') ?_ (.refl h)
  intro done i rest g' heq hr
  obtain ⟨b, -, hi⟩ := hp i (by simp [heq])
  have hout : i ∉ done := by
    rw [heq] at hl
    exact fun hm => (List.nodup_append.1 hl).2.2 i hm i List.mem_cons_self rfl
  have hi' : i ∈ g'.instrs b := by
    rw [hr.instrs]
    exact List.mem_filter.2 ⟨hi, by simpa using hout⟩
  obtain ⟨phis, rest', hb⟩ := hr.lists.listed b
  rw [hb.instrs_eq] at hi'
  obtain ⟨g'', hs⟩ := hb.unlink_total hi'
  exact ⟨g'', by rw [hb.parent i hi']; exact hs, hr.unlink hs⟩

/-! ## The pass -/

/-- The instructions of different blocks are different. -/
theorem nodup_flatMap_instrs (h : g.Lists) (hl : l.Nodup) : (l.flatMap g.instrs).Nodup := by
  have parent : ∀ b, ∀ i ∈ g.instrs b, (g.instr i).parent = some b := by
    intro b i hi
    obtain ⟨phis, rest, hb⟩ := h.listed b
    rw [hb.instrs_eq] at hi
    exact hb.parent i hi
  refine List.nodup_flatMap.2 ⟨fun b _ => ?_, hl.imp ?_⟩
  · obtain ⟨phis, rest, hb⟩ := h.listed b
    rw [hb.instrs_eq]
    exact hb.nodup
  · intro b c hbc i hi hi'
    exact hbc (Option.some.inj ((parent b i hi).symm.trans (parent c i hi')))

/-- The pass removes the instructions nothing with side effects needs. The order of the blocks is stored on the way. -/
theorem run_removes (h : g.WellFormed first) : ∃ g' dead l v, run g = some (g', !dead.isEmpty) ∧
    Graph.Removes dead { g with rpoBlocks := l, valid := v } g' ∧ ∀ i, i ∈ dead ↔ g.Within i ∧ ¬ g.Needed i := by
  obtain ⟨l, v, hrpo, hv, hnodup, hmem⟩ := h.runRPO
  have lists : Graph.Lists { g with rpoBlocks := l, valid := v } := h.lists.congr rfl rfl fun _ => ⟨rfl, rfl, rfl, rfl⟩
  have instrs : Graph.instrs { g with rpoBlocks := l, valid := v } = g.instrs := by
    funext b
    apply Graph.instrs_congr <;> rfl
  have hwithin : ∀ i, i ∈ l.flatMap g.instrs ↔ g.Within i := by
    intro i
    simp only [List.mem_flatMap, hmem, Graph.Within]
  obtain ⟨alive, ha, halive⟩ := markInstrs_eq (l := l.flatMap g.instrs) h fun i hi => (hwithin i).1 hi
  have hdead : ∀ i, i ∈ deadInstrs (l.flatMap g.instrs) alive ↔ g.Within i ∧ ¬ g.Needed i := by
    intro i
    have hneeded : g.Needed i ↔ alive i = true := by
      simp only [halive, hwithin]
      rfl
    rw [deadInstrs, List.mem_filter, hwithin, hneeded, Bool.not_eq_true', Bool.not_eq_true]
  obtain ⟨g', hg', hr⟩ := removeDead_removes (l := deadInstrs (l.flatMap g.instrs) alive) lists
    ((nodup_flatMap_instrs h.lists hnodup).filter _) fun i hi => by
      obtain ⟨⟨b, hb, hi⟩, -⟩ := (hdead i).1 hi
      exact ⟨b, hb, instrs ▸ hi⟩
  refine ⟨g', deadInstrs (l.flatMap g.instrs) alive, l, v, ?_, hr, hdead⟩
  have ha' : markInstrs { g with rpoBlocks := l, valid := v } (l.flatMap g.instrs) (fun _ => false) = some alive := ha
  simp only [run, hrpo, Graph.getRPO, ASSERT_of hv, Option.bind_eq_bind, Option.bind_some, Option.pure_def, instrs, ha',
    hg']

end DCE

end CompilerLab.Jit
