import CompilerLab.Jit.GraphChecker
import CompilerLab.Jit.InstructionList

/-!
# Results on the graph checker

What the checker accepts is put together as it should be, but for the inputs its loop does not come to and the count of a block
without instructions.
-/

namespace CompilerLab.Jit.Graph

/-! ## Sound graphs -/

/-- An input is an instruction of the same graph that has `instr` among its users. -/
def LinkedInput (g : Graph) (instr : Nat) (input : Option Nat) : Prop :=
  ∃ j p q, input = some j ∧ instr ∈ (g.instr j).users ∧ (g.instr j).parent = some p ∧ (g.instr instr).parent = some q ∧
    (g.block p).inGraph = (g.block q).inGraph

/-- A phi has a source for each input, and each predecessor of its block is a source exactly once. -/
structure SoundPhi (g : Graph) (phi : Nat) : Prop where
  inputs : (g.instr phi).sourceBBlocks.length = (g.instr phi).inputs.length
  nodup : (g.instr phi).sourceBBlocks.Nodup
  sources : ∃ b, (g.instr phi).parent = some b ∧ (g.instr phi).sourceBBlocks.Perm (g.block b).preds

/-- What the checker is to promise of a graph. The walk over the instructions of a block comes to an end. -/
structure Sound (g : Graph) : Prop where
  inputs : ∀ b ∈ g.blocks, ∀ i ∈ g.instrs b, ∀ input ∈ (g.instr i).inputs, g.LinkedInput i input
  users : ∀ b ∈ g.blocks, ∀ i ∈ g.instrs b, ∀ user ∈ (g.instr i).users, some i ∈ (g.instr user).inputs
  phis : ∀ b ∈ g.blocks, ∀ i ∈ g.instrs b, (g.instr i).isPhi = true → g.SoundPhi i
  ends : ∀ b ∈ g.blocks, ∀ n, g.instrCount ≤ n → g.walk n (g.beginInstr b) = g.instrs b
  last : ∀ b ∈ g.blocks, (g.instrs b).getLast? = g.endInstr b
  count : ∀ b ∈ g.blocks, (g.instrs b).length = (g.block b).instrsCount

/-- The inputs of an instruction behind the one `verifyDFG` comes to first; without the property `INPUT` it comes to none. -/
def inputsLeft (g : Graph) (instr : Nat) : List (Option Nat) :=
  if (g.instr instr).hasInputs then (g.instr instr).inputs.tail else (g.instr instr).inputs

/-- What the checker leaves out is in order: the first input lists the instruction, the others are not needed to find it. -/
structure NothingMissed (g : Graph) : Prop where
  first : ∀ b ∈ g.blocks, ∀ i ∈ g.instrs b, ∀ j, (g.instr i).inputs.head? = some (some j) → i ∈ (g.instr j).users
  left : ∀ b ∈ g.blocks, ∀ i ∈ g.instrs b, ∀ input ∈ g.inputsLeft i, g.LinkedInput i input
  empty : ∀ b ∈ g.blocks, g.beginInstr b = none → (g.block b).instrsCount = 0

/-! ## What the checks say -/

section
variable {g : Graph} {b i : Nat}

theorem verifyInstruction_some (h : g.verifyInstruction b i = some ()) :
    g.verifyBlockStructure b i = some () ∧ ((g.instr i).isPhi = true → g.verifyPhiBasicBlocks i = some ()) ∧
      g.verifyDFG i = some () := by
  have hrest : (g.verifyBlockStructure b i).bind (fun _ =>
      if (g.instr i).isPhi = true then (g.verifyPhiBasicBlocks i).bind fun _ => g.verifyDFG i else g.verifyDFG i) = some () := by
    unfold verifyInstruction at h
    simp only [Option.bind_eq_bind] at h
    split at h
    · exact (ASSERT_bind.1 h).2
    · exact h
  obtain ⟨_, hstructure, hrest⟩ := Option.bind_eq_some_iff.1 hrest
  refine ⟨hstructure, ?_⟩
  by_cases hphi : (g.instr i).isPhi = true
  · rw [if_pos hphi] at hrest
    obtain ⟨_, hphis, hdfg⟩ := Option.bind_eq_some_iff.1 hrest
    exact ⟨fun _ => hphis, hdfg⟩
  · rw [if_neg hphi] at hrest
    exact ⟨fun h => absurd h hphi, hrest⟩

/-- The walk has come to an end, and all its instructions are accepted. -/
theorem verifyFrom_some {n : Nat} {cur : Option Nat} {k counter : Nat} (h : g.verifyFrom b n cur k = some counter) :
    (∀ i ∈ g.walk n cur, g.verifyInstruction b i = some ()) ∧ counter = k + (g.walk n cur).length ∧
      (∀ m, n ≤ m → g.walk m cur = g.walk n cur) ∧ ∀ l, (g.walk n cur).getLast? = some l → (g.instr l).next = none := by
  induction n generalizing cur k with
  | zero =>
      cases cur with
      | none =>
          cases h
          simp [walk]
      | some i => cases h
  | succ n ih =>
      cases cur with
      | none =>
          cases h
          simp [walk]
      | some i =>
          obtain ⟨_, hverify, hrest⟩ := Option.bind_eq_some_iff.1 h
          obtain ⟨hall, hcounter, hends, hlast⟩ := ih hrest
          refine ⟨?_, ?_, ?_, ?_⟩
          · intro j hj
            rcases List.mem_cons.1 hj with rfl | hj
            · exact hverify
            · exact hall j hj
          · rw [hcounter, walk, List.length_cons]
            omega
          · intro m hm
            obtain ⟨m, rfl⟩ : ∃ k, m = k + 1 := ⟨m - 1, by omega⟩
            rw [walk, walk, hends m (by omega)]
          · intro l hl
            cases hnext : (g.instr i).next with
            | none =>
                rw [walk, hnext] at hl
                simp only [walk, List.getLast?_singleton, Option.some.injEq] at hl
                rw [← hl, hnext]
            | some j =>
                apply hlast
                rw [walk] at hl
                cases n with
                | zero =>
                    rw [hnext] at hrest
                    cases hrest
                | succ n =>
                    rw [hnext, walk] at hl ⊢
                    rwa [List.getLast?_cons_cons] at hl

/-- An input at which the loop does not stop the program is an instruction of the graph. -/
theorem findAsUser_some {inputs : List (Option Nat)} (h : g.findAsUser i b inputs = some true) :
    ∃ j p, inputs.head? = some (some j) ∧ (g.instr j).parent = some p ∧ (g.block p).inGraph = (g.block b).inGraph := by
  cases inputs with
  | nil => cases h
  | cons input inputs =>
      cases input with
      | none => cases h
      | some j =>
          simp only [findAsUser, Option.bind_eq_bind, Option.bind_some] at h
          obtain ⟨p, hp, h⟩ := Option.bind_eq_some_iff.1 h
          exact ⟨j, p, rfl, hp, (ASSERT_bind.1 h).1⟩

theorem verifyDFG_inputs (h : g.verifyDFG i = some ()) (hinputs : (g.instr i).hasInputs = true) :
    ∃ p, (g.instr i).parent = some p ∧ g.findAsUser i p (g.instr i).inputs = some true := by
  unfold verifyDFG at h
  simp only [hinputs, if_true, Option.bind_eq_bind] at h
  obtain ⟨p, hp, h⟩ := Option.bind_eq_some_iff.1 h
  obtain ⟨found, hfound, h⟩ := Option.bind_eq_some_iff.1 h
  exact ⟨p, hp, by rw [hfound, (ASSERT_bind.1 h).1]⟩

theorem verifyDFG_users (h : g.verifyDFG i = some ()) : ∀ user ∈ (g.instr i).users, some i ∈ (g.instr user).inputs := by
  have husers : ∀ user ∈ (g.instr i).users,
      (g.instr user).hasInputs = true ∧ (g.instr user).inputs.contains (some i) = true := by
    unfold verifyDFG at h
    simp only [Option.bind_eq_bind] at h
    split at h
    · obtain ⟨p, hp, h⟩ := Option.bind_eq_some_iff.1 h
      obtain ⟨found, hfound, h⟩ := Option.bind_eq_some_iff.1 h
      exact ASSERT_eq_some.1 (ASSERT_bind.1 h).2
    · exact ASSERT_eq_some.1 h
  intro user huser
  exact List.contains_iff_mem.1 (husers user huser).2

/-- A list whose places are those at which the elements of another list are found first has no element twice. -/
theorem nodup_of_idxOf {sources preds : List Nat}
    (hmask : ∀ idx < sources.length, ∃ pred ∈ preds, sources.idxOf pred = idx) :
    sources.Nodup ∧ ∀ b ∈ sources, b ∈ preds := by
  have hget : ∀ idx (hidx : idx < sources.length), sources[idx] ∈ preds ∧ sources.idxOf sources[idx] = idx := by
    intro idx hidx
    obtain ⟨pred, hpred, rfl⟩ := hmask idx hidx
    rw [List.getElem_idxOf]
    exact ⟨hpred, rfl⟩
  constructor
  · rw [List.nodup_iff_injective_get]
    intro x y hxy
    have hx := (hget x x.isLt).2
    have hy := (hget y y.isLt).2
    simp only [List.get_eq_getElem] at hxy
    rw [hxy] at hx
    exact Fin.ext (hx.symm.trans hy)
  · intro b hb
    obtain ⟨idx, hidx, rfl⟩ := List.getElem_of_mem hb
    exact (hget idx hidx).1

theorem soundPhi_of_verify (h : g.verifyPhiBasicBlocks i = some ()) : g.SoundPhi i := by
  unfold verifyPhiBasicBlocks at h
  simp only [Option.bind_eq_bind, Option.bind_eq_some_iff, ASSERT_eq_some, exists_const] at h
  obtain ⟨p, hp, hinputs, hlen, hsources, hmask⟩ := h
  obtain ⟨hnodup, hpreds⟩ := nodup_of_idxOf hmask
  refine ⟨hinputs, hnodup, p, hp, ?_⟩
  exact (List.subperm_of_subset hnodup hpreds).perm_of_length_le hlen.ge

theorem endInstr_of_verify (h : g.verifyBlockStructure b i = some ()) (hnext : (g.instr i).next = none) :
    g.endInstr b = some i := by
  have hlast : (g.block b).lastInst = some i ∨ (g.block b).lastInst = none ∧ (g.block b).lastPhi = some i := by
    by_contra hneither
    unfold verifyBlockStructure at h
    simp only [Option.bind_eq_bind, if_neg hneither] at h
    split at h
    · exact (ASSERT_eq_some.1 (ASSERT_bind.1 h).2) hnext
    · exact (ASSERT_eq_some.1 (ASSERT_bind.1 h).2) hnext
  unfold endInstr
  rcases hlast with hlast | ⟨hnone, hphi⟩
  · rw [hlast]
    rfl
  · rw [hnone, hphi]
    rfl

/-! ## A block -/

/-- An accepted block: its instructions are accepted, and the walk ends at the last one. -/
theorem verifyBlock_some (h : g.verifyControlAndDataFlowGraphs b = some ()) :
    (∀ i ∈ g.instrs b, g.verifyInstruction b i = some ()) ∧
      (∀ n, g.instrCount ≤ n → g.walk n (g.beginInstr b) = g.instrs b) ∧ (g.instrs b).getLast? = g.endInstr b ∧
      (g.beginInstr b ≠ none → (g.instrs b).length = (g.block b).instrsCount) := by
  unfold verifyControlAndDataFlowGraphs at h
  cases hbegin : g.beginInstr b with
  | none =>
      rw [hbegin] at h
      simp only [Option.bind_eq_bind, ASSERT_bind, ASSERT_eq_some] at h
      have hinstrs : g.instrs b = [] := by
        rw [instrs, hbegin, walk]
      have hend : g.endInstr b = none := by
        rw [endInstr, h.1, h.2]
        rfl
      rw [hinstrs, hend]
      refine ⟨by simp, ?_, rfl, by simp⟩
      intro n _
      rw [walk]
  | some first =>
      rw [hbegin] at h
      obtain ⟨counter, hfrom, hcount⟩ := Option.bind_eq_some_iff.1 h
      obtain ⟨hall, hcounter, hends, hlast⟩ := verifyFrom_some hfrom
      have hinstrs : g.instrs b = g.walk g.instrCount (some first) := by
        rw [instrs, hbegin]
      rw [hinstrs]
      refine ⟨hall, hends, ?_, ?_⟩
      · cases hget : (g.walk g.instrCount (some first)).getLast? with
        | none =>
            rw [List.getLast?_eq_none_iff] at hget
            cases hn : g.instrCount with
            | zero =>
                rw [hn] at hfrom
                cases hfrom
            | succ n =>
                rw [hn, walk] at hget
                cases hget
        | some l =>
            have hverify := hall l (List.mem_of_getLast? hget)
            exact (endInstr_of_verify (verifyInstruction_some hverify).1 (hlast l hget)).symm
      · intro _
        rw [ASSERT_eq_some.1 hcount, hcounter, Nat.zero_add]

end

/-! ## Accepted graphs -/

theorem verifyBlock_of_run {g : Graph} {b : Nat} (h : g.runGraphChecker = some ()) (hb : b ∈ g.blocks) :
    g.verifyControlAndDataFlowGraphs b = some () := by
  obtain ⟨_, hblocks, _⟩ := Option.bind_eq_some_iff.1 h
  generalize g.blocks = bs at hb hblocks
  induction bs with
  | nil => cases hb
  | cons c bs ih =>
      obtain ⟨_, hc, hrest⟩ := Option.bind_eq_some_iff.1 hblocks
      rcases List.mem_cons.1 hb with rfl | hb
      · exact hc
      · exact ih hb hrest

/-- An accepted graph is sound if and only if nothing is wrong with what the checker leaves out. -/
theorem graphChecker_sound_iff {g : Graph} (h : g.runGraphChecker = some ()) : g.Sound ↔ g.NothingMissed := by
  have hverify : ∀ b ∈ g.blocks, ∀ i ∈ g.instrs b, g.verifyInstruction b i = some () := by
    intro b hb
    exact (verifyBlock_some (verifyBlock_of_run h hb)).1
  constructor
  · intro hsound
    refine ⟨?_, ?_, ?_⟩
    · intro b hb i hi j hj
      obtain ⟨k, p, q, hk, huser, _⟩ := hsound.inputs b hb i hi (some j) (List.mem_of_head? hj)
      cases hk
      exact huser
    · intro b hb i hi input hinput
      apply hsound.inputs b hb i hi
      unfold inputsLeft at hinput
      split at hinput
      · exact List.mem_of_mem_tail hinput
      · exact hinput
    · intro b hb hbegin
      rw [← hsound.count b hb, instrs, hbegin, walk]
      rfl
  · intro hmissed
    refine ⟨?_, ?_, ?_, ?_, ?_, ?_⟩
    · intro b hb i hi input hinput
      by_cases hhas : (g.instr i).hasInputs = true
      · obtain ⟨q, hq, hfind⟩ := verifyDFG_inputs (verifyInstruction_some (hverify b hb i hi)).2.2 hhas
        obtain ⟨j, p, hhead, hp, hgraph⟩ := findAsUser_some hfind
        have hlist := List.eq_cons_of_mem_head? hhead
        rw [hlist] at hinput
        rcases List.mem_cons.1 hinput with rfl | hinput
        · exact ⟨j, p, q, rfl, hmissed.first b hb i hi j hhead, hp, hq, hgraph⟩
        · apply hmissed.left b hb i hi
          rw [inputsLeft, if_pos hhas]
          exact hinput
      · apply hmissed.left b hb i hi
        rw [inputsLeft, if_neg hhas]
        exact hinput
    · intro b hb i hi
      exact verifyDFG_users (verifyInstruction_some (hverify b hb i hi)).2.2
    · intro b hb i hi hphi
      exact soundPhi_of_verify ((verifyInstruction_some (hverify b hb i hi)).2.1 hphi)
    · intro b hb
      exact (verifyBlock_some (verifyBlock_of_run h hb)).2.1
    · intro b hb
      exact (verifyBlock_some (verifyBlock_of_run h hb)).2.2.1
    · intro b hb
      by_cases hbegin : g.beginInstr b = none
      · rw [hmissed.empty b hb hbegin, instrs, hbegin, walk]
        rfl
      · exact (verifyBlock_some (verifyBlock_of_run h hb)).2.2.2 hbegin

/-- The second input of the addition does not know of it. -/
def missedUser : Graph :=
  Graph.ofLists
    [{ opcode := .ARG, type := .I32, next := some 1, parent := some 0, users := [2] },
      { opcode := .ARG, type := .I32, prev := some 0, parent := some 0 },
      { opcode := .ADD, type := .I32, parent := some 1, properties := .INPUT, inputs := [some 0, some 1] }]
    [{ id := 0, succs := [1], instrsCount := 2, firstInst := some 0, lastInst := some 1 },
      { id := 1, preds := [0], instrsCount := 1, firstInst := some 2, lastInst := some 2 }]
    []

theorem missedUser_accepted : missedUser.runGraphChecker = some () := by
  decide

theorem graphChecker_sound_iff_missedUser : missedUser.Sound ↔ missedUser.NothingMissed :=
  graphChecker_sound_iff missedUser_accepted

theorem missedUser_wrong : missedUser.runGraphChecker = some () ∧ ¬missedUser.Sound := by
  refine ⟨missedUser_accepted, ?_⟩
  intro hsound
  obtain ⟨j, p, q, hj, huser, _⟩ := hsound.inputs 1 (by decide) 2 (by decide) (some 1) (by decide)
  cases hj
  exact absurd huser (by decide)

end CompilerLab.Jit.Graph
