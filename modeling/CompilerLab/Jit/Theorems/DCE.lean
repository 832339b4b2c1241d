import CompilerLab.Jit.Lemmas.DCE
import CompilerLab.Jit.Lemmas.Inlining

/-!
# Dead code elimination and calls

The pass removes what no side effect needs. An unused ARG is among it, and the inliner binds the arguments of a call by
the position of the ARG instructions.
-/

namespace CompilerLab.Jit

open CompilerLab.Lib

namespace Graph

/-- A graph that can be called: its first block holds its arguments and then its constants, and the users of an
instruction of that block have it as their input. -/
structure Callee (g : Graph) (first : Nat) : Prop extends g.WellFormed first where
  entry : ∃ args consts, g.instrs first = args ++ consts ∧ (∀ i ∈ args, (g.instr i).opcode = .ARG) ∧
    ∀ i ∈ consts, (g.instr i).isConst = true
  users : ∀ i ∈ g.instrs first, ∀ u ∈ (g.instr i).users, (g.instr u).hasInputs = true ∧
    (g.instr i).users.count u ≤ (g.instr u).inputs.count (some i)

variable {g g' : Graph} {first : Nat} {dead : List Nat}

theorem Removes.sameData (h : Removes dead g g') : SameData g g' := by
  intro j
  rw [h.instr_eq]
  rfl

/-- A block without phis whose instructions are known. -/
theorem Lists.layout_of_instrs {b : Nat} (h : g.Lists) (hb : ∀ i ∈ g.instrs b, (g.instr i).isPhi = false) :
    g.Layout b [] (g.instrs b) := by
  obtain ⟨phis, rest, hl⟩ := h.listed b
  cases phis with
  | nil =>
      rw [hl.instrs_eq]
      exact hl.toLayout
  | cons phi phis =>
      have hphi := hl.isPhi phi List.mem_cons_self
      rw [hb phi (by simp [hl.instrs_eq])] at hphi
      cases hphi

namespace Callee

theorem notPhi (h : g.Callee first) (i : Nat) (hi : i ∈ g.instrs first) : (g.instr i).isPhi = false := by
  obtain ⟨args, consts, heq, hargs, hconsts⟩ := h.entry
  rw [heq, List.mem_append] at hi
  rcases hi with hi | hi
  · rw [Instruction.isPhi, hargs i hi]
    rfl
  · have hconst := hconsts i hi
    rw [Instruction.isConst, beq_iff_eq] at hconst
    rw [Instruction.isPhi, hconst]
    rfl

/-- The graph with another order of its blocks stored. -/
theorem layout (h : g.Callee first) (hr : Removes dead g g') : g'.Layout first [] (g'.instrs first) :=
  hr.lists.layout_of_instrs fun i hi => by
    rw [hr.instrs] at hi
    rw [Instruction.isPhi, (hr.sameData.fields i).1]
    exact h.notPhi i (List.mem_of_mem_filter hi)

theorem within (h : g.Callee first) {i : Nat} (hi : i ∈ g.instrs first) : g.Within i :=
  ⟨first, h.connected.first_mem, hi⟩

end Callee

end Graph

namespace DCE

open Graph Inlining

variable {g : Graph} {first : Nat}

/-- What the pass does to a callee: the lists lose the instructions that are not needed. -/
theorem run_callee (h : g.Callee first) : ∃ (g' : Graph) (dead : List Nat), run g = some (g', !dead.isEmpty) ∧
    (∀ i, i ∈ dead ↔ g.Within i ∧ ¬ g.Needed i) ∧ (∀ b, g'.instrs b = (g.instrs b).filter (· ∉ dead)) ∧
    SameData g g' ∧ g'.firstBlock = some first ∧ g'.blocks = g.blocks ∧ g'.Layout first [] (g'.instrs first) := by
  obtain ⟨g', dead, l, v, hrun, hr, hdead⟩ := run_removes h.toWellFormed
  have hg' := hr.graph
  have instrs : ∀ b, Graph.instrs { g with rpoBlocks := l, valid := v } b = g.instrs b := by
    intro b
    apply Graph.instrs_congr <;> rfl
  have hinstrs : ∀ b, g'.instrs b = (g.instrs b).filter (· ∉ dead) := fun b => by
    rw [hr.instrs, instrs]
  have hsame : SameData g g' := hr.sameData
  refine ⟨g', dead, hrun, hdead, hinstrs, hsame, ?_, ?_, hr.lists.layout_of_instrs fun i hi => ?_⟩
  · rw [hg']
    exact h.connected.firstBlock
  · rw [hg']
    rfl
  · rw [hinstrs] at hi
    rw [Instruction.isPhi, (hsame.fields i).1]
    exact h.notPhi i (List.mem_of_mem_filter hi)

open Classical in
/-- The pass comes to its end and removes exactly what is not needed, and every call whose arguments could be bound before
is bound in the same way after. -/
def KeepsCalls (g : Graph) : Prop :=
  ∃ g' found, run g = some (g', found) ∧ (∀ b ∈ g.blocks, g'.instrs b = (g.instrs b).filter fun i => g.Needed i) ∧
    ∀ args k, propagateArguments g args = some k → ∃ k', propagateArguments g' args = some k' ∧
      ∀ i, g'.Within i → (k'.instr i).inputs = (k.instr i).inputs

/-- A callee with two arguments that returns the sum of the first one and the argument `k`. -/
def calleeAdding (k : Fin 2) : Graph :=
  .ofLists
    [{ opcode := .ARG, type := .I32, next := some 1, parent := some 0, users := if k = 0 then [2, 2] else [2] },
      { opcode := .ARG, type := .I32, prev := some 0, parent := some 0, users := if k = 1 then [2] else [] },
      { opcode := .ADD, type := .I32, properties := ARITHM ||| .COMMUTABLE, next := some 3, parent := some 1,
        users := [3], inputs := [some 0, some k] },
      { opcode := .RET, type := .I32, properties := .CF ||| .INPUT ||| .SIDE_EFFECTS, prev := some 2, parent := some 1,
        inputs := [some 2] }]
    [{ id := 0, succs := [1], instrsCount := 2, firstInst := some 0, lastInst := some 1 },
      { id := 1, preds := [0], succs := [2], instrsCount := 2, firstInst := some 2, lastInst := some 3 },
      { id := 2, preds := [1] }] []

theorem calleeAdding_callee (k : Fin 2) : (calleeAdding k).Callee 0 where
  connected := by
    refine ⟨rfl, ?_, ?_, rfl, ?_, ?_, ?_, ?_⟩ <;> revert k <;> decide
  reachable := leads_of_lt (by revert k; decide)
  rpo := nofun
  lists := Lists.ofLists (fun b => ([], if b = 0 then [0, 1] else if b = 1 then [2, 3] else []))
    (by revert k; decide) (by revert k; decide)
  inputs := by
    have inside : ∀ b ∈ (calleeAdding k).blocks, ∀ i ∈ (calleeAdding k).instrs b, ∀ a ∈ ((calleeAdding k).instr i).inputs,
        ∃ c ∈ (calleeAdding k).blocks, ∃ j ∈ (calleeAdding k).instrs c, a = some j := by
      revert k
      decide
    rintro i ⟨b, hb, hi⟩ - a ha
    obtain ⟨c, hc, j, hj, rfl⟩ := inside b hb i hi a ha
    exact ⟨j, rfl, c, hc, hj⟩
  entry := ⟨[0, 1], [], by revert k; decide, by revert k; decide, nofun⟩
  users := by revert k; decide

end DCE

end CompilerLab.Jit
