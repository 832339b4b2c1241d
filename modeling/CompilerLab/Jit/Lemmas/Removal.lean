import CompilerLab.Jit.Lemmas.Edges
import CompilerLab.Jit.Lemmas.Links
import CompilerLab.Jit.Lemmas.Lists

/-!
# Removing instructions

What is left of a graph after some of its instructions have been unlinked: the lists without them.
-/

namespace CompilerLab.Jit.Graph

variable {g g' g'' : Graph} {dead : List Nat} {b t i : Nat}

/-- `g'` is `g` without the instructions `dead`. -/
structure Removes (dead : List Nat) (g g' : Graph) : Prop where
  lists : g'.Lists
  graph : g' = { g with instr := g'.instr, block := g'.block }
  instr : ∀ j, (g'.instr j).withoutLinks =
    { (g.instr j).withoutLinks with parent := if j ∈ dead then none else (g.instr j).parent }
  only : InstrsOnly g g'
  instrs : ∀ c, g'.instrs c = (g.instrs c).filter (· ∉ dead)

namespace Removes

theorem refl (h : g.Lists) : Removes [] g g where
  lists := h
  graph := rfl
  instr j := by simp [Instruction.withoutLinks]
  only := .refl g
  instrs c := by simp

/-- The instruction is the same but for its place. -/
theorem instr_eq (h : Removes dead g g') (j : Nat) : g'.instr j = { g.instr j with
    prev := (g'.instr j).prev, next := (g'.instr j).next, parent := (g'.instr j).parent } := by
  have heq := h.instr j
  simp only [Instruction.withoutLinks, Instruction.mk.injEq] at heq
  obtain ⟨h₁, h₂, -, -, -, h₃, h₄, h₅, h₆, h₇, h₈, h₉, h₁₀, h₁₁⟩ := heq
  dsimp only
  rw [← h₁, ← h₂, ← h₃, ← h₄, ← h₅, ← h₆, ← h₇, ← h₈, ← h₉, ← h₁₀, ← h₁₁]

theorem parent (h : Removes dead g g') (j : Nat) :
    (g'.instr j).parent = if j ∈ dead then none else (g.instr j).parent := by
  have heq := h.instr j
  simp only [Instruction.withoutLinks, Instruction.mk.injEq] at heq
  exact heq.2.2.2.2.1

theorem unlink (h : Removes dead g g') (hs : g'.unlinkInstruction b t = some g'') : Removes (dead ++ [t]) g g'' where
  lists := h.lists.unlink hs
  graph := by
    have hgraph := (unlinkInstruction_relinks hs).2.graph
    rw [hgraph, Graph.setParent, modifyInstr, h.graph]
  instr j := by
    rw [(unlinkInstruction_relinks hs).2.instr, h.instr]
    simp only [h.parent, Instruction.mk.injEq, true_and, and_true, List.mem_append, List.mem_singleton]
    by_cases hj : j = t <;> simp [hj]
  only := h.only.trans (unlinkInstruction_instrsOnly hs)
  instrs c := by
    obtain ⟨phis, rest, hl⟩ := h.lists.listed c
    have hnodup : (g'.instrs c).Nodup := by
      rw [hl.instrs_eq]
      exact hl.nodup
    rw [h.lists.unlink_instrs hs, hnodup.erase_eq_filter, h.instrs, List.filter_filter]
    congr 1
    funext j
    simp only [List.mem_append, List.mem_singleton, not_or, Bool.decide_and, bne, Bool.and_comm]
    by_cases hj : j = t <;> simp [hj]

end Removes

end CompilerLab.Jit.Graph
