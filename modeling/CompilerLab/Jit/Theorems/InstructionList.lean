import CompilerLab.Jit.InstructionList
import CompilerLab.Jit.Lemmas.Lists

/-!
# Any sequence of operations on the instruction lists

The operations that stay within one segment keep every block linked as it promises.
-/

namespace CompilerLab.Jit.Graph

open CompilerLab.Lib

variable {g g' : Graph} {b t i : Nat} {phis rest l₁ l₂ : List Nat}

/-! ## From the layout to the walks -/

namespace Layout

theorem walkBack_eq (h : g.Layout b phis rest) (heq : phis ++ rest = l₁ ++ l₂) {n : Nat} (hn : l₁.length ≤ n) :
    g.walkBack n l₁.getLast? = l₁.reverse := by
  induction l₁ using List.reverseRecOn generalizing l₂ n with
  | nil => cases n <;> rfl
  | append_singleton l₁ i ih =>
      rw [List.length_append, List.length_singleton] at hn
      cases n with
      | zero => cases hn
      | succ n =>
          have heq' : phis ++ rest = l₁ ++ i :: l₂ := by simp [heq]
          rw [List.getLast?_append, List.getLast?_singleton, Option.some_or, walkBack, h.prev_eq heq',
            ih heq' (Nat.le_of_succ_le_succ hn), List.reverse_append]
          rfl

theorem endInstr_eq (h : g.Layout b phis rest) : g.endInstr b = (phis ++ rest).getLast? := by
  rw [endInstr, h.lastInst, h.lastPhi, List.getLast?_append]
  cases rest.getLast? <;> rfl

theorem beginInstr_eq (h : g.Layout b phis rest) : g.beginInstr b = (phis ++ rest).head? := by
  rw [beginInstr, h.firstPhi, h.firstInst, List.head?_append]
  cases phis <;> rfl

end Layout

theorem Listed.wellLinked (h : g.Listed b phis rest) : g.WellLinked b where
  forward n hn := by
    have heq : phis ++ rest = [] ++ (phis ++ rest) := rfl
    rw [h.instrs_eq, h.beginInstr_eq]
    exact h.walk_eq heq (h.length_le.trans hn)
  backward n hn := by
    have heq : phis ++ rest = (phis ++ rest) ++ [] := (List.append_nil _).symm
    rw [h.instrs_eq, h.endInstr_eq]
    exact h.walkBack_eq heq (h.length_le.trans hn)
  phisFirst := by
    rw [h.insts_eq]
    exact h.notPhi
  firstPhi := by rw [h.phis_eq, h.firstPhi]
  lastPhi := by rw [h.phis_eq, h.lastPhi]
  firstInst := by rw [h.insts_eq, h.firstInst]
  lastInst := by rw [h.insts_eq, h.lastInst]
  count := by rw [h.instrs_eq, h.count]

/-! ## The invariant -/

namespace Lists

theorem replace {p n : Nat} (h : g.Lists) (hn : n < g.instrCount) (hk : (ListOp.replace b p n).KeepsSegments g)
    (hs : g.replaceInstruction b p n = some g') : g'.Lists := by
  simp only [replaceInstruction, Option.bind_eq_bind, Option.bind_eq_some_iff] at hs
  obtain ⟨g₁, hr, hs⟩ := hs
  obtain ⟨h₁, links⟩ := h.replaceInputInUsers hr
  have hcount : g₁.instrCount = g.instrCount := by
    rw [(replaceInputInUsers_redirects hr).graph]
    rfl
  have kind : ∀ j, (g₁.instr j).isPhi = (g.instr j).isPhi := fun j => by
    rw [Instruction.isPhi, Instruction.isPhi, (links j).2.2.2]
  refine h₁.replaceInControlFlow (hcount ▸ hn) (fun q hq => ?_) (fun hp hnext => ?_) hs
  · rw [kind]
    exact hk.1 q ((links p).2.1 ▸ hq)
  · rw [kind]
    exact hk.2 ((links p).2.1 ▸ hp) ((links p).1 ▸ hnext)

/-- One operation within a segment. -/
theorem step {op : ListOp} (h : g.Lists) (hk : op.KeepsSegments g) (hs : op.Step g g') : g'.Lists := by
  obtain ⟨hlt, hs⟩ := hs
  cases op with
  | pushForward b target => exact h.pushForward hlt hk hs
  | pushBack b target => exact h.pushBack hlt hs
  | insertBefore b before target => exact h.insertBefore hlt hk.1 hk.2 hs
  | insertAfter b after target => exact h.insertAfter hlt hk hs
  | unlink b target => exact h.unlink hs
  | replace b p n => exact h.replace hlt hk hs

end Lists

/-! ## Runs -/

/-- After any sequence of operations of which each stays within a segment, every block is linked as it promises. -/
theorem instruction_lists_wellLinked {ops : List ListOp} (hg : g.Lists)
    (h : Run (fun t (op : ListOp) u => op.KeepsSegments t ∧ op.Step t u) g ops g') (b : Nat) : g'.WellLinked b := by
  have hl : g'.Lists := Run.invariant_of_forall (C := fun t (op : ListOp) => op.KeepsSegments t) hg
    (fun h hk hs => h.step hk hs) h
  obtain ⟨phis, rest, hb⟩ := hl.listed b
  exact hb.wellLinked

/-- An empty block and four instructions, of which the first is a phi. -/
def spareInstructions : Graph :=
  .ofLists [{ opcode := .PHI, type := .I32, properties := .INPUT }, { opcode := .CONST, type := .I32 },
    { opcode := .CONST, type := .I32 }, { opcode := .CONST, type := .I32 }] [{}] []

theorem spareInstructions_lists : spareInstructions.Lists :=
  Lists.ofLists_unlinked (by decide) (by decide)

theorem instruction_lists_wellLinked_editing : ∃ g', Run (fun t (op : ListOp) u => op.KeepsSegments t ∧ op.Step t u)
    spareInstructions [.pushBack 0 1, .pushForward 0 0, .unlink 0 0, .insertBefore 0 1 2, .replace 0 1 3] g' ∧
    g'.WellLinked 0 := by
  obtain ⟨g', h⟩ : ∃ g', Run (fun t (op : ListOp) u => op.KeepsSegments t ∧ op.Step t u) spareInstructions
      [.pushBack 0 1, .pushForward 0 0, .unlink 0 0, .insertBefore 0 1 2, .replace 0 1 3] g' := by
    refine ⟨_, .cons ⟨trivial, by decide, rfl⟩ (.cons ⟨.inl rfl, by decide, rfl⟩ (.cons ⟨trivial, by decide, rfl⟩
      (.cons ⟨⟨rfl, fun _ => rfl⟩, by decide, rfl⟩ (.cons ⟨⟨fun q hq => ?_, fun hp => nomatch hp⟩, by decide, rfl⟩ .nil))))⟩
    cases hq
    rfl
  exact ⟨g', h, instruction_lists_wellLinked spareInstructions_lists h 0⟩

/-- Inserting before the first instruction behind a phi leaves `firstInst` where it was. -/
theorem instruction_lists_insert_before_wrong : ¬ ∀ (g g' : Graph) (ops : List ListOp) (b : Nat), g.Lists →
    Run (fun t (op : ListOp) u => op.Step t u) g ops g' → g'.WellLinked b := by
  intro h
  obtain ⟨g', hrun, hne⟩ : ∃ g', Run (fun t (op : ListOp) u => op.Step t u) spareInstructions
      [.pushBack 0 0, .pushBack 0 1, .insertBefore 0 1 2] g' ∧ (g'.block 0).firstInst ≠ (g'.insts 0).head? :=
    ⟨_, .cons ⟨by decide, rfl⟩ (.cons ⟨by decide, rfl⟩ (.cons ⟨by decide, rfl⟩ .nil)), by decide⟩
  exact hne (h _ _ _ 0 spareInstructions_lists hrun).firstInst

end CompilerLab.Jit.Graph
