import CompilerLab.Jit.Lemmas.InstructionList
import CompilerLab.Jit.Lemmas.Links

/-!
# Chains of instructions

The operations on a list keep the chain of its links also where they leave the ends of the segments wrong.
-/

namespace CompilerLab.Jit.Graph

open CompilerLab.Lib

/-- The instructions of block `b` are linked in the order of `l`, and the ends of the segments are among them. -/
structure Strung (g : Graph) (b : Nat) (l : List Nat) : Prop where
  chain : Chained (fun i => (g.instr i).next) (fun i => (g.instr i).prev) l
  parent : ∀ i ∈ l, (g.instr i).parent = some b
  complete : ∀ i, (g.instr i).parent = some b → i ∈ l
  lt : ∀ i ∈ l, i < g.instrCount
  insts : ∀ e, (g.block b).firstInst = some e ∨ (g.block b).lastInst = some e → e ∈ l
  phis : ∀ e, (g.block b).firstPhi = some e ∨ (g.block b).lastPhi = some e → e ∈ l ∧ (g.instr e).isPhi = true

/-- The ends of the segments are in the block. -/
def EndsIn (g : Graph) (b : Nat) : Prop :=
  ∀ e, (g.block b).firstInst = some e ∨ (g.block b).lastInst = some e ∨ (g.block b).lastPhi = some e →
    (g.instr e).parent = some b ∧ e < g.instrCount

variable {g g' : Graph} {b t x : Nat} {phis rest l l₁ l₂ : List Nat}

theorem Listed.strung (h : g.Listed b phis rest) : g.Strung b (phis ++ rest) where
  chain := h.chain
  parent := h.parent
  complete := h.complete
  lt := h.lt
  insts e he := by
    rw [h.firstInst, h.lastInst] at he
    rcases he with he | he
    · exact List.mem_append_right _ (List.mem_of_head? he)
    · exact List.mem_append_right _ (List.mem_of_getLast? he)
  phis e he := by
    rw [h.firstPhi, h.lastPhi] at he
    have hmem : e ∈ phis := by
      rcases he with he | he
      · exact List.mem_of_head? he
      · exact List.mem_of_getLast? he
    exact ⟨List.mem_append_left _ hmem, h.isPhi e hmem⟩

namespace Strung

theorem endsIn (h : g.Strung b l) : g.EndsIn b := by
  intro e he
  have hmem : e ∈ l := by
    rcases he with he | he | he
    · exact h.insts e (.inl he)
    · exact h.insts e (.inr he)
    · exact (h.phis e (.inr he)).1
  exact ⟨h.parent e hmem, h.lt e hmem⟩

theorem ne_of_mem (h : g.Strung b l) (ht : (g.instr t).parent = none) {i : Nat} (hi : i ∈ l) : i ≠ t := by
  rintro rfl
  rw [h.parent i hi] at ht
  cases ht

/-- An instruction has been written between two neighbours. -/
theorem insert (h : g.Strung b (l₁ ++ l₂)) (ht : (g.instr t).parent = none) (hlt : t < g.instrCount)
    (hcount : g'.instrCount = g.instrCount) (instr : ∀ j, g'.instr j = g.linkedBetween b t l₁.getLast? l₂.head? j)
    (insts : ∀ e, (g'.block b).firstInst = some e ∨ (g'.block b).lastInst = some e → e ∈ l₁ ++ t :: l₂)
    (phis : ∀ e, (g'.block b).firstPhi = some e ∨ (g'.block b).lastPhi = some e →
      (g.block b).firstPhi = some e ∨ (g.block b).lastPhi = some e)
    (block : ∀ c, c ≠ b → g'.block c = g.block c) :
    g'.Strung b (l₁ ++ t :: l₂) ∧ Splices g b t (some b) g' := by
  have hout : t ∉ l₁ ++ l₂ := fun hm => h.ne_of_mem ht hm rfl
  have hmem : ∀ i, i ∈ l₁ ++ t :: l₂ ↔ i = t ∨ i ∈ l₁ ++ l₂ := by
    intro i
    simp only [List.mem_append, List.mem_cons]
    exact or_left_comm
  refine ⟨⟨?_, ?_, ?_, ?_, insts, ?_⟩, ⟨block, ?_, ?_, ?_, hcount, fun hp => by cases hp⟩⟩
  · refine h.chain.insert hout (fun i _ => ?_) (fun i _ => ?_)
    · rw [instr, linkedBetween]
      split_ifs <;> simp
    · rw [instr, linkedBetween]
      split_ifs <;> simp
  · intro i hi
    rw [instr, linkedBetween_parent]
    split_ifs with hit
    · rfl
    · exact h.parent i (((hmem i).1 hi).resolve_left hit)
  · intro i hi
    rw [instr, linkedBetween_parent] at hi
    rw [hmem]
    split_ifs at hi with hit
    · exact .inl hit
    · exact .inr (h.complete i hi)
  · intro i hi
    rw [hcount]
    rcases (hmem i).1 hi with rfl | hi
    · exact hlt
    · exact h.lt i hi
  · intro e he
    obtain ⟨hel, hphi⟩ := h.phis e (phis e he)
    refine ⟨(hmem e).2 (.inr hel), ?_⟩
    rw [Instruction.isPhi, instr, linkedBetween_opcode]
    exact hphi
  · -- the neighbours of `t` are in the block
    intro j hj hparent
    have hl : l₁.getLast? ≠ some j := by
      intro hl
      exact hparent (h.parent j (List.mem_append_left _ (List.mem_of_getLast? hl)))
    have hn : l₂.head? ≠ some j := by
      intro hn
      exact hparent (h.parent j (List.mem_append_right _ (List.mem_of_head? hn)))
    rw [instr, linkedBetween, if_neg hj, if_neg hl, if_neg hn]
  · intro j
    rw [instr, linkedBetween_opcode]
  · intro j
    rw [instr, linkedBetween_parent]

theorem next_eq (h : g.Strung b (l₁ ++ x :: l₂)) : (g.instr x).next = l₂.head? := h.chain.next_eq

theorem prev_eq (h : g.Strung b (l₁ ++ x :: l₂)) : (g.instr x).prev = l₁.getLast? := h.chain.prev_eq

/-- Inserting before an instruction writes the new one between it and the one before it. -/
theorem insertBefore (h : g.Strung b (l₁ ++ x :: l₂)) (ht : t < g.instrCount) (hs : g.insertBefore b x t = some g') :
    g'.Strung b (l₁ ++ t :: x :: l₂) ∧ Splices g b t (some b) g' := by
  have hparent := (insertBefore_asserts hs).1
  have hx : x ∈ l₁ ++ x :: l₂ := by simp
  have hne : x ≠ t := h.ne_of_mem hparent hx
  have hprev' : ((g.setParent t (some b)).instr x).prev = l₁.getLast? := by
    rw [setParent, modifyInstr_instr_ne _ _ hne]
    exact h.prev_eq
  simp only [Graph.insertBefore, Option.bind_eq_bind, ASSERT_bind] at hs
  obtain ⟨-, hphi, -, hs⟩ := hs
  have hinsts := h.insts
  have hphis := h.phis
  cases l₁ using List.reverseRecOn with
  | nil =>
      have hprev₀ : ((g.setParent t (some b)).instr x).prev = none := hprev'
      rw [hprev₀] at hs
      simp only [ASSERT_bind, Option.bind_some, Option.pure_def, Option.some.injEq] at hs
      obtain ⟨-, -, -, rfl⟩ := hs
      refine h.insert hparent ht rfl (fun j => ?_) (fun e he => ?_) (fun e he => ?_) (fun c hc => ?_)
      · simp only [setParent, setPrev, setNext, modifyBlock_instr, modifyInstr_instr, linkedBetween]
        split_ifs <;> simp_all
      · simp only [setParent, setPrev, setNext, modifyBlock_block_self, modifyInstr_block, Option.some.injEq] at he
        rcases he with rfl | he
        · simp
        · exact List.mem_cons_of_mem _ (hinsts e (.inr he))
      · simpa [setParent, setPrev, setNext] using he
      · simp [setParent, setPrev, setNext, hc]
  | append_singleton l₁ p =>
      have hp : p ≠ t := h.ne_of_mem hparent (by simp)
      have hpx : p ≠ x := by
        rintro rfl
        have := h.chain.nodup
        simp [List.nodup_append] at this
      have hlast : (l₁ ++ [p]).getLast? = some p := by
        rw [List.getLast?_append, List.getLast?_singleton]
        rfl
      rw [hprev', hlast] at hs
      simp only [Option.bind_some, Option.pure_def, Option.some.injEq] at hs
      subst hs
      refine h.insert hparent ht rfl (fun j => ?_) (fun e he => ?_) (fun e he => ?_) (fun c hc => ?_)
      · simp only [hlast, setParent, setPrev, setNext, modifyBlock_instr, modifyInstr_instr, linkedBetween]
        split_ifs <;> simp_all
      · have := hinsts e (by simpa [setParent, setPrev, setNext] using he)
        simp only [List.mem_append, List.mem_cons] at this ⊢
        tauto
      · simpa [setParent, setPrev, setNext] using he
      · simp [setParent, setPrev, setNext, hc]

theorem insertAfter (h : g.Strung b (l₁ ++ x :: l₂)) (ht : t < g.instrCount) (hs : g.insertAfter b x t = some g') :
    g'.Strung b (l₁ ++ x :: t :: l₂) ∧ Splices g b t (some b) g' := by
  have hparent := (insertAfter_asserts hs).1
  have hassoc : l₁ ++ x :: l₂ = (l₁ ++ [x]) ++ l₂ := by simp
  have hassoc' : l₁ ++ x :: t :: l₂ = (l₁ ++ [x]) ++ t :: l₂ := by simp
  have hx : x ∈ l₁ ++ x :: l₂ := by simp
  have hne : x ≠ t := h.ne_of_mem hparent hx
  have hlast : (l₁ ++ [x]).getLast? = some x := by
    rw [List.getLast?_append, List.getLast?_singleton]
    rfl
  have hnext' : ((g.setParent t (some b)).instr x).next = l₂.head? := by
    rw [setParent, modifyInstr_instr_ne _ _ hne]
    exact h.next_eq
  have hnodup := h.chain.nodup
  simp only [Graph.insertAfter, Option.bind_eq_bind, ASSERT_bind] at hs
  obtain ⟨-, hphi, -, hs⟩ := hs
  have hinsts := h.insts
  have hmemne := fun i => h.ne_of_mem hparent (i := i)
  rw [hassoc] at h
  rw [hassoc']
  cases l₂ with
  | nil =>
      have hnext₀ : ((g.setParent t (some b)).instr x).next = none := hnext'
      rw [hnext₀] at hs
      simp only [ASSERT_bind, Option.bind_some, Option.pure_def, Option.some.injEq] at hs
      obtain ⟨-, rfl⟩ := hs
      refine h.insert hparent ht rfl (fun j => ?_) (fun e he => ?_) (fun e he => ?_) (fun c hc => ?_)
      · simp only [hlast, setParent, setPrev, setNext, modifyBlock_instr, modifyInstr_instr, linkedBetween]
        clear hassoc hassoc' hlast
        split_ifs <;> simp_all
      · simp only [setParent, setPrev, setNext, modifyBlock_block_self, modifyInstr_block, Option.some.injEq] at he
        rcases he with he | rfl
        · have := hinsts e (.inl he)
          simp only [List.mem_append, List.mem_cons] at this ⊢
          tauto
        · simp
      · simpa [setParent, setPrev, setNext] using he
      · simp [setParent, setPrev, setNext, hc]
  | cons n l₂ =>
      have hn : n ≠ t := hmemne n (by simp)
      have hnx : n ≠ x := by
        rintro rfl
        simp [List.nodup_append] at hnodup
      clear hmemne
      rw [hnext', List.head?_cons] at hs
      simp only [Option.bind_some, Option.pure_def, Option.some.injEq] at hs
      subst hs
      refine h.insert hparent ht rfl (fun j => ?_) (fun e he => ?_) (fun e he => ?_) (fun c hc => ?_)
      · simp only [hlast, setParent, setPrev, setNext, modifyBlock_instr, modifyInstr_instr, linkedBetween]
        clear hassoc hassoc' hlast
        split_ifs <;> simp_all
      · have := hinsts e (by simpa [setParent, setPrev, setNext] using he)
        simp only [List.mem_append, List.mem_cons] at this ⊢
        tauto
      · simpa [setParent, setPrev, setNext] using he
      · simp [setParent, setPrev, setNext, hc]

/-- An instruction that is no phi is taken out. -/
theorem unlink (h : g.Strung b (l₁ ++ t :: l₂)) (hphi : (g.instr t).isPhi = false) (hs : g.unlinkInstruction b t = some g') :
    g'.Strung b (l₁ ++ l₂) ∧ Splices g b t none g' := by
  have hnodup := h.chain.nodup
  have hout := Listed.not_mem_of_nodup hnodup
  have hpt : l₁.getLast? ≠ some t := fun hl => hout (List.mem_append_left _ (List.mem_of_getLast? hl))
  have hnt : l₂.head? ≠ some t := fun hl => hout (List.mem_append_right _ (List.mem_of_head? hl))
  have hmem : ∀ i, i ∈ l₁ ++ t :: l₂ → i ≠ t → i ∈ l₁ ++ l₂ := by
    intro i hi hit
    simp only [List.mem_append, List.mem_cons] at hi ⊢
    exact hi.imp_right fun hi => hi.resolve_left hit
  have hsub : ∀ i ∈ l₁ ++ l₂, i ∈ l₁ ++ t :: l₂ ∧ i ≠ t := by
    intro i hi
    refine ⟨?_, fun hit => hout (hit ▸ hi)⟩
    simp only [List.mem_append, List.mem_cons] at hi ⊢
    exact hi.imp_right .inr
  obtain ⟨u, v, hu, hblock, hcount, hends, rfl⟩ := unlinkInstruction_cases h.prev_eq h.next_eq hpt hnt hs
  have hphi' : (u.instr t).isPhi = false := by
    rw [Instruction.isPhi, hu, linkedOver_opcode]
    exact hphi
  simp only [unlinkEnds, hphi', Bool.false_eq_true, if_false, Option.some.injEq] at hends
  subst hends
  refine ⟨⟨?_, ?_, ?_, ?_, ?_, ?_⟩, ⟨?_, ?_, ?_, ?_, hcount, ?_⟩⟩
  · refine h.chain.remove (fun i hi => ?_) (fun i hi => ?_)
    · simp only [modifyBlock_instr]
      rw [hu, linkedOver, if_neg (hsub i hi).2]
    · simp only [modifyBlock_instr]
      rw [hu, linkedOver, if_neg (hsub i hi).2]
  · intro i hi
    simp only [modifyBlock_instr]
    rw [hu, linkedOver_parent, if_neg (hsub i hi).2]
    exact h.parent i (hsub i hi).1
  · intro i hi
    simp only [modifyBlock_instr] at hi
    rw [hu, linkedOver_parent] at hi
    split_ifs at hi with hit
    exact hmem i (h.complete i hi) hit
  · intro i hi
    simp only [modifyBlock_instrCount]
    rw [hcount]
    exact h.lt i (hsub i hi).1
  · intro e he
    simp only [modifyBlock_block_self, hblock] at he
    rcases he with he | he
    · split_ifs at he with hfirst
      · exact List.mem_append_right _ (List.mem_of_head? he)
      · exact hmem e (h.insts e (.inl he)) fun het => hfirst (het ▸ he)
    · split_ifs at he with hlast
      · split at he
        · split_ifs at he with hp
          cases he
          exact List.mem_append_left _ (List.mem_of_getLast? ‹_›)
        · cases he
      · exact hmem e (h.insts e (.inr he)) fun het => hlast (het ▸ he)
  · intro e he
    simp only [modifyBlock_block_self, hblock] at he
    obtain ⟨hel, hep⟩ := h.phis e he
    have het : e ≠ t := by
      rintro rfl
      rw [hphi] at hep
      cases hep
    refine ⟨hmem e hel het, ?_⟩
    simp only [modifyBlock_instr]
    rw [Instruction.isPhi, hu, linkedOver_opcode]
    exact hep
  · intro c hc
    simp [hc, hblock]
  · intro j hj hparent
    have hl : l₁.getLast? ≠ some j := by
      intro hl
      exact hparent (h.parent j (List.mem_append_left _ (List.mem_of_getLast? hl)))
    have hn : l₂.head? ≠ some j := by
      intro hn
      exact hparent (h.parent j (List.mem_append_right _ (List.mem_cons_of_mem _ (List.mem_of_head? hn))))
    simp only [modifyBlock_instr]
    rw [hu, linkedOver, if_neg hj, if_neg hl, if_neg hn]
  · intro j
    simp only [modifyBlock_instr]
    rw [hu, linkedOver_opcode]
  · intro j
    simp only [modifyBlock_instr]
    rw [hu, linkedOver_parent]
  · intro _
    simp only [modifyBlock_instr]
    rw [hu, linkedOver, if_pos rfl]
    exact ⟨rfl, rfl⟩

end Strung

/-- An instruction that is no phi is pushed behind the last one. -/
theorem pushBack_splices (he : g.EndsIn b) (ht : t < g.instrCount) (hphi : (g.instr t).isPhi = false) (hs : g.pushBackInstruction b t = some g') :
    g'.EndsIn b ∧ Splices g b t (some b) g' := by
  have hparent := (pushInstruction_asserts hs).1
  have hphi' : ((g.setParent t (some b)).instr t).isPhi = false := by
    rw [setParent, modifyInstr_instr_self]
    exact hphi
  have hne : ∀ e, (g.instr e).parent = some b → e ≠ t := by
    rintro e hp rfl
    rw [hparent] at hp
    cases hp
  -- the parents and kinds after the operation, then that no other instruction is in the block
  have hrel := (pushInstruction_relinks hs).2
  have hpar : ∀ j, (g'.instr j).parent = if j = t then some b else (g.instr j).parent := fun j =>
    congrArg Instruction.parent (hrel.instr j)
  have hop : ∀ j, (g'.instr j).opcode = (g.instr j).opcode := by
    intro j
    have := congrArg Instruction.opcode (hrel.instr j)
    exact this
  have hends : ∀ e, e = t ∨ (g.instr e).parent = some b ∧ e < g.instrCount →
      (g'.instr e).parent = some b ∧ e < g'.instrCount := by
    rw [hrel.instrCount]
    rintro e (rfl | ⟨hp, hlt⟩)
    · rw [hpar, if_pos rfl]
      exact ⟨rfl, ht⟩
    · rw [hpar, if_neg (hne e hp)]
      exact ⟨hp, hlt⟩
  simp only [pushBackInstruction, pushInstruction, Option.bind_eq_bind, ASSERT_bind, hphi', Bool.false_eq_true, if_false] at hs
  obtain ⟨-, -, hs⟩ := hs
  have hfirst : ((g.setParent t (some b)).block b).firstInst = (g.block b).firstInst := rfl
  have hcases : (∀ e, (g'.block b).firstInst = some e ∨ (g'.block b).lastInst = some e ∨ (g'.block b).lastPhi = some e →
      e = t ∨ (g.block b).firstInst = some e ∨ (g.block b).lastPhi = some e) ∧
      (∀ c, c ≠ b → g'.block c = g.block c) ∧ g'.instrCount = g.instrCount ∧
      ∀ j, j ≠ t → (g.instr j).parent ≠ some b → g'.instr j = g.instr j := by
    rw [hfirst] at hs
    split at hs
    · rename_i hnone
      split at hs
      · rename_i p hp
        simp only [Option.bind_some, Option.pure_def, Option.some.injEq] at hs
        subst hs
        have hpb : (g.instr p).parent = some b := (he p (.inr (.inr (by simpa [setParent, setPrev] using hp)))).1
        refine ⟨fun e h => ?_, fun c hc => ?_, rfl, fun j hj hjb => ?_⟩
        · simp only [setParent, setPrev, setNext, modifyBlock_block_self, modifyInstr_block, Option.some.injEq] at h
          tauto
        · simp [setParent, setPrev, setNext, hc]
        · have hjp : j ≠ p := fun hjp => hjb (hjp ▸ hpb)
          simp [setParent, setPrev, setNext, hj, hjp]
      · simp only [Option.bind_some, Option.pure_def, Option.some.injEq] at hs
        subst hs
        refine ⟨fun e h => ?_, fun c hc => ?_, rfl, fun j hj hjb => ?_⟩
        · simp only [setParent, setPrev, modifyBlock_block_self, modifyInstr_block, Option.some.injEq] at h
          tauto
        · simp [setParent, setPrev, hc]
        · simp [setParent, setPrev, hj]
    · rename_i first hsome
      simp only [if_true, Option.bind_eq_some_iff, Option.some.injEq] at hs
      obtain ⟨last, hlast, _, rfl, hs⟩ := hs
      simp only [Option.pure_def, Option.some.injEq] at hs
      subst hs
      have hlb : (g.instr last).parent = some b := (he last (.inr (.inl hlast))).1
      refine ⟨fun e h => ?_, fun c hc => ?_, rfl, fun j hj hjb => ?_⟩
      · simp only [setParent, setPrev, setNext, modifyBlock_block_self, modifyInstr_block, Option.some.injEq] at h
        tauto
      · simp [setParent, setPrev, setNext, hc]
      · have hjl : j ≠ last := fun hjl => hjb (hjl ▸ hlb)
        simp [setParent, setPrev, setNext, hj, hjl]
  obtain ⟨hnew, hblock, hcount, hinstr⟩ := hcases
  refine ⟨fun e h => hends e ((hnew e h).imp_right fun h => ?_), hblock, hinstr, hop, hpar, hcount, fun hp => by cases hp⟩
  rcases h with h | h
  · exact he e (.inl h)
  · exact he e (.inr (.inr h))

end CompilerLab.Jit.Graph
