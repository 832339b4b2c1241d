import CompilerLab.Jit.Lemmas.Splice

/-!
# What the operations do to the list of a block

An operation that completes puts its instruction at the place the list of the block gives it, or takes it out.
-/

namespace CompilerLab.Jit.Graph

/-- The instruction exists and is in no list. -/
structure Free (g : Graph) (t : Nat) : Prop where
  lt : t < g.instrCount
  parent : (g.instr t).parent = none
  prev : (g.instr t).prev = none
  next : (g.instr t).next = none

/-! ## What the operations check -/

section
variable {g g' : Graph} {b t x : Nat}

theorem pushInstruction_asserts {back : Bool} (h : pushInstruction back g b t = some g') :
    (g.instr t).parent = none ∧ (g.instr t).prev = none := by
  simp only [pushInstruction, Option.bind_eq_bind, ASSERT_bind] at h
  exact ⟨h.1, h.2.1⟩

theorem insertBefore_asserts (h : g.insertBefore b x t = some g') :
    (g.instr t).parent = none ∧ (g.instr x).parent = some b := by
  simp only [insertBefore, Option.bind_eq_bind, ASSERT_bind] at h
  exact ⟨h.1, h.2.2.1⟩

theorem insertAfter_asserts (h : g.insertAfter b x t = some g') :
    (g.instr t).parent = none ∧ (g.instr x).parent = some b := by
  simp only [insertAfter, Option.bind_eq_bind, ASSERT_bind] at h
  exact ⟨h.1, h.2.2.1⟩

theorem unlinkInstruction_asserts (h : g.unlinkInstruction b t = some g') : (g.instr t).parent = some b := by
  simp only [unlinkInstruction, Option.bind_eq_bind, ASSERT_bind] at h
  exact h.1

end

namespace Listed

variable {g g' : Graph} {b t i : Nat} {phis rest l₁ l₂ : List Nat}

theorem ne_of_mem (h : g.Listed b phis rest) (ht : (g.instr t).parent = none) (hi : i ∈ phis ++ rest) : i ≠ t := by
  rintro rfl
  rw [h.parent i hi] at ht
  cases ht

/-! ## Pushing -/

theorem pushPhi (h : g.Listed b phis rest) (ht : g.Free t) (hphi : (g.instr t).isPhi = true) {back : Bool}
    (hs : pushInstruction back g b t = some g') : g'.Listed b (t :: phis) rest ∧ Splices g b t (some b) g' := by
  have hphi' : ((g.setParent t (some b)).instr t).isPhi = true := by
    rw [setParent, modifyInstr_instr_self]
    exact hphi
  simp only [pushInstruction, ASSERT_of ht.parent, ASSERT_of ht.prev, Option.bind_eq_bind, Option.bind_some, hphi',
    if_true, Option.pure_def, Option.some.injEq] at hs
  subst hs
  have hphis : ∀ i ∈ t :: phis, (g.instr i).isPhi = true := by
    intro i hi
    rcases List.mem_cons.1 hi with rfl | hi
    · exact hphi
    · exact h.isPhi i hi
  have hnp := ht.prev
  have hfirst := h.firstPhi
  have hlast := h.lastPhi
  have hinst := h.firstInst
  cases phis with
  | nil =>
      cases rest with
      | nil =>
          simp only [Graph.pushPhi, setParent, setNext, modifyInstr_block, modifyBlock_block_self, hfirst, hinst,
            List.head?_nil]
          refine h.insert (l := []) (m := []) rfl rfl ht.parent ht.lt rfl (fun j => ?_) ?_ ?_ hphis h.notPhi
            (fun c hc => ?_)
          · simp only [modifyBlock_instr, modifyInstr_instr, linkedBetween]
            split_ifs <;> simp_all
          · simp [h.lastInst, hinst]
          · simp
          · simp [hc]
      | cons first rest =>
          have hne : first ≠ t := h.ne_of_mem ht.parent (by simp)
          simp only [Graph.pushPhi, setParent, setNext, setPrev, modifyInstr_block, modifyBlock_block_self, hfirst, hinst,
            List.head?_nil, List.head?_cons]
          refine h.insert (l := []) (m := first :: rest) rfl rfl ht.parent ht.lt rfl (fun j => ?_) ?_ ?_ hphis
            h.notPhi (fun c hc => ?_)
          · simp only [modifyBlock_instr, modifyInstr_instr, linkedBetween]
            split_ifs <;> simp_all
          · simp [h.lastInst, hinst]
          · simp
          · simp [hc]
  | cons first phis =>
      have hne : first ≠ t := h.ne_of_mem ht.parent (by simp)
      simp only [Graph.pushPhi, setParent, setNext, setPrev, modifyInstr_block, hfirst, List.head?_cons]
      refine h.insert (l := []) (m := first :: phis ++ rest) rfl rfl ht.parent ht.lt rfl (fun j => ?_) ?_ ?_ hphis
        h.notPhi (fun c hc => ?_)
      · simp only [modifyBlock_instr, modifyInstr_instr, linkedBetween]
        split_ifs <;> simp_all
      · simp [h.lastInst, hinst, hlast]
      · simp
      · simp [hc]

theorem pushBack (h : g.Listed b phis rest) (ht : g.Free t) (hphi : (g.instr t).isPhi = false)
    (hs : g.pushBackInstruction b t = some g') :
    g'.Listed b phis (rest ++ [t]) ∧ Splices g b t (some b) g' := by
  obtain ⟨g₁, heq, hinstr, hblock, -, hcount, -⟩ := h.toLayout.pushBackInstruction_links hphi ht.parent ht.prev
  rw [hs] at heq
  obtain rfl := Option.some.inj heq
  have hb := (hblock b).trans (if_pos rfl)
  have hnext := ht.next
  refine h.insert (l := phis ++ rest) (m := []) (by simp) (by simp) ht.parent ht.lt hcount (fun j => ?_) ?_ ?_ h.isPhi
    (fun i hi => ?_) (fun c hc => (hblock c).trans (if_neg hc))
  · rw [hinstr, linkedBehind, linkedBetween]
    split_ifs <;> simp_all
  · rw [hb]
    exact ⟨h.firstPhi, h.lastPhi, rfl, by simp⟩
  · rw [hb]
  · rw [List.mem_append, List.mem_singleton] at hi
    rcases hi with hi | rfl
    · exact h.notPhi i hi
    · exact hphi

/-- Pushing to the front of the instructions: the phis, if there are any, must not be followed by an instruction yet. -/
theorem pushForward (h : g.Listed b phis rest) (ht : g.Free t) (hphi : (g.instr t).isPhi = false)
    (hends : phis = [] ∨ rest = []) (hs : g.pushForwardInstruction b t = some g') :
    g'.Listed b phis (t :: rest) ∧ Splices g b t (some b) g' := by
  cases rest with
  | nil =>
      -- into an empty segment both ends are the same
      have hfirst : ((g.setParent t (some b)).block b).firstInst = none := h.firstInst
      have hback : g.pushForwardInstruction b t = g.pushBackInstruction b t := by
        simp only [pushForwardInstruction, pushBackInstruction, pushInstruction, hfirst]
      exact h.pushBack ht hphi (hback ▸ hs)
  | cons first rest =>
      obtain rfl : phis = [] := hends.resolve_right (List.cons_ne_nil _ _)
      have hne : first ≠ t := h.ne_of_mem ht.parent (by simp)
      have hinst : (g.block b).firstInst = some first := h.firstInst
      have hphi' : ((g.setParent t (some b)).instr t).isPhi = false := by
        rw [setParent, modifyInstr_instr_self]
        exact hphi
      have hinst' : ((g.setParent t (some b)).block b).firstInst = some first := hinst
      have hnp := ht.prev
      simp only [pushForwardInstruction, pushInstruction, ASSERT_of ht.parent, ASSERT_of ht.prev, Option.bind_eq_bind,
        Option.bind_some, hphi', Bool.false_eq_true, if_false, hinst', Option.pure_def, Option.some.injEq] at hs
      subst hs
      refine h.insert (l := []) (m := first :: rest) rfl rfl ht.parent ht.lt rfl (fun j => ?_) ?_ ?_ h.isPhi
        (fun i hi => ?_) (fun c hc => ?_)
      · simp only [setParent, setNext, setPrev, modifyBlock_instr, modifyInstr_instr, linkedBetween]
        split_ifs <;> simp_all
      · simp [setParent, setNext, setPrev, h.firstPhi, h.lastPhi, h.lastInst]
      · simp [setParent, setNext, setPrev]
      · rcases List.mem_cons.1 hi with rfl | hi
        · exact hphi
        · exact h.notPhi i hi
      · simp [setParent, setNext, setPrev, hc]

/-! ## Inserting next to an instruction -/

/-- Inserting before an instruction that is not the first one behind phis. -/
theorem insertBefore {x : Nat} (h : g.Listed b phis (l₁ ++ x :: l₂)) (ht : g.Free t) (hends : l₁ = [] → phis = [])
    (hs : g.insertBefore b x t = some g') :
    g'.Listed b phis (l₁ ++ t :: x :: l₂) ∧ Splices g b t (some b) g' := by
  have hx : x ∈ phis ++ (l₁ ++ x :: l₂) := by simp
  have hne : x ≠ t := h.ne_of_mem ht.parent hx
  have hprev : (g.instr x).prev = (phis ++ l₁).getLast? := h.prev_eq (List.append_assoc ..).symm
  simp only [Graph.insertBefore, Option.bind_eq_bind, ASSERT_bind] at hs
  obtain ⟨-, hphi, -, hs⟩ := hs
  have hprev' : ((g.setParent t (some b)).instr x).prev = (phis ++ l₁).getLast? := by
    rw [setParent, modifyInstr_instr_ne _ _ hne]
    exact hprev
  have hrest : ∀ i ∈ l₁ ++ t :: x :: l₂, (g.instr i).isPhi = false := by
    intro i hi
    by_cases hit : i = t
    · rw [hit]
      exact hphi
    · exact h.notPhi i (by simpa [hit] using hi)
  have hassoc : phis ++ (l₁ ++ x :: l₂) = (phis ++ l₁) ++ x :: l₂ := (List.append_assoc ..).symm
  have hassoc' : phis ++ (l₁ ++ t :: x :: l₂) = (phis ++ l₁) ++ t :: x :: l₂ := (List.append_assoc ..).symm
  cases l₁ using List.reverseRecOn with
  | nil =>
      obtain rfl := hends rfl
      have hprev₀ : ((g.setParent t (some b)).instr x).prev = none := hprev'
      rw [hprev₀] at hs
      simp only [ASSERT_bind, Option.bind_some, Option.pure_def, Option.some.injEq] at hs
      obtain ⟨-, -, -, rfl⟩ := hs
      refine h.insert hassoc hassoc' ht.parent ht.lt rfl (fun j => ?_) ?_ ?_ h.isPhi hrest (fun c hc => ?_)
      · simp only [setParent, setPrev, setNext, modifyBlock_instr, modifyInstr_instr, linkedBetween]
        split_ifs <;> simp_all
      · simp [setParent, setPrev, setNext, h.firstPhi, h.lastPhi, h.lastInst]
      · simp [setParent, setPrev, setNext]
      · simp [setParent, setPrev, setNext, hc]
  | append_singleton l₁ p =>
      have hp : p ≠ t := h.ne_of_mem ht.parent (by simp)
      have hpx : p ≠ x := by
        rintro rfl
        have := h.nodup
        simp [List.nodup_append] at this
      have hlast : (phis ++ (l₁ ++ [p])).getLast? = some p := by
        rw [← List.append_assoc, List.getLast?_append, List.getLast?_singleton]
        rfl
      have hfirst := h.firstInst
      rw [hprev', hlast] at hs
      simp only [Option.bind_some, Option.pure_def, Option.some.injEq] at hs
      subst hs
      refine h.insert hassoc hassoc' ht.parent ht.lt rfl (fun j => ?_) ?_ ?_ h.isPhi hrest (fun c hc => ?_)
      · simp only [hlast, setParent, setPrev, setNext, modifyBlock_instr, modifyInstr_instr, linkedBetween]
        split_ifs <;> simp_all
      · simp [setParent, setPrev, setNext, h.firstPhi, h.lastPhi, h.lastInst, hfirst]
      · simp [setParent, setPrev, setNext]
      · simp [setParent, setPrev, setNext, hc]

theorem insertAfter {x : Nat} (h : g.Listed b phis (l₁ ++ x :: l₂)) (ht : g.Free t)
    (hs : g.insertAfter b x t = some g') :
    g'.Listed b phis (l₁ ++ x :: t :: l₂) ∧ Splices g b t (some b) g' := by
  have hx : x ∈ phis ++ (l₁ ++ x :: l₂) := by simp
  have hne : x ≠ t := h.ne_of_mem ht.parent hx
  have hnext : (g.instr x).next = l₂.head? := h.next_eq (List.append_assoc ..).symm
  simp only [Graph.insertAfter, Option.bind_eq_bind, ASSERT_bind] at hs
  obtain ⟨-, hphi, -, hs⟩ := hs
  have hnext' : ((g.setParent t (some b)).instr x).next = l₂.head? := by
    rw [setParent, modifyInstr_instr_ne _ _ hne]
    exact hnext
  have hrest : ∀ i ∈ l₁ ++ x :: t :: l₂, (g.instr i).isPhi = false := by
    intro i hi
    by_cases hit : i = t
    · rw [hit]
      exact hphi
    · exact h.notPhi i (by simpa [hit] using hi)
  have hassoc : phis ++ (l₁ ++ x :: l₂) = (phis ++ (l₁ ++ [x])) ++ l₂ := by simp
  have hassoc' : phis ++ (l₁ ++ x :: t :: l₂) = (phis ++ (l₁ ++ [x])) ++ t :: l₂ := by simp
  have hlast : (phis ++ (l₁ ++ [x])).getLast? = some x := by
    rw [← List.append_assoc, List.getLast?_append, List.getLast?_singleton]
    rfl
  have hfirst := h.firstInst
  cases l₂ with
  | nil =>
      have hnext₀ : ((g.setParent t (some b)).instr x).next = none := hnext'
      rw [hnext₀] at hs
      simp only [ASSERT_bind, Option.bind_some, Option.pure_def, Option.some.injEq] at hs
      obtain ⟨-, rfl⟩ := hs
      refine h.insert hassoc hassoc' ht.parent ht.lt rfl (fun j => ?_) ?_ ?_ h.isPhi hrest (fun c hc => ?_)
      · simp only [hlast, setParent, setPrev, setNext, modifyBlock_instr, modifyInstr_instr, linkedBetween]
        clear hassoc hassoc' hlast
        split_ifs <;> simp_all
      · simp [setParent, setPrev, setNext, h.firstPhi, h.lastPhi, hfirst]
      · simp [setParent, setPrev, setNext]
      · simp [setParent, setPrev, setNext, hc]
  | cons n l₂ =>
      have hn : n ≠ t := h.ne_of_mem ht.parent (by simp)
      have hnx : n ≠ x := by
        rintro rfl
        have := h.nodup
        simp [List.nodup_append] at this
      rw [hnext', List.head?_cons] at hs
      simp only [Option.bind_some, Option.pure_def, Option.some.injEq] at hs
      subst hs
      refine h.insert hassoc hassoc' ht.parent ht.lt rfl (fun j => ?_) ?_ ?_ h.isPhi hrest (fun c hc => ?_)
      · simp only [hlast, setParent, setPrev, setNext, modifyBlock_instr, modifyInstr_instr, linkedBetween]
        clear hassoc hassoc' hlast
        split_ifs <;> simp_all
      · simp [setParent, setPrev, setNext, h.firstPhi, h.lastPhi, hfirst, h.lastInst]
      · simp [setParent, setPrev, setNext]
      · simp [setParent, setPrev, setNext, hc]

end Listed

/-! ## Unlinking -/

/-- Unlinking first links the neighbours over the instruction, then moves the ends of its segment. -/
theorem unlinkInstruction_eq {g : Graph} {b t : Nat} {prev next : Option Nat} (hb : (g.instr t).parent = some b)
    (hp : (g.instr t).prev = prev) (hn : (g.instr t).next = next) (hpt : prev ≠ some t) (hnt : next ≠ some t) :
    ∃ u : Graph, (∀ j, u.instr j = g.linkedOver t prev next j) ∧ u.block = g.block ∧ u.instrCount = g.instrCount ∧
      g.unlinkInstruction b t = (u.unlinkEnds b t prev next).map fun v =>
        v.modifyBlock b (fun x => { x with instrsCount := x.instrsCount - 1 }) := by
  have hp' : ((g.setParent t none).instr t).prev = prev := by
    rw [setParent, modifyInstr_instr_self]
    exact hp
  have hn' : ((g.setParent t none).instr t).next = next := by
    rw [setParent, modifyInstr_instr_self]
    exact hn
  simp only [unlinkInstruction, ASSERT_of hb, Option.bind_eq_bind, Option.bind_some, hp', hn', Option.pure_def]
  refine ⟨_, fun j => ?_, ?_, ?_, Option.map_eq_bind.symm⟩
  · cases prev with
    | none =>
        cases next with
        | none =>
            simp only [setParent, setPrev, setNext, modifyInstr_instr, linkedOver]
            split_ifs <;> simp_all
        | some n =>
            simp only [setParent, setPrev, setNext, modifyInstr_instr, linkedOver]
            split_ifs <;> simp_all
    | some p =>
        cases next with
        | none =>
            simp only [setParent, setPrev, setNext, modifyInstr_instr, linkedOver]
            split_ifs <;> simp_all
        | some n =>
            simp only [setParent, setPrev, setNext, modifyInstr_instr, linkedOver]
            split_ifs <;> simp_all
  · cases prev <;> cases next <;> rfl
  · cases prev <;> cases next <;> rfl

theorem unlinkInstruction_cases {g g' : Graph} {b t : Nat} {prev next : Option Nat} (hp : (g.instr t).prev = prev)
    (hn : (g.instr t).next = next) (hpt : prev ≠ some t) (hnt : next ≠ some t)
    (hs : g.unlinkInstruction b t = some g') :
    ∃ u v : Graph, (∀ j, u.instr j = g.linkedOver t prev next j) ∧ u.block = g.block ∧ u.instrCount = g.instrCount ∧
      u.unlinkEnds b t prev next = some v ∧
      v.modifyBlock b (fun x => { x with instrsCount := x.instrsCount - 1 }) = g' := by
  obtain ⟨u, hu, hblock, hcount, heq⟩ := unlinkInstruction_eq (unlinkInstruction_asserts hs) hp hn hpt hnt
  rw [heq, Option.map_eq_some_iff] at hs
  obtain ⟨v, hv, hg'⟩ := hs
  exact ⟨u, v, hu, hblock, hcount, hv, hg'⟩

namespace Listed

variable {g g' : Graph} {b t i : Nat} {phis rest l₁ l₂ : List Nat}

theorem not_mem_of_nodup (h : (l₁ ++ t :: l₂).Nodup) : t ∉ l₁ ++ l₂ :=
  (List.nodup_cons.1 (List.nodup_middle.1 h)).1

theorem unlinkInst (h : g.Listed b phis (l₁ ++ t :: l₂)) (hs : g.unlinkInstruction b t = some g') :
    g'.Listed b phis (l₁ ++ l₂) ∧ Splices g b t none g' := by
  have hassoc : phis ++ (l₁ ++ t :: l₂) = (phis ++ l₁) ++ t :: l₂ := (List.append_assoc ..).symm
  have hnodup := h.nodup
  rw [hassoc] at hnodup
  have hout := not_mem_of_nodup hnodup
  have hpt : (phis ++ l₁).getLast? ≠ some t := fun hl => hout (List.mem_append_left _ (List.mem_of_getLast? hl))
  have hnt : l₂.head? ≠ some t := fun hl => hout (List.mem_append_right _ (List.mem_of_head? hl))
  obtain ⟨u, v, hu, hublock, hucount, hends, rfl⟩ :=
    unlinkInstruction_cases (h.prev_eq hassoc) (h.next_eq hassoc) hpt hnt hs
  have hphi : (u.instr t).isPhi = false := by
    rw [Instruction.isPhi, hu, linkedOver_opcode]
    exact h.notPhi t (by simp)
  simp only [unlinkEnds, hphi, Bool.false_eq_true, if_false, Option.some.injEq] at hends
  subst hends
  refine h.remove hassoc (by simp) hucount (fun j => ?_) ?_ ?_ h.isPhi (fun i hi => ?_) (fun c hc => ?_)
  · simp only [modifyBlock_instr, hu]
  · simp only [modifyBlock_block_self, hublock]
    refine ⟨h.firstPhi, h.lastPhi, ?_, ?_⟩
    · rw [h.firstInst]
      cases l₁ with
      | nil => simp
      | cons x l₁ =>
          have hx : x ≠ t := by
            rintro rfl
            simp at hout
          simp [hx]
    · rw [h.lastInst]
      cases l₂ using List.reverseRecOn with
      | nil =>
          rw [if_pos (by simp), List.append_nil]
          -- a phi before the instruction does not become the last one of the second segment
          cases l₁ using List.reverseRecOn with
          | nil =>
              rw [List.append_nil]
              cases hp : phis.getLast? with
              | none => rfl
              | some p =>
                  have : (u.instr p).isPhi = true := by
                    rw [Instruction.isPhi, hu, linkedOver_opcode]
                    exact h.isPhi p (List.mem_of_getLast? hp)
                  simp [this]
          | append_singleton l₁ p =>
              have : (u.instr p).isPhi = false := by
                rw [Instruction.isPhi, hu, linkedOver_opcode]
                exact h.notPhi p (by simp)
              simp [this, List.getLast?_append]
      | append_singleton l₂ x =>
          have hx : x ≠ t := by
            rintro rfl
            simp at hout
          simp [List.getLast?_append, List.getLast?_cons, hx]
  · simp only [modifyBlock_block_self, hublock]
  · refine h.notPhi i ?_
    rw [List.mem_append] at hi
    rw [List.mem_append, List.mem_cons]
    exact hi.imp_right .inr
  · rw [modifyBlock_block_ne _ _ hc, modifyBlock_block_ne _ _ hc, hublock]

theorem unlinkPhi (h : g.Listed b (l₁ ++ t :: l₂) rest) (hs : g.unlinkInstruction b t = some g') :
    g'.Listed b (l₁ ++ l₂) rest ∧ Splices g b t none g' := by
  have hassoc : (l₁ ++ t :: l₂) ++ rest = l₁ ++ t :: (l₂ ++ rest) := by simp
  have hassoc' : (l₁ ++ l₂) ++ rest = l₁ ++ (l₂ ++ rest) := by simp
  have hnodup := h.nodup
  rw [hassoc] at hnodup
  have hout := not_mem_of_nodup hnodup
  have hpt : l₁.getLast? ≠ some t := fun hl => hout (List.mem_append_left _ (List.mem_of_getLast? hl))
  have hnt : (l₂ ++ rest).head? ≠ some t := fun hl => hout (List.mem_append_right _ (List.mem_of_head? hl))
  obtain ⟨u, v, hu, hublock, hucount, hends, rfl⟩ :=
    unlinkInstruction_cases (h.prev_eq hassoc) (h.next_eq hassoc) hpt hnt hs
  have hphi : (u.instr t).isPhi = true := by
    rw [Instruction.isPhi, hu, linkedOver_opcode]
    exact h.isPhi t (by simp)
  have hphis : ∀ i ∈ l₁ ++ l₂, (g.instr i).isPhi = true := by
    intro i hi
    refine h.isPhi i ?_
    rw [List.mem_append] at hi
    rw [List.mem_append, List.mem_cons]
    exact hi.imp_right .inr
  have hfirst : (u.block b).firstPhi = (l₁ ++ t :: l₂).head? := by rw [hublock, h.firstPhi]
  have hlast : (u.block b).lastPhi = (l₁ ++ t :: l₂).getLast? := by rw [hublock, h.lastPhi]
  -- only the ends of the segment of the phis are written
  have done {f l : Option Nat} (hv : v = u.modifyBlock b fun x => { x with firstPhi := f, lastPhi := l })
      (hf : f = (l₁ ++ l₂).head?) (hl : l = (l₁ ++ l₂).getLast?) :
      (v.modifyBlock b fun x => { x with instrsCount := x.instrsCount - 1 }).Listed b (l₁ ++ l₂) rest ∧
        Splices g b t none (v.modifyBlock b fun x => { x with instrsCount := x.instrsCount - 1 }) := by
    subst hv
    refine h.remove hassoc hassoc' hucount (fun j => ?_) ?_ ?_ hphis h.notPhi (fun c hc => ?_)
    · simp only [modifyBlock_instr, hu]
    · simp only [modifyBlock_block_self, hublock]
      exact ⟨hf, hl, h.firstInst, h.lastInst⟩
    · simp only [modifyBlock_block_self, hublock]
    · rw [modifyBlock_block_ne _ _ hc, modifyBlock_block_ne _ _ hc, hublock]
  simp only [unlinkEnds, hphi, if_true, hfirst, hlast] at hends
  cases l₁ using List.reverseRecOn with
  | nil =>
      rw [List.nil_append, List.head?_cons, if_pos rfl] at hends
      cases l₂ using List.reverseRecOn with
      | nil =>
          rw [List.getLast?_singleton, if_pos rfl] at hends
          cases hends
          exact done rfl rfl rfl
      | append_singleton l₂ x =>
          have hx : x ≠ t := by
            rintro rfl
            simp at hout
          have hx' : (t :: (l₂ ++ [x])).getLast? ≠ some t := by
            rw [← List.cons_append, List.getLast?_append, List.getLast?_singleton]
            exact fun he => hx (Option.some.inj he)
          rw [if_neg hx'] at hends
          simp only [Option.bind_eq_bind, Option.bind_eq_some_iff, ASSERT_eq_some, exists_const, Option.pure_def,
            Option.some.injEq] at hends
          obtain ⟨n, hn, -, hv⟩ := hends
          refine done (f := some n) (l := (u.block b).lastPhi) ?_ ?_ ?_
          · exact hv.symm
          · rw [← hn]
            cases l₂ <;> rfl
          · rw [hlast]
            simp [List.getLast?_append, List.getLast?_cons]
  | append_singleton l₁ p =>
      have hp : (l₁ ++ [p] ++ t :: l₂).head? = (l₁ ++ [p] ++ l₂).head? := by
        cases l₁ <;> rfl
      have hp' : (l₁ ++ [p] ++ t :: l₂).head? ≠ some t := by
        rw [hp]
        intro he
        refine hout ?_
        rw [← List.append_assoc]
        exact List.mem_append_left _ (List.mem_of_head? he)
      rw [if_neg hp'] at hends
      cases l₂ using List.reverseRecOn with
      | nil =>
          have ht : (l₁ ++ [p] ++ [t]).getLast? = some t := by simp
          rw [if_pos ht] at hends
          simp only [Option.bind_eq_bind, Option.bind_eq_some_iff, ASSERT_eq_some, exists_const, Option.pure_def,
            Option.some.injEq] at hends
          obtain ⟨q, hq, -, hv⟩ := hends
          refine done (f := (u.block b).firstPhi) (l := some q) ?_ ?_ ?_
          · exact hv.symm
          · rw [hfirst, hp]
          · rw [← hq, List.append_nil]
      | append_singleton l₂ x =>
          have hx : x ≠ t := by
            rintro rfl
            simp at hout
          have hx' : (l₁ ++ [p] ++ t :: (l₂ ++ [x])).getLast? ≠ some t := by
            simp [List.getLast?_append, List.getLast?_cons, hx]
          rw [if_neg hx'] at hends
          refine done (f := (u.block b).firstPhi) (l := (u.block b).lastPhi) ?_ ?_ ?_
          · rw [← Option.some.inj hends]
            exact congrArg (fun k => { u with block := k }) (Function.update_eq_self b u.block).symm
          · rw [hfirst, hp]
          · rw [hlast]
            simp [List.getLast?_append, List.getLast?_cons]

end Listed

end CompilerLab.Jit.Graph
