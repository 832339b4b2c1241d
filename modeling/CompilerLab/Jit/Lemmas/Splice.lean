import CompilerLab.Jit.Lemmas.Layout

/-!
# Putting an instruction into a list and taking it out

Every operation on the list of a block either writes one cell between two neighbours or links the neighbours of a cell
over it. The cells are described first, then the lists, then the operations.
-/

namespace CompilerLab.Jit.Graph

open CompilerLab.Lib

/-- The instructions after `t` has been put into block `b` between `prev` and `next`. -/
def linkedBetween (g : Graph) (b t : Nat) (prev next : Option Nat) (j : Nat) : Instruction :=
  if j = t then { g.instr t with parent := some b, prev := prev, next := next }
  else { g.instr j with
    next := if prev = some j then some t else (g.instr j).next
    prev := if next = some j then some t else (g.instr j).prev }

/-- The instructions after `t` has been taken out from between `prev` and `next`. -/
def linkedOver (g : Graph) (t : Nat) (prev next : Option Nat) (j : Nat) : Instruction :=
  if j = t then { g.instr t with parent := none, prev := none, next := none }
  else { g.instr j with
    next := if prev = some j then next else (g.instr j).next
    prev := if next = some j then prev else (g.instr j).prev }

/-- Block `b` holds exactly `phis` and then `rest`, and counts them. -/
structure Listed (g : Graph) (b : Nat) (phis rest : List Nat) : Prop extends g.Layout b phis rest where
  count : (g.block b).instrsCount = (phis ++ rest).length
  complete : ∀ i, (g.instr i).parent = some b → i ∈ phis ++ rest

/-- Only the list of block `b` has been written to, and `t` has been put into it or taken out. -/
structure Splices (g : Graph) (b t : Nat) (p : Option Nat) (g' : Graph) : Prop where
  block : ∀ c, c ≠ b → g'.block c = g.block c
  instr : ∀ j, j ≠ t → (g.instr j).parent ≠ some b → g'.instr j = g.instr j
  opcode : ∀ j, (g'.instr j).opcode = (g.instr j).opcode
  parent : ∀ j, (g'.instr j).parent = if j = t then p else (g.instr j).parent
  instrCount : g'.instrCount = g.instrCount
  freed : p = none → (g'.instr t).prev = none ∧ (g'.instr t).next = none

section
variable {g g' : Graph} {b t j : Nat} {prev next : Option Nat}

theorem linkedBetween_parent : (g.linkedBetween b t prev next j).parent =
    if j = t then some b else (g.instr j).parent := by
  unfold linkedBetween
  split <;> rfl

theorem linkedBetween_opcode : (g.linkedBetween b t prev next j).opcode = (g.instr j).opcode := by
  unfold linkedBetween
  split
  next h => rw [h]
  next => rfl

theorem linkedOver_parent : (g.linkedOver t prev next j).parent =
    if j = t then none else (g.instr j).parent := by
  unfold linkedOver
  split <;> rfl

theorem linkedOver_opcode : (g.linkedOver t prev next j).opcode = (g.instr j).opcode := by
  unfold linkedOver
  split
  next h => rw [h]
  next => rfl

end

namespace Layout

variable {g g' : Graph} {b t : Nat} {phis rest phis' rest' l₁ l₂ : List Nat}

/-- The list after an instruction has been put into it. -/
theorem insert (h : g.Layout b phis rest) (heq : phis ++ rest = l₁ ++ l₂) (heq' : phis' ++ rest' = l₁ ++ t :: l₂)
    (ht : t ∉ phis ++ rest) (hlt : t < g.instrCount) (hcount : g'.instrCount = g.instrCount)
    (instr : ∀ j, g'.instr j = g.linkedBetween b t l₁.getLast? l₂.head? j)
    (ends : (g'.block b).firstPhi = phis'.head? ∧ (g'.block b).lastPhi = phis'.getLast? ∧
      (g'.block b).firstInst = rest'.head? ∧ (g'.block b).lastInst = rest'.getLast?)
    (hphis : ∀ i ∈ phis', (g.instr i).isPhi = true) (hrest : ∀ i ∈ rest', (g.instr i).isPhi = false) :
    g'.Layout b phis' rest' where
  firstPhi := ends.1
  lastPhi := ends.2.1
  firstInst := ends.2.2.1
  lastInst := ends.2.2.2
  chain := by
    have hchain := h.chain
    rw [heq] at hchain ht
    rw [heq']
    refine hchain.insert ht (fun i _ => ?_) (fun i _ => ?_)
    · rw [instr, linkedBetween]
      split_ifs <;> simp
    · rw [instr, linkedBetween]
      split_ifs <;> simp
  parent i hi := by
    rw [instr, linkedBetween_parent]
    split_ifs with hit
    · rfl
    · refine h.parent i ?_
      rw [heq', List.mem_append, List.mem_cons] at hi
      rw [heq, List.mem_append]
      exact hi.imp_right fun hi => hi.resolve_left hit
  isPhi i hi := by
    rw [Instruction.isPhi, instr, linkedBetween_opcode]
    exact hphis i hi
  notPhi i hi := by
    rw [Instruction.isPhi, instr, linkedBetween_opcode]
    exact hrest i hi
  lt i hi := by
    rw [heq', List.mem_append, List.mem_cons] at hi
    rw [hcount]
    rcases hi with hi | rfl | hi
    · exact h.lt i (heq ▸ List.mem_append_left _ hi)
    · exact hlt
    · exact h.lt i (heq ▸ List.mem_append_right _ hi)

/-- The list after an instruction has been taken out of it. -/
theorem remove (h : g.Layout b phis rest) (heq : phis ++ rest = l₁ ++ t :: l₂) (heq' : phis' ++ rest' = l₁ ++ l₂)
    (hcount : g'.instrCount = g.instrCount)
    (instr : ∀ j, g'.instr j = g.linkedOver t l₁.getLast? l₂.head? j)
    (ends : (g'.block b).firstPhi = phis'.head? ∧ (g'.block b).lastPhi = phis'.getLast? ∧
      (g'.block b).firstInst = rest'.head? ∧ (g'.block b).lastInst = rest'.getLast?)
    (hphis : ∀ i ∈ phis', (g.instr i).isPhi = true) (hrest : ∀ i ∈ rest', (g.instr i).isPhi = false) :
    g'.Layout b phis' rest' := by
  have hnodup := h.nodup
  have hchain := h.chain
  rw [heq] at hnodup hchain
  have hne {i : Nat} (hi : i ∈ l₁ ++ l₂) : i ≠ t := by
    rintro rfl
    exact (List.nodup_cons.1 (List.nodup_middle.1 hnodup)).1 hi
  have sub {i : Nat} (hi : i ∈ phis' ++ rest') : i ∈ phis ++ rest := by
    rw [heq', List.mem_append] at hi
    rw [heq, List.mem_append, List.mem_cons]
    exact hi.imp_right .inr
  exact
  { firstPhi := ends.1
    lastPhi := ends.2.1
    firstInst := ends.2.2.1
    lastInst := ends.2.2.2
    chain := by
      rw [heq']
      refine hchain.remove (fun i hi => ?_) (fun i hi => ?_)
      · rw [instr, linkedOver, if_neg (hne hi)]
      · rw [instr, linkedOver, if_neg (hne hi)]
    parent := fun i hi => by
      rw [instr, linkedOver_parent, if_neg (hne (heq' ▸ hi))]
      exact h.parent i (sub hi)
    isPhi := fun i hi => by
      rw [Instruction.isPhi, instr, linkedOver_opcode]
      exact hphis i hi
    notPhi := fun i hi => by
      rw [Instruction.isPhi, instr, linkedOver_opcode]
      exact hrest i hi
    lt := fun i hi => by
      rw [hcount]
      exact h.lt i (sub hi) }

theorem getLast?_mem (heq : phis ++ rest = l₁ ++ l₂) {j : Nat} (hj : l₁.getLast? = some j) : j ∈ phis ++ rest :=
  heq ▸ List.mem_append_left _ (List.mem_of_getLast? hj)

theorem head?_mem (heq : phis ++ rest = l₁ ++ l₂) {j : Nat} (hj : l₂.head? = some j) : j ∈ phis ++ rest :=
  heq ▸ List.mem_append_right _ (List.mem_of_head? hj)

end Layout

namespace Listed

variable {g g' : Graph} {b t : Nat} {phis rest phis' rest' l₁ l₂ : List Nat}

theorem insert {l m : List Nat} (h : g.Listed b phis rest) (heq : phis ++ rest = l ++ m) (heq' : phis' ++ rest' = l ++ t :: m)
    (ht : (g.instr t).parent = none) (hlt : t < g.instrCount) (hcount : g'.instrCount = g.instrCount)
    (instr : ∀ j, g'.instr j = g.linkedBetween b t l.getLast? m.head? j)
    (ends : (g'.block b).firstPhi = phis'.head? ∧ (g'.block b).lastPhi = phis'.getLast? ∧
      (g'.block b).firstInst = rest'.head? ∧ (g'.block b).lastInst = rest'.getLast?)
    (hcnt : (g'.block b).instrsCount = (g.block b).instrsCount + 1)
    (hphis : ∀ i ∈ phis', (g.instr i).isPhi = true) (hrest : ∀ i ∈ rest', (g.instr i).isPhi = false)
    (block : ∀ c, c ≠ b → g'.block c = g.block c) :
    g'.Listed b phis' rest' ∧ Splices g b t (some b) g' := by
  have hout : t ∉ phis ++ rest := fun hmem => by
    rw [h.parent t hmem] at ht
    cases ht
  refine ⟨⟨h.toLayout.insert heq heq' hout hlt hcount instr ends hphis hrest, ?_, fun i hi => ?_⟩,
    ⟨block, fun j hj hparent => ?_, fun j => ?_, fun j => ?_, hcount, fun hp => nomatch hp⟩⟩
  · rw [hcnt, h.count, heq, heq']
    simp only [List.length_append, List.length_cons]
    omega
  · rw [instr, linkedBetween_parent] at hi
    rw [heq', List.mem_append, List.mem_cons]
    split_ifs at hi with hit
    · exact .inr (.inl hit)
    · have := h.complete i hi
      rw [heq, List.mem_append] at this
      exact this.imp_right .inr
  · -- the neighbours of `t` are in the block
    have hl : l.getLast? ≠ some j := fun hl => hparent (h.parent j (Layout.getLast?_mem heq hl))
    have hn : m.head? ≠ some j := fun hn => hparent (h.parent j (Layout.head?_mem heq hn))
    rw [instr, linkedBetween, if_neg hj, if_neg hl, if_neg hn]
  · rw [instr, linkedBetween_opcode]
  · rw [instr, linkedBetween_parent]

theorem remove (h : g.Listed b phis rest) (heq : phis ++ rest = l₁ ++ t :: l₂) (heq' : phis' ++ rest' = l₁ ++ l₂)
    (hcount : g'.instrCount = g.instrCount)
    (instr : ∀ j, g'.instr j = g.linkedOver t l₁.getLast? l₂.head? j)
    (ends : (g'.block b).firstPhi = phis'.head? ∧ (g'.block b).lastPhi = phis'.getLast? ∧
      (g'.block b).firstInst = rest'.head? ∧ (g'.block b).lastInst = rest'.getLast?)
    (hcnt : (g'.block b).instrsCount = (g.block b).instrsCount - 1)
    (hphis : ∀ i ∈ phis', (g.instr i).isPhi = true) (hrest : ∀ i ∈ rest', (g.instr i).isPhi = false)
    (block : ∀ c, c ≠ b → g'.block c = g.block c) :
    g'.Listed b phis' rest' ∧ Splices g b t none g' := by
  have heq₁ : phis ++ rest = (l₁ ++ [t]) ++ l₂ := by rw [heq, List.append_assoc]; rfl
  refine ⟨⟨h.toLayout.remove heq heq' hcount instr ends hphis hrest, ?_, fun i hi => ?_⟩,
    ⟨block, fun j hj hparent => ?_, fun j => ?_, fun j => ?_, hcount, fun _ => ?_⟩⟩
  · rw [hcnt, h.count, heq, heq']
    simp only [List.length_append, List.length_cons]
    omega
  · rw [instr, linkedOver_parent] at hi
    split_ifs at hi with hit
    have := h.complete i hi
    rw [heq, List.mem_append, List.mem_cons] at this
    rw [heq', List.mem_append]
    exact this.imp_right fun hi => hi.resolve_left hit
  · have hl : l₁.getLast? ≠ some j := fun hl => hparent (h.parent j (Layout.getLast?_mem heq hl))
    have hn : l₂.head? ≠ some j := fun hn => hparent (h.parent j (Layout.head?_mem heq₁ hn))
    rw [instr, linkedOver, if_neg hj, if_neg hl, if_neg hn]
  · rw [instr, linkedOver_opcode]
  · rw [instr, linkedOver_parent]
  · rw [instr, linkedOver, if_pos rfl]
    exact ⟨rfl, rfl⟩

end Listed

end CompilerLab.Jit.Graph
