import CompilerLab.Jit.BasicBlock
import CompilerLab.Lib.Chain
import Mathlib.Data.List.Perm.Subperm

/-!
# The instruction list of a block

`Layout` says which phis and which other instructions a block holds, in order. It determines what the iterators give,
and each operation on the list is described by the layout it leaves.
-/

namespace CompilerLab.Jit.Graph

open CompilerLab.Lib

/-- Block `b` holds `phis` and then `rest`. -/
structure Layout (g : Graph) (b : Nat) (phis rest : List Nat) : Prop where
  firstPhi : (g.block b).firstPhi = phis.head?
  lastPhi : (g.block b).lastPhi = phis.getLast?
  firstInst : (g.block b).firstInst = rest.head?
  lastInst : (g.block b).lastInst = rest.getLast?
  chain : Chained (fun i => (g.instr i).next) (fun i => (g.instr i).prev) (phis ++ rest)
  parent : ∀ i ∈ phis ++ rest, (g.instr i).parent = some b
  isPhi : ∀ i ∈ phis, (g.instr i).isPhi = true
  notPhi : ∀ i ∈ rest, (g.instr i).isPhi = false
  lt : ∀ i ∈ phis ++ rest, i < g.instrCount

/-- The instructions after `i` has been linked behind `last`. -/
def linkedBehind (g : Graph) (b i : Nat) (last : Option Nat) (j : Nat) : Instruction :=
  if j = i then { g.instr i with parent := some b, prev := last }
  else if last = some j then { g.instr j with next := some i }
  else g.instr j

namespace Layout

variable {g g' : Graph} {b : Nat} {phis rest l₁ l₂ : List Nat} {i t : Nat}

/-- The layout depends on the ends of the segments and on the links, blocks and kinds of the instructions. -/
theorem congr (h : g.Layout b phis rest)
    (ends : (g'.block b).firstPhi = (g.block b).firstPhi ∧ (g'.block b).lastPhi = (g.block b).lastPhi ∧
      (g'.block b).firstInst = (g.block b).firstInst ∧ (g'.block b).lastInst = (g.block b).lastInst)
    (instr : ∀ i ∈ phis ++ rest, (g'.instr i).next = (g.instr i).next ∧ (g'.instr i).prev = (g.instr i).prev ∧
      (g'.instr i).parent = (g.instr i).parent ∧ (g'.instr i).opcode = (g.instr i).opcode)
    (count : g.instrCount ≤ g'.instrCount) : g'.Layout b phis rest where
  firstPhi := ends.1.trans h.firstPhi
  lastPhi := ends.2.1.trans h.lastPhi
  firstInst := ends.2.2.1.trans h.firstInst
  lastInst := ends.2.2.2.trans h.lastInst
  chain := h.chain.congr fun i hi => ⟨(instr i hi).1, (instr i hi).2.1⟩
  parent i hi := (instr i hi).2.2.1.trans (h.parent i hi)
  isPhi i hi := by
    have := h.isPhi i hi
    rwa [Instruction.isPhi, (instr i (List.mem_append_left _ hi)).2.2.2]
  notPhi i hi := by
    have := h.notPhi i hi
    rwa [Instruction.isPhi, (instr i (List.mem_append_right _ hi)).2.2.2]
  lt i hi := (h.lt i hi).trans_le count

theorem congr_of_eq (h : g.Layout b phis rest) (block : g'.block b = g.block b)
    (instr : ∀ i ∈ phis ++ rest, g'.instr i = g.instr i) (count : g.instrCount ≤ g'.instrCount) :
    g'.Layout b phis rest :=
  h.congr (by rw [block]; exact ⟨rfl, rfl, rfl, rfl⟩) (fun i hi => by rw [instr i hi]; exact ⟨rfl, rfl, rfl, rfl⟩) count

theorem nodup (h : g.Layout b phis rest) : (phis ++ rest).Nodup := h.chain.nodup

theorem next_eq (h : g.Layout b phis rest) (heq : phis ++ rest = l₁ ++ i :: l₂) : (g.instr i).next = l₂.head? :=
  (h.chain.links l₁ i l₂ heq).1

theorem prev_eq (h : g.Layout b phis rest) (heq : phis ++ rest = l₁ ++ i :: l₂) : (g.instr i).prev = l₁.getLast? :=
  (h.chain.links l₁ i l₂ heq).2

instance : Decidable (g.Layout b phis rest) :=
  decidable_of_iff (((g.block b).firstPhi = phis.head? ∧ (g.block b).lastPhi = phis.getLast? ∧
      (g.block b).firstInst = rest.head? ∧ (g.block b).lastInst = rest.getLast?) ∧
    Chained (fun i => (g.instr i).next) (fun i => (g.instr i).prev) (phis ++ rest) ∧
    (∀ i ∈ phis ++ rest, (g.instr i).parent = some b) ∧ (∀ i ∈ phis, (g.instr i).isPhi = true) ∧
    (∀ i ∈ rest, (g.instr i).isPhi = false) ∧ ∀ i ∈ phis ++ rest, i < g.instrCount)
  ⟨fun ⟨⟨h₁, h₂, h₃, h₄⟩, h₅, h₆, h₇, h₈, h₉⟩ => ⟨h₁, h₂, h₃, h₄, h₅, h₆, h₇, h₈, h₉⟩,
    fun ⟨h₁, h₂, h₃, h₄, h₅, h₆, h₇, h₈, h₉⟩ => ⟨⟨h₁, h₂, h₃, h₄⟩, h₅, h₆, h₇, h₈, h₉⟩⟩

/-! ## What the iterators give -/

theorem length_le (h : g.Layout b phis rest) : (phis ++ rest).length ≤ g.instrCount := by
  have sub : phis ++ rest ⊆ List.range g.instrCount := fun i hi => List.mem_range.2 (h.lt i hi)
  simpa using (h.nodup.subperm sub).length_le

theorem walk_eq (h : g.Layout b phis rest) (heq : phis ++ rest = l₁ ++ l₂) {n : Nat} (hn : l₂.length ≤ n) :
    g.walk n l₂.head? = l₂ := by
  induction l₂ generalizing l₁ n with
  | nil => cases n <;> rfl
  | cons i l₂ ih =>
      cases n with
      | zero => cases hn
      | succ n =>
          have heq' : phis ++ rest = (l₁ ++ [i]) ++ l₂ := by simp [heq]
          rw [List.head?_cons, walk, h.next_eq heq, ih heq' (Nat.le_of_succ_le_succ hn)]

theorem instrs_eq (h : g.Layout b phis rest) : g.instrs b = phis ++ rest := by
  have first : g.beginInstr b = (phis ++ rest).head? := by
    rw [beginInstr, h.firstPhi, h.firstInst, List.head?_append]
    cases phis <;> rfl
  rw [instrs, first]
  have heq : phis ++ rest = [] ++ (phis ++ rest) := rfl
  exact h.walk_eq heq h.length_le

theorem phis_eq (h : g.Layout b phis rest) : g.phis b = phis := by
  rw [Graph.phis, h.instrs_eq, List.takeWhile_append_of_pos h.isPhi]
  cases rest with
  | nil => simp
  | cons i rest => rw [List.takeWhile_cons_of_neg (by simp [h.notPhi i]), List.append_nil]

theorem insts_eq (h : g.Layout b phis rest) : g.insts b = rest := by
  rw [insts, h.instrs_eq, h.phis_eq, List.drop_left]

theorem nextPhi_eq (h : g.Layout b (l₁ ++ i :: l₂) rest) : g.nextPhi i = l₂.head? := by
  have heq : l₁ ++ i :: l₂ ++ rest = l₁ ++ i :: (l₂ ++ rest) := by simp
  have next := h.next_eq heq
  rw [nextPhi, next]
  cases l₂ with
  | nil =>
      cases rest with
      | nil => rfl
      | cons j rest => simp [h.notPhi j]
  | cons j l₂ => simp [h.isPhi j]

/-- Two blocks share no instruction. -/
theorem disjoint {c : Nat} {phis' rest' : List Nat} (h : g.Layout b phis rest) (h' : g.Layout c phis' rest')
    (hne : b ≠ c) (hi : i ∈ phis ++ rest) : i ∉ phis' ++ rest' := by
  intro hi'
  have := (h.parent i hi).symm.trans (h'.parent i hi')
  exact hne (Option.some.inj this)

/-- Iterating over the phis of a block while the body keeps their links. -/
theorem forPhi_eq {σ : Type*} {graph : σ → Graph} {body : σ → Nat → Option σ} {P : List Nat → σ → Prop} {s : σ}
    {b : Nat} {phis : List Nat} (layout : ∀ done s, P done s → ∃ rest, (graph s).Layout b phis rest)
    (step : ∀ done phi l s s', phis = done ++ phi :: l → P done s → body s phi = some s' → P (done ++ [phi]) s')
    (hs : P [] s) {n : Nat} (hn : phis.length ≤ n) :
    forPhi graph body n s phis.head? = phis.foldlM body s := by
  suffices ∀ l done s n, phis = done ++ l → P done s → l.length ≤ n →
      forPhi graph body n s l.head? = l.foldlM body s from this phis [] s n rfl hs hn
  intro l
  induction l with
  | nil => intro done s n _ _ _; cases n <;> rfl
  | cons phi l ih =>
      intro done s n heq hP hn
      cases n with
      | zero => cases hn
      | succ n =>
          simp only [List.head?_cons, forPhi, List.foldlM_cons, Option.bind_eq_bind]
          cases hb : body s phi with
          | none => rfl
          | some s' =>
              have hP' := step done phi l s s' heq hP hb
              obtain ⟨rest, hlay⟩ := layout _ _ hP'
              have next : (graph s').nextPhi phi = l.head? := (heq ▸ hlay).nextPhi_eq
              simp only [Option.bind_some, next]
              exact ih (done ++ [phi]) s' n (by simp [heq]) hP' (Nat.le_of_succ_le_succ hn)

/-! ## Pushing to the back -/

/-- What writing to the instruction list of block `b` leaves alone: the other blocks, and of the instructions all but
the links of those of the block and of the one that is pushed. -/
structure Frame (g : Graph) (b i : Nat) (g' : Graph) : Prop where
  block : ∀ c, c ≠ b → g'.block c = g.block c
  preds : (g'.block b).preds = (g.block b).preds
  succs : (g'.block b).succs = (g.block b).succs
  loop_of : (g'.block b).loop = (g.block b).loop
  instr : ∀ j, j ≠ i → (g.instr j).parent ≠ some b → g'.instr j = g.instr j
  links : ∀ j, ∃ p n q, g'.instr j = { g.instr j with prev := p, next := n, parent := q }
  loop : g'.loop = g.loop
  instrCount : g'.instrCount = g.instrCount
  blockCount : g'.blockCount = g.blockCount

theorem pushBackInstruction_links (h : g.Layout b phis rest) (hphi : (g.instr i).isPhi = false)
    (hparent : (g.instr i).parent = none) (hprev : (g.instr i).prev = none) :
    ∃ g', g.pushBackInstruction b i = some g' ∧
      (∀ j, g'.instr j = g.linkedBehind b i (phis ++ rest).getLast? j) ∧
      (∀ c, g'.block c = if c = b then
          { g.block b with
            firstInst := (rest ++ [i]).head?, lastInst := some i, instrsCount := (g.block b).instrsCount + 1 }
        else g.block c) ∧
      g'.loop = g.loop ∧ g'.instrCount = g.instrCount ∧ g'.blockCount = g.blockCount := by
  have hni : i ∉ phis ++ rest := fun hmem => by simp [h.parent i hmem] at hparent
  have hphi' : ((g.setParent i (some b)).instr i).isPhi = false := by
    rw [setParent, modifyInstr_instr_self]
    exact hphi
  have hblock : (g.setParent i (some b)).block b = g.block b := rfl
  simp only [pushBackInstruction, pushInstruction, ASSERT_of hparent, ASSERT_of hprev, Option.bind_eq_bind,
    Option.bind_some, hphi', Bool.false_eq_true, if_false, hblock, h.firstInst, h.lastInst, if_true,
    Option.pure_def]
  have links {x j : Nat} (hx : x ≠ i) {g' : Graph}
      (heq : g'.instr j = (((g.setParent i (some b)).setPrev i (some x)).setNext x (some i)).instr j) :
      g'.instr j = g.linkedBehind b i (some x) j := by
    rw [heq]
    simp only [setParent, setPrev, setNext, modifyInstr_instr, linkedBehind, Option.some.injEq]
    by_cases hj : j = i
    · subst hj; simp [hx.symm]
    · by_cases hxj : j = x
      · subst hxj; simp [hx]
      · simp [hj, hxj, Ne.symm hxj]
  cases rest using List.reverseRecOn with
  | nil =>
      simp only [List.head?_nil, setPrev, setParent, modifyBlock_block_self, modifyInstr_block, h.lastPhi]
      cases phis using List.reverseRecOn with
      | nil =>
          refine ⟨_, rfl, fun j => ?_, fun c => ?_, rfl, rfl, rfl⟩
          · by_cases hj : j = i
            · subst hj; simp [linkedBehind]
            · simp [linkedBehind, hj]
          · by_cases hc : c = b
            · subst hc; simp [h.lastPhi]
            · simp [hc]
      | append_singleton phis x =>
          simp only [List.getLast?_append, List.getLast?_singleton, Option.some_or, List.append_nil]
          refine ⟨_, rfl, fun j => links (by rintro rfl; simp at hni) rfl, fun c => ?_, rfl, rfl, rfl⟩
          by_cases hc : c = b
          · subst hc; simp [setNext, h.lastPhi]
          · simp [setNext, hc]
  | append_singleton rest x =>
      have first : ∃ f, (rest ++ [x]).head? = some f := by cases rest <;> simp
      obtain ⟨f, hf⟩ := first
      have hf' : (rest ++ [x] ++ [i]).head? = some f := by rw [List.head?_append, hf]; rfl
      simp only [hf, hf', List.getLast?_append, List.getLast?_singleton, Option.some_or, Option.bind_some, setPrev,
        setParent]
      refine ⟨_, rfl, fun j => links (by rintro rfl; simp at hni) rfl, fun c => ?_, rfl, rfl, rfl⟩
      by_cases hc : c = b
      · subst hc; simp [setNext, h.firstInst, hf]
      · simp [setNext, hc]

theorem pushBackInstruction_eq (h : g.Layout b phis rest) (hphi : (g.instr i).isPhi = false)
    (hparent : (g.instr i).parent = none) (hprev : (g.instr i).prev = none) (hnext : (g.instr i).next = none)
    (hi : i < g.instrCount) :
    ∃ g', g.pushBackInstruction b i = some g' ∧ g'.Layout b phis (rest ++ [i]) ∧ Frame g b i g' := by
  obtain ⟨g', heq, instr, block, hloop, hic, hbc⟩ := h.pushBackInstruction_links hphi hparent hprev
  have hni : i ∉ phis ++ rest := fun hmem => by simp [h.parent i hmem] at hparent
  have hb := (block b).trans (if_pos rfl)
  refine ⟨g', heq, ?_, ?_⟩
  · exact
    { firstPhi := by rw [hb]; exact h.firstPhi
      lastPhi := by rw [hb]; exact h.lastPhi
      firstInst := by rw [hb]
      lastInst := by rw [hb]; simp
      chain := by
        rw [← List.append_assoc]
        refine Chained.insert (by rw [List.append_nil]; exact h.chain) (by rwa [List.append_nil])
          (fun j hj => ?_) (fun j hj => ?_)
        · rw [instr, linkedBehind]
          split_ifs <;> simp_all
        · rw [instr, linkedBehind]
          split_ifs <;> simp_all
      parent := fun j hj => by
        rw [instr, linkedBehind]
        have := h.parent j
        split_ifs <;> simp_all
      isPhi := fun j hj => by
        rw [instr, linkedBehind]
        have := h.isPhi j hj
        split_ifs <;> simp_all [Instruction.isPhi]
      notPhi := fun j hj => by
        rw [instr, linkedBehind]
        have := h.notPhi j
        split_ifs <;> simp_all [Instruction.isPhi]
      lt := fun j hj => by
        rw [hic]
        rw [← List.append_assoc, List.mem_append, List.mem_singleton] at hj
        rcases hj with hj | rfl
        · exact h.lt j hj
        · exact hi }
  · refine ⟨fun c hc => (block c).trans (if_neg hc), by rw [hb], by rw [hb], by rw [hb], fun j hj hp => ?_,
      fun j => ?_, hloop, hic, hbc⟩
    · rw [instr, linkedBehind, if_neg hj, if_neg]
      intro hlast
      exact hp (h.parent j (List.mem_of_getLast? hlast))
    · rw [instr, linkedBehind]
      split_ifs with h₁
      · subst h₁; exact ⟨_, _, _, rfl⟩
      · exact ⟨_, _, _, rfl⟩
      · exact ⟨_, _, _, rfl⟩

end Layout

end CompilerLab.Jit.Graph
