import CompilerLab.Jit.Lemmas.Lists
import CompilerLab.Jit.Lemmas.Strung
import CompilerLab.Jit.Peephole

/-!
# What a rule of the peephole pass does to the lists

A rule that applies takes its instruction out of its block. It may take out negations of the same block too, puts new
instructions there and constants into the first block.
-/

namespace CompilerLab.Jit

open CompilerLab.Lib

namespace Graph

variable {g g' g'' : Graph} {b c i j t : Nat} {p : Option Nat} {phis rest l : List Nat} {T B : Nat → Prop}

/-! ## Operations on users and inputs -/

/-- No list of instructions has changed, but there may be new instructions in no block. -/
structure Quiet (g g' : Graph) : Prop where
  block : g'.block = g.block
  firstBlock : g'.firstBlock = g.firstBlock
  count : g.instrCount ≤ g'.instrCount
  instr : ∀ j < g.instrCount, (g'.instr j).next = (g.instr j).next ∧ (g'.instr j).prev = (g.instr j).prev ∧
    (g'.instr j).parent = (g.instr j).parent ∧ (g'.instr j).opcode = (g.instr j).opcode
  fresh : ∀ j, g.instrCount ≤ j → (g'.instr j).parent = none ∨ (g'.instr j).parent = (g.instr j).parent

namespace Quiet

theorem refl (g : Graph) : Quiet g g where
  block := rfl
  firstBlock := rfl
  count := le_rfl
  instr := by simp
  fresh := by simp

theorem trans (h : Quiet g g') (h' : Quiet g' g'') : Quiet g g'' where
  block := h'.block.trans h.block
  firstBlock := h'.firstBlock.trans h.firstBlock
  count := h.count.trans h'.count
  instr j hj := by
    obtain ⟨h₁, h₂, h₃, h₄⟩ := h.instr j hj
    obtain ⟨h₁', h₂', h₃', h₄'⟩ := h'.instr j (hj.trans_le h.count)
    exact ⟨h₁'.trans h₁, h₂'.trans h₂, h₃'.trans h₃, h₄'.trans h₄⟩
  fresh j hj := by
    by_cases hj' : j < g'.instrCount
    · rw [(h'.instr j hj').2.2.1]
      exact h.fresh j hj
    · rcases h'.fresh j (not_lt.1 hj') with h' | h'
      · exact .inl h'
      · rw [h']
        exact h.fresh j hj

/-- Writing to the users or the inputs of an instruction. -/
theorem modifyInstr (g : Graph) (i : Nat) {f : Instruction → Instruction}
    (hf : ∀ x, (f x).next = x.next ∧ (f x).prev = x.prev ∧ (f x).parent = x.parent ∧ (f x).opcode = x.opcode) :
    Quiet g (g.modifyInstr i f) where
  block := rfl
  firstBlock := rfl
  count := le_rfl
  instr j _ := by
    rw [modifyInstr_instr]
    split_ifs with hj
    · rw [hj]
      exact hf _
    · exact ⟨rfl, rfl, rfl, rfl⟩
  fresh j _ := by
    rw [modifyInstr_instr]
    split_ifs with hj
    · rw [hj]
      exact .inr (hf _).2.2.1
    · exact .inr rfl

theorem addUser (g : Graph) (i u : Nat) : Quiet g (g.addUser i u) := modifyInstr g i (by simp)

theorem removeUser {u : Nat} (h : g.removeUser i u = some g') : Quiet g g' := by
  obtain ⟨-, rfl⟩ := removeUser_eq_some.1 h
  exact modifyInstr g i (by simp)

theorem replaceUser {u v : Nat} (h : g.replaceUser i u v = some g') : Quiet g g' := by
  obtain ⟨-, rfl⟩ := replaceUser_eq_some.1 h
  exact modifyInstr g i (by simp)

theorem replaceInputInUsers {r : Nat} (h : g.replaceInputInUsers i r = some g') : Quiet g g' := by
  have hr := replaceInputInUsers_redirects h
  have hadd : Quiet g (g.addUsers r (g.instr i).users) := modifyInstr g r (by simp)
  refine hadd.trans ⟨?_, ?_, ?_, ?_, ?_⟩
  · rw [hr.graph]
  · rw [hr.graph]
  · rw [hr.graph]
  · intro j _
    rw [hr.instr j]
    exact ⟨rfl, rfl, rfl, rfl⟩
  · intro j _
    rw [hr.instr j]
    exact .inr rfl

theorem createInst (g : Graph) {x : Instruction} (hx : x.parent = none) : Quiet g (g.createInst x).1 := by
  rw [createInst_eq]
  refine ⟨rfl, rfl, Nat.le_succ _, ?_, ?_⟩
  · intro j hj
    simp [Function.update_of_ne hj.ne]
  · intro j hj
    by_cases hjc : j = g.instrCount
    · subst hjc
      simp [hx]
    · simp [Function.update_of_ne hjc]

theorem listed (h : Quiet g g') (hl : g.Listed b phis rest) : g'.Listed b phis rest where
  toLayout := hl.toLayout.congr (by simp [h.block]) (fun i hi => h.instr i (hl.lt i hi)) h.count
  count := by
    rw [h.block]
    exact hl.count
  complete i hi := by
    refine hl.complete i ?_
    by_cases hlt : i < g.instrCount
    · rwa [(h.instr i hlt).2.2.1] at hi
    · rcases h.fresh i (not_lt.1 hlt) with hn | hs
      · rw [hn] at hi
        cases hi
      · rwa [hs] at hi

theorem strung (h : Quiet g g') (hl : g.Strung b l) : g'.Strung b l where
  chain := hl.chain.congr fun i hi => ⟨(h.instr i (hl.lt i hi)).1, (h.instr i (hl.lt i hi)).2.1⟩
  parent i hi := (h.instr i (hl.lt i hi)).2.2.1.trans (hl.parent i hi)
  complete i hi := by
    refine hl.complete i ?_
    by_cases hlt : i < g.instrCount
    · rwa [(h.instr i hlt).2.2.1] at hi
    · rcases h.fresh i (not_lt.1 hlt) with hn | hs
      · rw [hn] at hi
        cases hi
      · rwa [hs] at hi
  lt i hi := (hl.lt i hi).trans_le h.count
  insts e he := hl.insts e (by rwa [h.block] at he)
  phis e he := by
    obtain ⟨hel, hphi⟩ := hl.phis e (by rwa [h.block] at he)
    refine ⟨hel, ?_⟩
    rw [Instruction.isPhi, (h.instr e (hl.lt e hel)).2.2.2]
    exact hphi

end Quiet

/-- A new instruction is in no list. -/
theorem createInst_free (g : Graph) {x : Instruction} (hp : x.parent = none) (hprev : x.prev = none) (hnext : x.next = none) :
    (g.createInst x).1.Free (g.createInst x).2 := by
  rw [createInst_eq]
  exact ⟨Nat.lt_succ_self _, by simp [hp], by simp [hprev], by simp [hnext]⟩

theorem createInst_opcode (g : Graph) (x : Instruction) : ((g.createInst x).1.instr (g.createInst x).2).opcode = x.opcode := by
  rw [createInst_eq]
  simp

/-! ## Edits -/

/-- Only the lists of the blocks `B` have been edited; of the instructions in blocks only `T` have been taken out. -/
structure Edits (T B : Nat → Prop) (g g' : Graph) : Prop where
  firstBlock : g'.firstBlock = g.firstBlock
  count : g.instrCount ≤ g'.instrCount
  block : ∀ c, ¬B c → g'.block c = g.block c
  opcode : ∀ j < g.instrCount, (g'.instr j).opcode = (g.instr j).opcode
  stays : ∀ j < g.instrCount, ¬T j → (g.instr j).parent ≠ none → (g'.instr j).parent = (g.instr j).parent
  links : ∀ j < g.instrCount, ∀ c, ¬B c → (g.instr j).parent = some c → (g'.instr j).next = (g.instr j).next ∧
    (g'.instr j).prev = (g.instr j).prev ∧ (g'.instr j).parent = (g.instr j).parent
  only : ∀ j c, ¬B c → (g'.instr j).parent = some c → (g.instr j).parent = some c

namespace Edits

theorem trans (h : Edits T B g g') (h' : Edits T B g' g'') : Edits T B g g'' where
  firstBlock := h'.firstBlock.trans h.firstBlock
  count := h.count.trans h'.count
  block c hc := (h'.block c hc).trans (h.block c hc)
  opcode j hj := (h'.opcode j (hj.trans_le h.count)).trans (h.opcode j hj)
  stays j hj ht hp := by
    have hp' := h.stays j hj ht hp
    rw [h'.stays j (hj.trans_le h.count) ht (by rwa [hp']), hp']
  links j hj c hc hp := by
    obtain ⟨h₁, h₂, h₃⟩ := h.links j hj c hc hp
    obtain ⟨h₁', h₂', h₃'⟩ := h'.links j (hj.trans_le h.count) c hc (h₃.trans hp)
    exact ⟨h₁'.trans h₁, h₂'.trans h₂, h₃'.trans h₃⟩
  only j c hc hp := h.only j c hc (h'.only j c hc hp)

theorem mono {T' B' : Nat → Prop} (h : Edits T B g g') (hT : ∀ j < g.instrCount, T j → T' j) (hB : ∀ c, B c → B' c) :
    Edits T' B' g g' where
  firstBlock := h.firstBlock
  count := h.count
  block c hc := h.block c fun hb => hc (hB c hb)
  opcode := h.opcode
  stays j hj ht := h.stays j hj fun ht' => ht (hT j hj ht')
  links j hj c hc := h.links j hj c fun hb => hc (hB c hb)
  only j c hc := h.only j c fun hb => hc (hB c hb)

end Edits

theorem Quiet.edits (h : Quiet g g') : Edits T B g g' where
  firstBlock := h.firstBlock
  count := h.count
  block c _ := congrFun h.block c
  opcode j hj := (h.instr j hj).2.2.2
  stays j hj _ _ := (h.instr j hj).2.2.1
  links j hj c _ _ := ⟨(h.instr j hj).1, (h.instr j hj).2.1, (h.instr j hj).2.2.1⟩
  only j c _ hp := by
    by_cases hj : j < g.instrCount
    · rwa [(h.instr j hj).2.2.1] at hp
    · rcases h.fresh j (not_lt.1 hj) with hn | hs
      · rw [hn] at hp
        cases hp
      · rwa [hs] at hp

theorem Splices.edits (h : Splices g b t p g') (hf : g'.firstBlock = g.firstBlock) (hp : p = none ∨ p = some b) (hb : B b)
    (ht : T t ∧ (g.instr t).parent = some b ∨ (g.instr t).parent = none) : Edits T B g g' where
  firstBlock := hf
  count := h.instrCount.ge
  block c hc := h.block c (by rintro rfl; exact hc hb)
  opcode j _ := h.opcode j
  stays j _ hT hj := by
    have hne : j ≠ t := by
      rintro rfl
      rcases ht with ht | ht
      · exact hT ht.1
      · exact hj ht
    rw [h.parent, if_neg hne]
  links j _ c hc hj := by
    have hcb : c ≠ b := by
      rintro rfl
      exact hc hb
    have hne : j ≠ t := by
      rintro rfl
      rcases ht with ht | ht
      · exact hcb (Option.some.inj (hj.symm.trans ht.2))
      · rw [ht] at hj
        cases hj
    rw [h.instr j hne (by rw [hj]; simpa using hcb)]
    exact ⟨rfl, rfl, rfl⟩
  only j c hc hj := by
    rw [h.parent] at hj
    split_ifs at hj with hjt
    · rcases hp with rfl | rfl
      · cases hj
      · cases hj
        exact absurd hb hc
    · exact hj

theorem Quiet.endsIn (h : Quiet g g') (he : g.EndsIn b) : g'.EndsIn b := by
  intro e hend
  rw [h.block] at hend
  obtain ⟨hp, hlt⟩ := he e hend
  rw [(h.instr e hlt).2.2.1]
  exact ⟨hp, hlt.trans_le h.count⟩

theorem Splices.endsIn (h : Splices g b t p g') (ht : (g.instr t).parent = some b ∨ (g.instr t).parent = none) (hc : c ≠ b)
    (he : g.EndsIn c) : g'.EndsIn c := by
  intro e hend
  rw [h.block c hc] at hend
  obtain ⟨hp, hlt⟩ := he e hend
  have hne : e ≠ t := by
    rintro rfl
    rcases ht with ht | ht
    · exact hc (Option.some.inj (hp.symm.trans ht))
    · rw [ht] at hp
      cases hp
  rw [h.parent, if_neg hne, h.instrCount]
  exact ⟨hp, hlt⟩

/-! ## Taking an instruction out -/

/-- Instruction `i` has been taken out for good, with edits of the lists of the blocks `B` alone. -/
structure UnlinksInstr (T B : Nat → Prop) (i : Nat) (g g' : Graph) : Prop where
  edits : Edits T B g g'
  gone : (g'.instr i).parent = none
  next : (g'.instr i).next = none
  ends : ∀ c, g'.EndsIn c

namespace UnlinksInstr

theorem edited (h : Edits T B g g') (h' : UnlinksInstr T B i g' g'') : UnlinksInstr T B i g g'' :=
  ⟨h.trans h'.edits, h'.gone, h'.next, h'.ends⟩

theorem quiet (hi : i < g.instrCount) (h : UnlinksInstr T B i g g') (h' : Quiet g' g'') : UnlinksInstr T B i g g'' where
  edits := h.edits.trans h'.edits
  gone := (h'.instr i (hi.trans_le h.edits.count)).2.2.1.trans h.gone
  next := (h'.instr i (hi.trans_le h.edits.count)).1.trans h.next
  ends c := h'.endsIn (h.ends c)

end UnlinksInstr

/-- An instruction has been taken out of a list. -/
theorem Strung.taken (h : g.Strung b l) (hi : i ∈ l) (hphi : (g.instr i).isPhi = false) (he : ∀ c, g.EndsIn c) (hT : T i)
    (hB : B b) (hs : g.unlinkInstruction b i = some g') :
    (∃ l', l' ⊆ l ∧ g'.Strung b l') ∧ (∀ j, (g'.instr j).opcode = (g.instr j).opcode) ∧ UnlinksInstr T B i g g' := by
  obtain ⟨l₁, l₂, rfl⟩ := List.append_of_mem hi
  obtain ⟨hl', hsp⟩ := h.unlink hphi hs
  have hparent := h.parent i hi
  have hrel := (unlinkInstruction_relinks hs).2
  refine ⟨⟨_, by simp, hl'⟩, hsp.opcode, hsp.edits ?_ (.inl rfl) hB (.inl ⟨hT, hparent⟩), ?_, (hsp.freed rfl).2, fun c => ?_⟩
  · rw [LinksOnly.graph hrel]
    rfl
  · rw [hsp.parent, if_pos rfl]
  · by_cases hc : c = b
    · rw [hc]
      exact hl'.endsIn
    · exact hsp.endsIn (.inl hparent) hc (he c)

/-- A new instruction has been put into a list. -/
theorem Strung.inserted {n : Nat} (h : g'.Strung b l) (hsp : Splices g b n (some b) g') (hf : g'.firstBlock = g.firstBlock)
    (hn : (g.instr n).parent = none) (he : ∀ c, g.EndsIn c) (hB : B b) : Edits T B g g' ∧ ∀ c, g'.EndsIn c := by
  refine ⟨hsp.edits hf (.inr rfl) hB (.inr hn), fun c => ?_⟩
  by_cases hc : c = b
  · rw [hc]
    exact h.endsIn
  · exact hsp.endsIn (.inr hn) hc (he c)

theorem Relinks.firstBlock (h : Relinks t p g g') : g'.firstBlock = g.firstBlock := by
  rw [LinksOnly.graph h]
  rfl

namespace UnlinksInstr

/-- A new instruction takes the place of the instruction. -/
theorem replaceInControlFlow {n : Nat} (h : g.Strung b l) (hi : i ∈ l) (hphi : (g.instr i).isPhi = false)
    (he : ∀ c, g.EndsIn c) (hn : g.Free n) (hnphi : (g.instr n).isPhi = false) (halone : l = [i] → g.Listed b [] [i])
    (hT : T i) (hB : B b) (hs : g.replaceInControlFlow b i n = some g') : UnlinksInstr T B i g g' := by
  -- once the new instruction is in the list, the old one is unlinked
  have taken : ∀ {g₁ : Graph} {l' : List Nat}, g₁.Strung b l' → Splices g b n (some b) g₁ → g₁.firstBlock = g.firstBlock →
      i ∈ l' → g₁.unlinkInstruction b i = some g' → UnlinksInstr T B i g g' := by
    intro g₁ l' hl' hsp hf hi' hun
    obtain ⟨hedits, hends⟩ := hl'.inserted (T := T) hsp hf hn.parent he hB
    refine .edited hedits (hl'.taken hi' ?_ hends hT hB hun).2.2
    rw [Instruction.isPhi, hsp.opcode]
    exact hphi
  simp only [Graph.replaceInControlFlow, Option.bind_eq_bind, ASSERT_bind] at hs
  obtain ⟨-, hs⟩ := hs
  obtain ⟨l₁, l₂, rfl⟩ := List.append_of_mem hi
  have hprev := h.prev_eq
  have hnext := h.next_eq
  cases l₁ using List.reverseRecOn with
  | append_singleton l₁ q =>
      have hq : (g.instr i).prev = some q := by
        rw [hprev, List.getLast?_append, List.getLast?_singleton]
        rfl
      simp only [hq, Option.bind_eq_some_iff] at hs
      obtain ⟨g₁, hins, hun⟩ := hs
      rw [List.append_assoc] at h
      obtain ⟨hl', hsp⟩ := h.insertAfter hn.lt hins
      exact taken hl' hsp (insertAfter_relinks hins).2.firstBlock (by simp) hun
  | nil =>
      have hnone : (g.instr i).prev = none := hprev
      cases l₂ with
      | cons m l₂ =>
          have hm : (g.instr i).next = some m := hnext
          simp only [hnone, hm, Option.bind_eq_some_iff] at hs
          obtain ⟨g₁, hins, hun⟩ := hs
          have h₁ : g.Strung b ([i] ++ m :: l₂) := h
          obtain ⟨hl', hsp⟩ := h₁.insertBefore hn.lt hins
          exact taken hl' hsp (insertBefore_relinks hins).2.firstBlock (by simp) hun
      | nil =>
          have hm : (g.instr i).next = none := hnext
          simp only [hnone, hm, Option.bind_eq_some_iff] at hs
          obtain ⟨g₁, hins, hun⟩ := hs
          obtain ⟨hl', hsp⟩ := (halone rfl).pushForward hn hnphi (.inl rfl) hins
          exact taken hl'.strung hsp (pushInstruction_relinks hins).2.firstBlock (by simp) hun

end UnlinksInstr

/-! ## The instruction a rule is tried on -/

/-- Instruction `i` is in the list of block `b` and no phi. -/
structure At (g : Graph) (b i : Nat) : Prop where
  listed : ∃ phis rest, g.Listed b phis rest ∧ i ∈ phis ++ rest
  notPhi : (g.instr i).isPhi = false
  ends : ∀ c, g.EndsIn c

namespace At

theorem parent (h : g.At b i) : (g.instr i).parent = some b := by
  obtain ⟨phis, rest, hl, hi⟩ := h.listed
  exact hl.parent i hi

theorem lt (h : g.At b i) : i < g.instrCount := by
  obtain ⟨phis, rest, hl, hi⟩ := h.listed
  exact hl.lt i hi

theorem quiet (h : g.At b i) (hq : Quiet g g') : g'.At b i := by
  obtain ⟨phis, rest, hl, hi⟩ := h.listed
  refine ⟨⟨phis, rest, hq.listed hl, hi⟩, ?_, fun c => hq.endsIn (h.ends c)⟩
  rw [Instruction.isPhi, (hq.instr i h.lt).2.2.2]
  exact h.notPhi

theorem unlink (h : g.At b i) (hT : T i) (hB : B b) (hs : g.unlinkInstruction b i = some g') : UnlinksInstr T B i g g' := by
  obtain ⟨phis, rest, hl, hi⟩ := h.listed
  exact (hl.strung.taken hi h.notPhi h.ends hT hB hs).2.2

theorem replaceInstruction {n : Nat} (h : g.At b i) (hn : g.Free n) (hnphi : (g.instr n).isPhi = false) (hT : T i) (hB : B b)
    (hs : g.replaceInstruction b i n = some g') : UnlinksInstr T B i g g' := by
  obtain ⟨g₁, hin, hs⟩ := Option.bind_eq_some_iff.1 hs
  have hq := Quiet.replaceInputInUsers hin
  have h₁ := h.quiet hq
  obtain ⟨phis, rest, hl, hi⟩ := h₁.listed
  obtain ⟨hnext, hprev, hparent, hop⟩ := hq.instr n hn.lt
  refine .edited hq.edits (.replaceInControlFlow hl.strung hi h₁.notPhi h₁.ends ?_ ?_ ?_ hT hB hs)
  · exact ⟨hn.lt.trans_le hq.count, hparent.trans hn.parent, hprev.trans hn.prev, hnext.trans hn.next⟩
  · rw [Instruction.isPhi, hop]
    exact hnphi
  · intro hone
    have hone' : phis = [] ∧ rest = [i] := by
      cases phis with
      | nil => exact ⟨rfl, hone⟩
      | cons x phis =>
          obtain ⟨rfl, -⟩ := List.cons.inj hone
          have hx := hl.isPhi x (by simp)
          rw [h₁.notPhi] at hx
          cases hx
    obtain ⟨rfl, rfl⟩ := hone'
    exact hl

end At

end Graph

open Graph ConstantFolding Peephole

variable {g g' : Graph} {b c i r t : Nat} {T B : Nat → Prop}

theorem Graph.At.replaceWithoutNewInstr (h : g.At b i) (hT : T i) (hB : B b) (hs : replaceWithoutNewInstr g i r = some g') :
    UnlinksInstr T B i g g' := by
  simp only [Peephole.replaceWithoutNewInstr, Option.bind_eq_bind, Option.bind_eq_some_iff] at hs
  obtain ⟨g₁, hin, c, hc, g₂, hun, _, -, g₃, hrem, _, -, hs⟩ := hs
  have hq := Quiet.replaceInputInUsers hin
  have h₁ := h.quiet hq
  obtain rfl : b = c := Option.some.inj (h₁.parent.symm.trans hc)
  have hrm : UnlinksInstr T B i g g₂ := .edited hq.edits (h₁.unlink hT hB hun)
  exact hrm.quiet h.lt (.trans (.removeUser hrem) (.removeUser hs))

/-- The constant goes into the first block. -/
theorem Graph.At.replaceWithConst (h : g.At b i) (ht : g.Free t) (htphi : (g.instr t).isPhi = false) (hT : T i) (hB : B b)
    (hfirst : ∀ c, g.firstBlock = some c → B c) (hs : replaceWithConst g i t = some g') : UnlinksInstr T B i g g' := by
  simp only [ConstantFolding.replaceWithConst, Option.bind_eq_bind, Option.bind_eq_some_iff] at hs
  obtain ⟨g₁, hin, c, hc, g₂, hun, f, hf, hs⟩ := hs
  have hq := Quiet.replaceInputInUsers hin
  have h₁ := h.quiet hq
  obtain rfl : b = c := Option.some.inj (h₁.parent.symm.trans hc)
  have hrm : UnlinksInstr T B i g g₂ := .edited hq.edits (h₁.unlink hT hB hun)
  have hti : i ≠ t := by
    rintro rfl
    have := h.parent
    rw [ht.parent] at this
    cases this
  have htphi₂ : (g₂.instr t).isPhi = false := by
    rw [Instruction.isPhi, hrm.edits.opcode t ht.lt]
    exact htphi
  obtain ⟨hends, hsp⟩ := pushBack_splices (hrm.ends f) (ht.lt.trans_le hrm.edits.count) htphi₂ hs
  obtain ⟨hparent, hrel⟩ := pushInstruction_relinks hs
  have hBf : B f := hfirst f (hrm.edits.firstBlock.symm.trans hf)
  have hout : (g₂.instr i).parent ≠ some f := by
    rw [hrm.gone]
    simp
  refine ⟨hrm.edits.trans (hsp.edits hrel.firstBlock (.inr rfl) hBf (.inr hparent)), ?_, ?_, fun d => ?_⟩
  · rw [hsp.instr i hti hout]
    exact hrm.gone
  · rw [hsp.instr i hti hout]
    exact hrm.next
  · by_cases hd : d = f
    · rw [hd]
      exact hends
    · exact hsp.endsIn (.inr hparent) hd (hrm.ends d)

theorem Graph.Free.quiet {n : Nat} (h : g.Free n) (hq : Quiet g g') : g'.Free n := by
  obtain ⟨hnext, hprev, hparent, -⟩ := hq.instr n h.lt
  exact ⟨h.lt.trans_le hq.count, hparent.trans h.parent, hprev.trans h.prev, hnext.trans h.next⟩

/-- A rule that makes a new instruction and puts it in the place of the old one. -/
theorem Graph.At.replaceInstruction_new {x : Instruction} {g₁ : Graph} (h : g.At b i) (hx : x.parent = none ∧ x.prev = none ∧
    x.next = none ∧ x.isPhi = false) (hq : Quiet (g.createInst x).1 g₁) (hT : T i) (hB : B b) (hc : (g₁.instr i).parent = some c)
    (hs : g₁.replaceInstruction c i (g.createInst x).2 = some g') : UnlinksInstr T B i g g' := by
  obtain ⟨hp, hprev, hnext, hphi⟩ := hx
  have hq' : Quiet g g₁ := .trans (.createInst g hp) hq
  obtain rfl : b = c := Option.some.inj ((h.quiet hq').parent.symm.trans hc)
  have hfree := createInst_free g hp hprev hnext
  refine .edited hq'.edits ((h.quiet hq').replaceInstruction (hfree.quiet hq) ?_ hT hB hs)
  rw [Instruction.isPhi, (hq.instr _ hfree.lt).2.2.2, createInst_opcode]
  exact hphi

/-- A rule that makes a constant and puts it into the first block. -/
theorem Graph.At.replaceWithConst_new {x : Instruction} {g₁ : Graph} (h : g.At b i) (hx : x.parent = none ∧ x.prev = none ∧
    x.next = none ∧ x.isPhi = false) (hq : Quiet (g.createInst x).1 g₁) (hT : T i) (hB : B b)
    (hfirst : ∀ c, g.firstBlock = some c → B c)
    (hs : ConstantFolding.replaceWithConst g₁ i (g.createInst x).2 = some g') : UnlinksInstr T B i g g' := by
  obtain ⟨hp, hprev, hnext, hphi⟩ := hx
  have hq' : Quiet g g₁ := .trans (.createInst g hp) hq
  have hfree := createInst_free g hp hprev hnext
  refine .edited hq'.edits ((h.quiet hq').replaceWithConst (hfree.quiet hq) ?_ hT hB ?_ hs)
  · rw [Instruction.isPhi, (hq.instr _ hfree.lt).2.2.2, createInst_opcode]
    exact hphi
  · rw [hq'.firstBlock]
    exact hfirst

/-! ## The rules -/

namespace Peephole

/-- What the rules for an instruction make of it. -/
def tried (g : Graph) (instr : Nat) : RuleResult :=
  match (g.instr instr).opcode with
  | .AND => processAND g instr
  | .SRA => processSRA g instr
  | .SUB => processSUB g instr
  | _ => some none

theorem processInstr_eq (g : Graph) (instr : Nat) : processInstr g instr = (tried g instr).map (·.getD g) := by
  unfold processInstr tried
  rw [Option.map_eq_bind]
  cases (g.instr instr).opcode <;> rfl

/-- When the rule applies, it takes the instruction out. -/
def Takes (T B : Nat → Prop) (g : Graph) (i : Nat) (r : RuleResult) : Prop := ∀ g', r = some (some g') → UnlinksInstr T B i g g'

theorem Takes.firstApplied {rs : List RuleResult} (h : ∀ r ∈ rs, Takes T B g i r) : Takes T B g i (firstApplied rs) := by
  induction rs with
  | nil =>
      intro g' hs
      cases hs
  | cons r rs ih =>
      intro g' hs
      obtain ⟨a, ha, hs⟩ := Option.bind_eq_some_iff.1 hs
      cases a with
      | some g₁ =>
          cases hs
          exact h r (by simp) g' ha
      | none => exact ih (fun r hr => h r (by simp [hr])) g' hs

section
variable (h : g.At b i) (hT : T i) (hB : B b) (hfirst : ∀ c, g.firstBlock = some c → B c)
  (hnot : ∀ j < g.instrCount, (g.instr j).opcode = .NOT → T j)
include h hT hB

include hfirst in
theorem takes_foldBinary (fold : OperandType → Word → Word → Option Word) : Takes T B g i (foldBinary fold g i) := by
  intro g' hs
  simp only [foldBinary, Option.bind_eq_bind, Option.bind_eq_some_iff, Option.pure_def] at hs
  obtain ⟨input1, -, input2, -, hs⟩ := hs
  split_ifs at hs
  · simp only [Option.bind_eq_some_iff] at hs
    obtain ⟨value, -, g₁, h₁, g₂, h₂, g₃, hs, heq⟩ := hs
    cases heq
    exact h.replaceWithConst_new ⟨rfl, rfl, rfl, rfl⟩ (.trans (.removeUser h₁) (.removeUser h₂)) hT hB hfirst hs
  · cases hs

theorem takes_tryANDRepeatedArgs : Takes T B g i (tryANDRepeatedArgs g i) := by
  intro g' hs
  simp only [tryANDRepeatedArgs, Option.bind_eq_bind, Option.bind_eq_some_iff, Option.pure_def] at hs
  obtain ⟨input1, -, input2, -, hs⟩ := hs
  split_ifs at hs
  · simp only [Option.bind_eq_some_iff] at hs
    obtain ⟨g₁, hs, heq⟩ := hs
    cases heq
    exact h.replaceWithoutNewInstr hT hB hs
  · cases hs

theorem takes_tryConstantAND (checked second : Option Nat) : Takes T B g i (tryConstantAND g i checked second) := by
  intro g' hs
  simp only [tryConstantAND, Option.bind_eq_bind, Option.bind_eq_some_iff, Option.pure_def] at hs
  obtain ⟨checked, -, hs⟩ := hs
  split_ifs at hs
  · obtain ⟨-, hs⟩ := ASSERT_bind.1 hs
    obtain ⟨g₁, hs, heq⟩ := Option.bind_eq_some_iff.1 hs
    cases heq
    exact h.replaceWithoutNewInstr hT hB hs
  · obtain ⟨-, hs⟩ := ASSERT_bind.1 hs
    obtain ⟨maxValue, -, hs⟩ := Option.bind_eq_some_iff.1 hs
    split_ifs at hs
    · obtain ⟨second, -, hs⟩ := Option.bind_eq_some_iff.1 hs
      obtain ⟨g₁, hs, heq⟩ := Option.bind_eq_some_iff.1 hs
      cases heq
      exact h.replaceWithoutNewInstr hT hB hs
    · cases hs
  · cases hs

theorem takes_trySRAZero : Takes T B g i (trySRAZero g i) := by
  intro g' hs
  simp only [trySRAZero, Option.bind_eq_bind, Option.bind_eq_some_iff, Option.pure_def] at hs
  obtain ⟨input1, -, input2, -, hs⟩ := hs
  split_ifs at hs
  · obtain ⟨g₁, hs, heq⟩ := Option.bind_eq_some_iff.1 hs
    cases heq
    exact h.replaceWithoutNewInstr hT hB hs
  · obtain ⟨g₁, hs, heq⟩ := Option.bind_eq_some_iff.1 hs
    cases heq
    exact h.replaceWithoutNewInstr hT hB hs
  · cases hs

theorem takes_trySUBAfterNEG (checked second : Option Nat) : Takes T B g i (trySUBAfterNEG g i checked second) := by
  intro g' hs
  simp only [trySUBAfterNEG, Option.bind_eq_bind, Option.bind_eq_some_iff, Option.pure_def] at hs
  obtain ⟨checked, -, hs⟩ := hs
  split_ifs at hs
  · simp only [Option.bind_eq_some_iff] at hs
    obtain ⟨second, -, input, -, c, hc, g₂, hrep, g₃, hrem, g₄, hs, heq⟩ := hs
    cases heq
    have hrm : UnlinksInstr T B i g g₂ := h.replaceInstruction_new ⟨rfl, rfl, rfl, rfl⟩ (.addUser _ input _) hT hB hc hrep
    exact hrm.quiet h.lt (.trans (.removeUser hrem) (.replaceUser hs))
  · cases hs

include hfirst in
theorem takes_trySUBOfADD (input1 input2 : Nat) : Takes T B g i (trySUBOfADD g i input1 input2) := by
  intro g' hs
  simp only [trySUBOfADD, Option.bind_eq_bind, Option.pure_def] at hs
  split_ifs at hs
  · obtain ⟨other, -, hs⟩ := Option.bind_eq_some_iff.1 hs
    split at hs
    · obtain ⟨g₁, hs, heq⟩ := Option.bind_eq_some_iff.1 hs
      cases heq
      exact h.replaceWithoutNewInstr hT hB hs
    · cases hs
  · obtain ⟨x, -, hs⟩ := Option.bind_eq_some_iff.1 hs
    split_ifs at hs
    · simp only [Option.bind_eq_some_iff] at hs
      obtain ⟨g₁, hrem, g₂, hs, heq⟩ := hs
      cases heq
      exact h.replaceWithConst_new ⟨rfl, rfl, rfl, rfl⟩ (.removeUser hrem) hT hB hfirst hs
    · cases hs
  · cases hs

include hfirst in
theorem takes_trySUBByADD (input1 input2 : Nat) : Takes T B g i (trySUBByADD g i input1 input2) := by
  intro g' hs
  simp only [trySUBByADD, Option.bind_eq_bind, Option.pure_def] at hs
  split_ifs at hs
  · obtain ⟨other, -, hs⟩ := Option.bind_eq_some_iff.1 hs
    split at hs
    · rename_i user
      simp only [Option.bind_eq_some_iff] at hs
      obtain ⟨g₁, hrem₁, g₂, hrem₂, c, hc, g₃, hs, heq⟩ := hs
      cases heq
      exact h.replaceInstruction_new ⟨rfl, rfl, rfl, rfl⟩
        (.trans (.addUser _ user _) (.trans (.removeUser hrem₁) (.removeUser hrem₂))) hT hB hc hs
    · cases hs
  · obtain ⟨x, -, hs⟩ := Option.bind_eq_some_iff.1 hs
    split_ifs at hs
    · simp only [Option.bind_eq_some_iff] at hs
      obtain ⟨g₁, hrem, g₂, hs, heq⟩ := hs
      cases heq
      exact h.replaceWithConst_new ⟨rfl, rfl, rfl, rfl⟩ (.removeUser hrem) hT hB hfirst hs
    · cases hs
  · cases hs

include hfirst in
theorem takes_trySUBAfterADD : Takes T B g i (trySUBAfterADD g i) := by
  intro g' hs
  simp only [trySUBAfterADD, Option.bind_eq_bind, Option.bind_eq_some_iff] at hs
  obtain ⟨input1, -, input2, -, hs⟩ := hs
  refine Takes.firstApplied ?_ g' hs
  simp only [List.mem_cons, List.not_mem_nil, or_false, forall_eq_or_imp, forall_eq]
  exact ⟨takes_trySUBOfADD h hT hB hfirst input1 input2, takes_trySUBByADD h hT hB hfirst input1 input2⟩

theorem takes_trySUBZero : Takes T B g i (trySUBZero g i) := by
  intro g' hs
  simp only [trySUBZero, Option.bind_eq_bind, Option.bind_eq_some_iff, Option.pure_def] at hs
  obtain ⟨input1, -, input2, -, hs⟩ := hs
  split_ifs at hs
  · simp only [Option.bind_eq_some_iff] at hs
    obtain ⟨g₁, hrem, g₂, hrep, c, hc, g₃, hs, heq⟩ := hs
    cases heq
    exact h.replaceInstruction_new ⟨rfl, rfl, rfl, rfl⟩ (.trans (.removeUser hrem) (.replaceUser hrep)) hT hB hc hs
  · obtain ⟨g₁, hs, heq⟩ := Option.bind_eq_some_iff.1 hs
    cases heq
    exact h.replaceWithoutNewInstr hT hB hs
  · cases hs

include hfirst in
theorem takes_trySUBRepeatedArgs : Takes T B g i (trySUBRepeatedArgs g i) := by
  intro g' hs
  simp only [trySUBRepeatedArgs, Option.bind_eq_bind, Option.bind_eq_some_iff, Option.pure_def] at hs
  obtain ⟨input1, -, input2, -, hs⟩ := hs
  split_ifs at hs
  · obtain ⟨g₁, hs, heq⟩ := Option.bind_eq_some_iff.1 hs
    cases heq
    exact h.replaceWithConst_new ⟨rfl, rfl, rfl, rfl⟩ (.refl _) hT hB hfirst hs
  · cases hs

include hnot in
/-- The negations are unlinked before the instruction is replaced. -/
theorem takes_tryANDAfterNOT : Takes T B g i (tryANDAfterNOT g i) := by
  intro g' hs
  obtain ⟨input1, -, hs⟩ := Option.bind_eq_some_iff.1 hs
  obtain ⟨input2, -, hs⟩ := Option.bind_eq_some_iff.1 hs
  split at hs
  · rename_i hcond
    obtain ⟨arg1, -, hs⟩ := Option.bind_eq_some_iff.1 hs
    obtain ⟨arg2, -, hs⟩ := Option.bind_eq_some_iff.1 hs
    obtain ⟨g₁, hrep₁, hs⟩ := Option.bind_eq_some_iff.1 hs
    obtain ⟨g₂, hrep₂, hs⟩ := Option.bind_eq_some_iff.1 hs
    obtain ⟨c, hc, hs⟩ := Option.bind_eq_some_iff.1 hs
    obtain ⟨g₃, hun₁, hs⟩ := Option.bind_eq_some_iff.1 hs
    obtain ⟨g₄, hun₂, hs⟩ := Option.bind_eq_some_iff.1 hs
    obtain ⟨g₅, hins, hs⟩ := Option.bind_eq_some_iff.1 hs
    obtain ⟨g₆, hrem₁, hs⟩ := Option.bind_eq_some_iff.1 hs
    obtain ⟨g₇, hrem₂, hs⟩ := Option.bind_eq_some_iff.1 hs
    obtain ⟨g₈, hs, heq⟩ := Option.bind_eq_some_iff.1 hs
    cases heq
    have hcreate : Quiet g (g.createOR (g.instr i).type arg1 arg2).1 := .createInst g rfl
    have hq : Quiet g g₂ := hcreate.trans (.trans (.replaceUser hrep₁) (.replaceUser hrep₂))
    obtain rfl : b = c := Option.some.inj ((h.quiet hq).parent.symm.trans hc)
    obtain ⟨phis, rest, hl, -⟩ := h.listed
    have hl₂ := hq.listed hl
    have hNOT : ∀ j, (g.instr j).opcode = .NOT → j ∈ phis ++ rest → (g₂.instr j).opcode = .NOT := by
      intro j hj hmem
      rw [(hq.instr j (hl.lt j hmem)).2.2.2]
      exact hj
    have hphi : ∀ {k : Graph} {j}, (k.instr j).opcode = .NOT → (k.instr j).isPhi = false := by
      intro k j hj
      rw [Instruction.isPhi, hj]
      rfl
    -- the negations
    have hmem₁ : input1 ∈ phis ++ rest := hl₂.complete _ (unlinkInstruction_asserts hun₁)
    have hop₁ := hNOT input1 hcond.1 hmem₁
    obtain ⟨⟨l₃, hsub₃, hl₃⟩, hop₃, hr₃⟩ := hl₂.strung.taken hmem₁ (hphi hop₁) (h.quiet hq).ends
      (hnot input1 (hl.lt _ hmem₁) hcond.1) hB hun₁
    have hmem₂ : input2 ∈ l₃ := hl₃.complete _ (unlinkInstruction_asserts hun₂)
    have hop₂ := (hop₃ input2).trans (hNOT input2 hcond.2.1 (hsub₃ hmem₂))
    obtain ⟨⟨l₄, hsub₄, hl₄⟩, hop₄, hr₄⟩ := hl₃.taken hmem₂ (hphi hop₂) hr₃.ends
      (hnot input2 (hl.lt _ (hsub₃ hmem₂)) hcond.2.1) hB hun₂
    -- the new instructions
    have hfree : (g.createOR (g.instr i).type arg1 arg2).1.Free g.instrCount := createInst_free g rfl rfl rfl
    have hrep : Quiet (g.createOR (g.instr i).type arg1 arg2).1 g₂ := .trans (.replaceUser hrep₁) (.replaceUser hrep₂)
    have hlt₄ : g.instrCount < g₄.instrCount :=
      hfree.lt.trans_le ((hrep.count.trans hr₃.edits.count).trans hr₄.edits.count)
    have hmem : i ∈ l₄ := hl₄.complete _ (insertBefore_asserts hins).2
    obtain ⟨l₁, l₂, rfl⟩ := List.append_of_mem hmem
    obtain ⟨hl₅, hsp₅⟩ := hl₄.insertBefore hlt₄ hins
    obtain ⟨hedits₅, hends₅⟩ :=
      hl₅.inserted (T := T) hsp₅ (insertBefore_relinks hins).2.firstBlock (insertBefore_asserts hins).1 hr₄.ends hB
    -- the replacement
    obtain ⟨g₉, hin, hs⟩ := Option.bind_eq_some_iff.1 hs
    have hcreate' : Quiet g₅ (g₅.createNOT (g.instr i).type g.instrCount).1 := .createInst g₅ rfl
    have huses : Quiet (g₅.createNOT (g.instr i).type g.instrCount).1 g₉ :=
      .trans (.addUser ..) (.trans (.removeUser hrem₁) (.trans (.removeUser hrem₂) (.replaceInputInUsers hin)))
    have hq' := hcreate'.trans huses
    have hfree' : (g₅.createNOT (g.instr i).type g.instrCount).1.Free g₅.instrCount := createInst_free g₅ rfl rfl rfl
    have hall : Edits T B g g₉ := hq.edits.trans (hr₃.edits.trans (hr₄.edits.trans (hedits₅.trans hq'.edits)))
    refine .edited hall (.replaceInControlFlow (hq'.strung hl₅) (by simp) ?_ (fun c => hq'.endsIn (hends₅ c)) (hfree'.quiet huses)
      ?_ ?_ hT hB hs)
    · rw [Instruction.isPhi, hall.opcode i h.lt]
      exact h.notPhi
    · apply hphi
      rw [(huses.instr _ hfree'.lt).2.2.2]
      exact createInst_opcode ..
    · intro hone
      have hlen := congrArg List.length hone
      simp only [List.length_append, List.length_cons, List.length_nil] at hlen
      omega
  · cases hs

include hfirst hnot in
theorem takes_tried : Takes T B g i (tried g i) := by
  unfold tried
  split
  · refine Takes.firstApplied ?_
    simp only [List.mem_cons, List.not_mem_nil, or_false, forall_eq_or_imp, forall_eq]
    exact ⟨takes_foldBinary h hT hB hfirst _, takes_tryANDRepeatedArgs h hT hB, takes_tryANDAfterNOT h hT hB hnot,
      takes_tryConstantAND h hT hB _ _, takes_tryConstantAND h hT hB _ _⟩
  · refine Takes.firstApplied ?_
    simp only [List.mem_cons, List.not_mem_nil, or_false, forall_eq_or_imp, forall_eq]
    exact ⟨takes_foldBinary h hT hB hfirst _, takes_trySRAZero h hT hB⟩
  · refine Takes.firstApplied ?_
    simp only [List.mem_cons, List.not_mem_nil, or_false, forall_eq_or_imp, forall_eq]
    exact ⟨takes_foldBinary h hT hB hfirst _, takes_trySUBRepeatedArgs h hT hB hfirst, takes_trySUBZero h hT hB,
      takes_trySUBAfterADD h hT hB hfirst, takes_trySUBAfterNEG h hT hB _ _⟩
  · intro g' hs
    cases hs

end

end Peephole

end CompilerLab.Jit
