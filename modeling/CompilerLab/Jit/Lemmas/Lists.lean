import CompilerLab.Jit.Lemmas.DefUse
import CompilerLab.Jit.Lemmas.InstructionList

/-!
# The instruction lists of a graph

Every block lists its instructions, and an instruction in no block has no links. The operations keep this when they stay
within one segment.
-/

namespace CompilerLab.Jit.Graph

open CompilerLab.Lib

variable {g g' : Graph} {b t i : Nat} {phis rest l₁ l₂ : List Nat}

namespace Layout

/-- An instruction that is no phi stands behind the phis. -/
theorem split_inst (h : g.Layout b phis rest) (heq : phis ++ rest = l₁ ++ i :: l₂) (hi : (g.instr i).isPhi = false) :
    ∃ r, l₁ = phis ++ r ∧ rest = r ++ i :: l₂ := by
  rcases List.append_eq_append_iff.1 heq with ⟨r, rfl, hr⟩ | ⟨r, hphis, hr⟩
  · exact ⟨r, rfl, hr⟩
  · cases r with
    | nil => exact ⟨[], by simpa using hphis.symm, by simpa using hr.symm⟩
    | cons x r =>
        obtain ⟨rfl, -⟩ := List.cons.inj hr
        have := h.isPhi i (by simp [hphis])
        rw [hi] at this
        cases this

/-- A phi stands before the other instructions. -/
theorem split_phi (h : g.Layout b phis rest) (heq : phis ++ rest = l₁ ++ i :: l₂) (hi : (g.instr i).isPhi = true) :
    ∃ r, phis = l₁ ++ i :: r ∧ l₂ = r ++ rest := by
  rcases List.append_eq_append_iff.1 heq with ⟨r, rfl, hr⟩ | ⟨r, hphis, hr⟩
  · have := h.notPhi i (by simp [hr])
    rw [hi] at this
    cases this
  · cases r with
    | nil =>
        have := h.notPhi i (by rw [← List.nil_append rest, ← hr]; exact List.mem_cons_self)
        rw [hi] at this
        cases this
    | cons x r =>
        obtain ⟨rfl, rfl⟩ := List.cons.inj hr
        exact ⟨r, hphis, rfl⟩

end Layout

/-! ## Unlinking -/

namespace Listed

/-- Every instruction of a block can be unlinked. -/
theorem unlink_total (h : g.Listed b phis rest) (ht : t ∈ phis ++ rest) : ∃ g', g.unlinkInstruction b t = some g' := by
  obtain ⟨l₁, l₂, heq⟩ := List.append_of_mem ht
  have hnodup := h.nodup
  rw [heq] at hnodup
  have hout := not_mem_of_nodup hnodup
  have hpt : l₁.getLast? ≠ some t := fun hl => hout (List.mem_append_left _ (List.mem_of_getLast? hl))
  have hnt : l₂.head? ≠ some t := fun hl => hout (List.mem_append_right _ (List.mem_of_head? hl))
  obtain ⟨u, hu, hblock, -, hs⟩ :=
    unlinkInstruction_eq (h.parent t ht) (h.prev_eq heq) (h.next_eq heq) hpt hnt
  have hphi : ∀ j, (u.instr j).isPhi = (g.instr j).isPhi := fun j => by
    rw [Instruction.isPhi, hu, linkedOver_opcode]
    rfl
  suffices ∃ v, u.unlinkEnds b t l₁.getLast? l₂.head? = some v by
    obtain ⟨v, hv⟩ := this
    exact ⟨_, by rw [hs, hv]; rfl⟩
  cases hkind : (g.instr t).isPhi with
  | false =>
      simp only [unlinkEnds, hphi, hkind, Bool.false_eq_true, if_false]
      exact ⟨_, rfl⟩
  | true =>
      -- a neighbour that takes the place of an end of the phis is a phi
      obtain ⟨r, rfl, rfl⟩ := h.split_phi heq hkind
      simp only [unlinkEnds, hphi, hkind, if_true, hblock, h.firstPhi, h.lastPhi]
      by_cases hfirst : (l₁ ++ t :: r).head? = some t
      · by_cases hlast : (l₁ ++ t :: r).getLast? = some t
        · exact ⟨_, by rw [if_pos hfirst, if_pos hlast]⟩
        · cases r with
          | nil => simp at hlast
          | cons n r =>
              have hn := h.isPhi n (by simp)
              rw [if_pos hfirst, if_neg hlast]
              exact ⟨_, by simp [hn, ASSERT_of]; rfl⟩
      · rw [if_neg hfirst]
        by_cases hlast : (l₁ ++ t :: r).getLast? = some t
        · cases l₁ using List.reverseRecOn with
          | nil => simp at hfirst
          | append_singleton l₁ p =>
              have hp := h.isPhi p (by simp)
              rw [if_pos hlast]
              exact ⟨_, by simp [hp, ASSERT_of]; rfl⟩
        · exact ⟨_, by rw [if_neg hlast]⟩

end Listed

/-! ## The invariant -/

/-- Every block lists its instructions, and the instructions in no block have no links. -/
structure Lists (g : Graph) : Prop where
  listed : ∀ b, ∃ phis rest, g.Listed b phis rest
  unlinked : ∀ i, i < g.instrCount → (g.instr i).parent = none → (g.instr i).prev = none ∧ (g.instr i).next = none

namespace Lists

/-- The instructions of a block are those that have it as their parent. -/
theorem mem_instrs (h : g.Lists) : i ∈ g.instrs b ↔ (g.instr i).parent = some b := by
  obtain ⟨phis, rest, hl⟩ := h.listed b
  rw [hl.instrs_eq]
  exact ⟨hl.parent i, hl.complete i⟩

theorem nodup (h : g.Lists) (b : Nat) : (g.instrs b).Nodup := by
  obtain ⟨phis, rest, hl⟩ := h.listed b
  rw [hl.instrs_eq]
  exact hl.nodup

theorem free (h : g.Lists) (ht : t < g.instrCount) (hp : (g.instr t).parent = none) : g.Free t :=
  ⟨ht, hp, (h.unlinked t ht hp).1, (h.unlinked t ht hp).2⟩

/-- Nothing but the list of one block has changed. -/
theorem splices {p : Option Nat} (h : g.Lists) (hs : Splices g b t p g') (hb : g'.Listed b phis rest)
    (ht : (g.instr t).parent = none ∨ (g.instr t).parent = some b) (hp : p = none ∨ p = some b) : g'.Lists where
  listed c := by
    by_cases hc : c = b
    · subst hc
      exact ⟨phis, rest, hb⟩
    · obtain ⟨phis', rest', hl⟩ := h.listed c
      have hne : ∀ i ∈ phis' ++ rest', i ≠ t ∧ (g.instr i).parent ≠ some b := by
        intro i hi
        have hparent := hl.parent i hi
        refine ⟨?_, fun he => hc (Option.some.inj (hparent.symm.trans he))⟩
        rintro rfl
        rcases ht with ht | ht
        · rw [hparent] at ht
          cases ht
        · exact hc (Option.some.inj (hparent.symm.trans ht))
      refine ⟨phis', rest', ⟨hl.toLayout.congr_of_eq (hs.block c hc)
        (fun i hi => hs.instr i (hne i hi).1 (hne i hi).2) hs.instrCount.ge, ?_, fun i hi => ?_⟩⟩
      · rw [hs.block c hc, hl.count]
      · rw [hs.parent] at hi
        split_ifs at hi with hit
        · rcases hp with rfl | rfl
          · cases hi
          · exact absurd (Option.some.inj hi).symm hc
        · exact hl.complete i hi
  unlinked i hi hparent := by
    rw [hs.parent] at hparent
    split_ifs at hparent with hit
    · rw [hit]
      exact hs.freed hparent
    · rw [hs.instr i hit (by rw [hparent]; exact fun he => nomatch he)]
      exact h.unlinked i (hs.instrCount ▸ hi) hparent

/-- The lists depend on the blocks and on the links and kinds of the instructions. -/
theorem congr (h : g.Lists) (block : g'.block = g.block) (count : g'.instrCount = g.instrCount)
    (instr : ∀ i, (g'.instr i).next = (g.instr i).next ∧ (g'.instr i).prev = (g.instr i).prev ∧
      (g'.instr i).parent = (g.instr i).parent ∧ (g'.instr i).opcode = (g.instr i).opcode) : g'.Lists where
  listed b := by
    obtain ⟨phis, rest, hl⟩ := h.listed b
    refine ⟨phis, rest, ⟨hl.toLayout.congr ?_ (fun i _ => instr i) count.ge, ?_, fun i hi => ?_⟩⟩
    · rw [block]
      exact ⟨rfl, rfl, rfl, rfl⟩
    · rw [block, hl.count]
    · exact hl.complete i ((instr i).2.2.1 ▸ hi)
  unlinked i hi hparent := by
    obtain ⟨hnext, hprev, hpar, -⟩ := instr i
    rw [hnext, hprev]
    exact h.unlinked i (count ▸ hi) (hpar ▸ hparent)

theorem pushPhi (h : g.Lists) (ht : g.Free t) (hphi : (g.instr t).isPhi = true) {back : Bool}
    (hs : pushInstruction back g b t = some g') : g'.Lists := by
  obtain ⟨phis, rest, hl⟩ := h.listed b
  obtain ⟨hl', hsp⟩ := hl.pushPhi ht hphi hs
  exact h.splices hsp hl' (.inl ht.parent) (.inr rfl)

theorem pushBack (h : g.Lists) (ht : t < g.instrCount) (hs : g.pushBackInstruction b t = some g') : g'.Lists := by
  obtain ⟨hparent, -⟩ := pushInstruction_asserts hs
  have hfree := h.free ht hparent
  cases hphi : (g.instr t).isPhi with
  | true => exact h.pushPhi hfree hphi hs
  | false =>
      obtain ⟨phis, rest, hl⟩ := h.listed b
      obtain ⟨hl', hsp⟩ := hl.pushBack hfree hphi hs
      exact h.splices hsp hl' (.inl hparent) (.inr rfl)

theorem pushForward (h : g.Lists) (ht : t < g.instrCount)
    (hk : (g.instr t).isPhi = true ∨ (g.block b).firstPhi = none ∨ (g.block b).firstInst = none)
    (hs : g.pushForwardInstruction b t = some g') : g'.Lists := by
  obtain ⟨hparent, -⟩ := pushInstruction_asserts hs
  have hfree := h.free ht hparent
  cases hphi : (g.instr t).isPhi with
  | true => exact h.pushPhi hfree hphi hs
  | false =>
      obtain ⟨phis, rest, hl⟩ := h.listed b
      have hends : phis = [] ∨ rest = [] := by
        rw [hphi, hl.firstPhi, hl.firstInst, List.head?_eq_none_iff, List.head?_eq_none_iff] at hk
        exact hk.resolve_left Bool.false_ne_true
      obtain ⟨hl', hsp⟩ := hl.pushForward hfree hphi hends hs
      exact h.splices hsp hl' (.inl hparent) (.inr rfl)

theorem insertBefore {x : Nat} (h : g.Lists) (ht : t < g.instrCount) (hx : (g.instr x).isPhi = false)
    (hk : (g.block b).firstInst = some x → (g.block b).firstPhi = none) (hs : g.insertBefore b x t = some g') :
    g'.Lists := by
  obtain ⟨hparent, hxb⟩ := insertBefore_asserts hs
  obtain ⟨phis, rest, hl⟩ := h.listed b
  obtain ⟨l₁, l₂, heq⟩ := List.append_of_mem (hl.complete x hxb)
  obtain ⟨r, -, rfl⟩ := hl.split_inst heq hx
  have hends : r = [] → phis = [] := by
    rintro rfl
    have := hk hl.firstInst
    rwa [hl.firstPhi, List.head?_eq_none_iff] at this
  obtain ⟨hl', hsp⟩ := hl.insertBefore (h.free ht hparent) hends hs
  exact h.splices hsp hl' (.inl hparent) (.inr rfl)

theorem insertAfter {x : Nat} (h : g.Lists) (ht : t < g.instrCount) (hx : (g.instr x).isPhi = false)
    (hs : g.insertAfter b x t = some g') : g'.Lists := by
  obtain ⟨hparent, hxb⟩ := insertAfter_asserts hs
  obtain ⟨phis, rest, hl⟩ := h.listed b
  obtain ⟨l₁, l₂, heq⟩ := List.append_of_mem (hl.complete x hxb)
  obtain ⟨r, -, rfl⟩ := hl.split_inst heq hx
  obtain ⟨hl', hsp⟩ := hl.insertAfter (h.free ht hparent) hs
  exact h.splices hsp hl' (.inl hparent) (.inr rfl)

theorem unlink (h : g.Lists) (hs : g.unlinkInstruction b t = some g') : g'.Lists := by
  have hparent := unlinkInstruction_asserts hs
  obtain ⟨phis, rest, hl⟩ := h.listed b
  obtain ⟨l₁, l₂, heq⟩ := List.append_of_mem (hl.complete t hparent)
  cases hphi : (g.instr t).isPhi with
  | true =>
      obtain ⟨r, rfl, -⟩ := hl.split_phi heq hphi
      obtain ⟨hl', hsp⟩ := hl.unlinkPhi hs
      exact h.splices hsp hl' (.inr hparent) (.inl rfl)
  | false =>
      obtain ⟨r, -, rfl⟩ := hl.split_inst heq hphi
      obtain ⟨hl', hsp⟩ := hl.unlinkInst hs
      exact h.splices hsp hl' (.inr hparent) (.inl rfl)

/-- Unlinking takes one instruction out of the list of its block. -/
theorem unlink_instrs (h : g.Lists) (hs : g.unlinkInstruction b t = some g') (c : Nat) :
    g'.instrs c = (g.instrs c).erase t := by
  have hparent := unlinkInstruction_asserts hs
  obtain ⟨phis, rest, hl⟩ := h.listed b
  obtain ⟨l₁, l₂, heq⟩ := List.append_of_mem (hl.complete t hparent)
  have hnodup := hl.nodup
  rw [heq] at hnodup
  have hout := Listed.not_mem_of_nodup hnodup
  obtain ⟨phis', rest', hl', heq', hsp⟩ : ∃ phis' rest', g'.Listed b phis' rest' ∧ phis' ++ rest' = l₁ ++ l₂ ∧
      Splices g b t none g' := by
    cases hphi : (g.instr t).isPhi with
    | true =>
        obtain ⟨r, rfl, rfl⟩ := hl.split_phi heq hphi
        obtain ⟨hl', hsp⟩ := hl.unlinkPhi hs
        exact ⟨_, _, hl', List.append_assoc .., hsp⟩
    | false =>
        obtain ⟨r, rfl, rfl⟩ := hl.split_inst heq hphi
        obtain ⟨hl', hsp⟩ := hl.unlinkInst hs
        exact ⟨_, _, hl', (List.append_assoc ..).symm, hsp⟩
  by_cases hc : c = b
  · subst hc
    have h₁ : t ∉ l₁ := fun hm => hout (List.mem_append_left _ hm)
    rw [hl'.instrs_eq, hl.instrs_eq, heq', heq, List.erase_append_right _ h₁, List.erase_cons_head]
  · obtain ⟨p, r, hlc⟩ := h.listed c
    have hmem : ∀ i ∈ p ++ r, i ≠ t ∧ (g.instr i).parent ≠ some b := by
      intro i hi
      have hi' := hlc.parent i hi
      refine ⟨?_, fun he => hc (Option.some.inj (hi'.symm.trans he))⟩
      rintro rfl
      exact hc (Option.some.inj (hi'.symm.trans hparent))
    have hlc' : g'.Layout c p r := hlc.toLayout.congr_of_eq (hsp.block c hc)
      (fun i hi => hsp.instr i (hmem i hi).1 (hmem i hi).2) hsp.instrCount.ge
    rw [hlc'.instrs_eq, hlc.instrs_eq, List.erase_of_not_mem fun hm => (hmem t hm).1 rfl]

/-- Redirecting users leaves the lists alone. -/
theorem replaceInputInUsers {p n : Nat} (h : g.Lists) (hs : g.replaceInputInUsers p n = some g') :
    g'.Lists ∧ ∀ j, (g'.instr j).next = (g.instr j).next ∧ (g'.instr j).prev = (g.instr j).prev ∧
      (g'.instr j).parent = (g.instr j).parent ∧ (g'.instr j).opcode = (g.instr j).opcode := by
  have hr := replaceInputInUsers_redirects hs
  have links : ∀ j, (g'.instr j).next = (g.instr j).next ∧ (g'.instr j).prev = (g.instr j).prev ∧
      (g'.instr j).parent = (g.instr j).parent ∧ (g'.instr j).opcode = (g.instr j).opcode := by
    intro j
    rw [hr.instr j, addUsers, modifyInstr_instr]
    split_ifs with hj
    · rw [hj]
      exact ⟨rfl, rfl, rfl, rfl⟩
    · exact ⟨rfl, rfl, rfl, rfl⟩
  refine ⟨h.congr ?_ ?_ links, links⟩
  · rw [hr.graph]
    rfl
  · rw [hr.graph]
    rfl

theorem replaceInControlFlow {p n : Nat} (h : g.Lists) (hn : n < g.instrCount)
    (hprev : ∀ q, (g.instr p).prev = some q → (g.instr q).isPhi = false)
    (hfirst : (g.instr p).prev = none → (g.instr p).next ≠ none → (g.instr p).isPhi = false)
    (hs : g.replaceInControlFlow b p n = some g') : g'.Lists := by
  simp only [Graph.replaceInControlFlow, Option.bind_eq_bind, ASSERT_bind] at hs
  obtain ⟨hparent, hs⟩ := hs
  obtain ⟨phis, rest, hl⟩ := h.listed b
  obtain ⟨l₁, l₂, heq⟩ := List.append_of_mem (hl.complete p hparent)
  have hp := hl.prev_eq heq
  have hnext := hl.next_eq heq
  cases l₁ using List.reverseRecOn with
  | append_singleton l₁ q =>
      -- the new instruction goes behind `q`
      have hq : (g.instr p).prev = some q := by rw [hp, List.getLast?_append, List.getLast?_singleton]; rfl
      simp only [hq, Option.bind_eq_some_iff] at hs
      obtain ⟨g₁, hins, hun⟩ := hs
      exact (h.insertAfter hn (hprev q hq) hins).unlink hun
  | nil =>
      have hnone : (g.instr p).prev = none := hp
      cases l₂ with
      | cons m l₂ =>
          -- it goes before `m`, which is not the first one
          have hm : (g.instr p).next = some m := hnext
          have hphi : (g.instr p).isPhi = false := hfirst hnone (by rw [hm]; exact fun he => nomatch he)
          simp only [hnone, hm, Option.bind_eq_some_iff] at hs
          obtain ⟨g₁, hins, hun⟩ := hs
          obtain ⟨r, hr, hrest⟩ := hl.split_inst heq hphi
          obtain ⟨rfl, rfl⟩ := List.append_eq_nil_iff.1 hr.symm
          have hmphi : (g.instr m).isPhi = false := hl.notPhi m (by simp [hrest])
          refine (h.insertBefore hn hmphi (fun _ => ?_) hins).unlink hun
          rw [hl.firstPhi]
          rfl
      | nil =>
          -- it is pushed into the block of which `p` is the only instruction
          have hm : (g.instr p).next = none := hnext
          simp only [hnone, hm, Option.bind_eq_some_iff] at hs
          obtain ⟨g₁, hins, hun⟩ := hs
          refine (h.pushForward hn (.inr ?_) hins).unlink hun
          rw [hl.firstPhi, hl.firstInst, List.head?_eq_none_iff, List.head?_eq_none_iff]
          cases phis with
          | nil => exact .inl rfl
          | cons x phis =>
              obtain ⟨-, hnil⟩ := List.cons.inj heq
              exact .inr (List.append_eq_nil_iff.1 hnil).2

/-- Empty blocks and instructions that have not been put anywhere. -/
theorem ofLists_unlinked {instrs : List Instruction} {blocks : List BasicBlock}
    (hb : ∀ x ∈ blocks, x.firstPhi = none ∧ x.lastPhi = none ∧ x.firstInst = none ∧ x.lastInst = none ∧ x.instrsCount = 0)
    (hi : ∀ x ∈ instrs, x.parent = none ∧ x.prev = none ∧ x.next = none) : (Graph.ofLists instrs blocks []).Lists := by
  have instr : ∀ i, ((Graph.ofLists instrs blocks []).instr i).parent = none ∧
      ((Graph.ofLists instrs blocks []).instr i).prev = none ∧
      ((Graph.ofLists instrs blocks []).instr i).next = none := by
    intro i
    simp only [Graph.ofLists]
    rcases Nat.lt_or_ge i instrs.length with h | h
    · rw [List.getD_eq_getElem _ _ h]
      exact hi _ (List.getElem_mem h)
    · rw [List.getD_eq_default _ _ h]
      exact ⟨rfl, rfl, rfl⟩
  have block : ∀ b, ((Graph.ofLists instrs blocks []).block b).firstPhi = none ∧
      ((Graph.ofLists instrs blocks []).block b).lastPhi = none ∧
      ((Graph.ofLists instrs blocks []).block b).firstInst = none ∧
      ((Graph.ofLists instrs blocks []).block b).lastInst = none ∧
      ((Graph.ofLists instrs blocks []).block b).instrsCount = 0 := by
    intro b
    simp only [Graph.ofLists]
    rcases Nat.lt_or_ge b blocks.length with h | h
    · rw [List.getD_eq_getElem _ _ h]
      exact hb _ (List.getElem_mem h)
    · rw [List.getD_eq_default _ _ h]
      exact ⟨rfl, rfl, rfl, rfl, rfl⟩
  refine ⟨fun b => ⟨[], [], ?_⟩, fun i _ _ => (instr i).2⟩
  obtain ⟨h₁, h₂, h₃, h₄, h₅⟩ := block b
  refine ⟨⟨h₁, h₂, h₃, h₄, .nil, nofun, nofun, nofun, nofun⟩, h₅, fun i hi => ?_⟩
  rw [(instr i).1] at hi
  cases hi

/-- Blocks with the given phis and other instructions. -/
theorem ofLists {instrs : List Instruction} {blocks : List BasicBlock} (content : Nat → List Nat × List Nat)
    (hb : ∀ b < blocks.length, (Graph.ofLists instrs blocks []).Layout b (content b).1 (content b).2 ∧
      ((Graph.ofLists instrs blocks []).block b).instrsCount = ((content b).1 ++ (content b).2).length)
    (hi : ∀ i < instrs.length,
      (∀ b ∈ ((Graph.ofLists instrs blocks []).instr i).parent, b < blocks.length ∧ i ∈ (content b).1 ++ (content b).2) ∧
      (((Graph.ofLists instrs blocks []).instr i).parent = none → ((Graph.ofLists instrs blocks []).instr i).prev = none ∧
        ((Graph.ofLists instrs blocks []).instr i).next = none)) : (Graph.ofLists instrs blocks []).Lists where
  listed b := by
    have inside : ∀ i c, ((Graph.ofLists instrs blocks []).instr i).parent = some c → i < instrs.length := by
      intro i c hc
      refine Nat.lt_of_not_le fun hle => ?_
      simp only [Graph.ofLists, List.getD_eq_default _ _ hle] at hc
      cases hc
    rcases Nat.lt_or_ge b blocks.length with h | h
    · exact ⟨_, _, ⟨(hb b h).1, (hb b h).2, fun i hp => ((hi i (inside i b hp)).1 b hp).2⟩⟩
    · have hempty : (Graph.ofLists instrs blocks []).block b = {} := Graph.ofLists_block_ge h
      refine ⟨[], [], ⟨⟨?_, ?_, ?_, ?_, .nil, nofun, nofun, nofun, nofun⟩, ?_, fun i hp => ?_⟩⟩
      · rw [hempty]; rfl
      · rw [hempty]; rfl
      · rw [hempty]; rfl
      · rw [hempty]; rfl
      · rw [hempty]; rfl
      · exact absurd ((hi i (inside i b hp)).1 b hp).1 (Nat.not_lt.2 h)
  unlinked i hlt := (hi i hlt).2

end Lists

end CompilerLab.Jit.Graph
