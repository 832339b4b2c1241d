import CompilerLab.Jit.Inlining
import CompilerLab.Jit.Lemmas.DefUse
import CompilerLab.Jit.Lemmas.Layout

/-!
# Binding arguments

The binding follows the first instructions of the callee. It does the same in graphs whose instructions differ in their
places only.
-/

namespace CompilerLab.Jit

open CompilerLab.Lib

/-- The instruction without its place. -/
def Instruction.withoutPlace (i : Instruction) : Instruction := { i with prev := none, next := none, parent := none }

namespace Graph

variable {g g' k : Graph} {i r u : Nat}

/-- The instructions differ in their places only. -/
def SameData (g g' : Graph) : Prop := ∀ j, (g'.instr j).withoutPlace = (g.instr j).withoutPlace

namespace SameData

theorem fields (h : SameData g g') (j : Nat) : (g'.instr j).opcode = (g.instr j).opcode ∧
    (g'.instr j).properties = (g.instr j).properties ∧ (g'.instr j).users = (g.instr j).users ∧
    (g'.instr j).inputs = (g.instr j).inputs := by
  have heq := h j
  simp only [Instruction.withoutPlace, Instruction.mk.injEq] at heq
  exact ⟨heq.1, heq.2.2.2.2.2.1, heq.2.2.2.2.2.2.1, heq.2.2.2.2.2.2.2.1⟩

theorem modifyInstr {f : Instruction → Instruction} (h : SameData g g')
    (hf : ∀ x y : Instruction, x.withoutPlace = y.withoutPlace → (f x).withoutPlace = (f y).withoutPlace) :
    SameData (g.modifyInstr i f) (g'.modifyInstr i f) := by
  intro j
  rw [modifyInstr_instr, modifyInstr_instr]
  split_ifs
  · exact hf _ _ (h i)
  · exact h j

theorem replaceInput (h : SameData g g') (hs : g.replaceInput u i r = some k) :
    ∃ k', g'.replaceInput u i r = some k' ∧ SameData k k' := by
  obtain ⟨hmem, rfl⟩ := replaceInput_eq_some.1 hs
  refine ⟨_, replaceInput_eq_some.2 ⟨(h.fields u).2.2.2 ▸ hmem, rfl⟩, h.modifyInstr fun x y hxy => ?_⟩
  simp only [Instruction.withoutPlace, Instruction.mk.injEq] at hxy ⊢
  simp only [hxy, and_self]

theorem replaceInputIn {users : List Nat} (h : SameData g g') (hs : g.replaceInputIn i r users = some k) :
    ∃ k', g'.replaceInputIn i r users = some k' ∧ SameData k k' := by
  induction users generalizing g g' with
  | nil =>
      cases hs
      exact ⟨g', rfl, h⟩
  | cons u users ih =>
      simp only [Graph.replaceInputIn, List.foldlM_cons, Option.bind_eq_bind, Option.bind_eq_some_iff, ASSERT_eq_some,
        exists_const] at hs
      obtain ⟨t, ⟨hin, ht⟩, hs⟩ := hs
      obtain ⟨t', ht', hsame⟩ := h.replaceInput ht
      obtain ⟨k', hk', hsame'⟩ := ih hsame hs
      have hin' : (g'.instr u).hasInputs = true := by
        rwa [Instruction.hasInputs, Instruction.satisfiesProperty, (h.fields u).2.1]
      refine ⟨k', ?_, hsame'⟩
      simp only [Graph.replaceInputIn, List.foldlM_cons, Option.bind_eq_bind, ASSERT_of hin', Option.bind_some, ht']
      exact hk'

theorem replaceInputInUsers (h : SameData g g') (hs : g.replaceInputInUsers i r = some k) :
    ∃ k', g'.replaceInputInUsers i r = some k' ∧ SameData k k' := by
  rw [Graph.replaceInputInUsers] at hs ⊢
  have hadd : SameData (g.addUsers r (g.instr i).users) (g'.addUsers r (g'.instr i).users) := by
    rw [(h.fields i).2.2.1]
    refine h.modifyInstr fun x y hxy => ?_
    simp only [Instruction.withoutPlace, Instruction.mk.injEq] at hxy ⊢
    simp only [hxy, and_self]
  simp only [(hadd.fields i).2.2.1]
  exact hadd.replaceInputIn hs

end SameData

/-- Redirecting users leaves opcodes and links alone. -/
theorem replaceInputInUsers_links (h : g.replaceInputInUsers i r = some k) (j : Nat) :
    (k.instr j).opcode = (g.instr j).opcode ∧ (k.instr j).next = (g.instr j).next := by
  rw [(replaceInputInUsers_redirects h).instr j, addUsers, modifyInstr_instr]
  split_ifs with hj
  · rw [hj]
    exact ⟨rfl, rfl⟩
  · exact ⟨rfl, rfl⟩

/-- The instructions met first when the `next` links are followed from `cur`. -/
def Follows (g : Graph) : Option Nat → List Nat → Prop
  | _, [] => True
  | cur, i :: l => cur = some i ∧ Follows g (g.instr i).next l

theorem Follows.congr {cur : Option Nat} {l : List Nat} (h : g.Follows cur l)
    (hn : ∀ j, (g'.instr j).next = (g.instr j).next) : g'.Follows cur l := by
  induction l generalizing cur with
  | nil => trivial
  | cons i l ih => exact ⟨h.1, hn i ▸ ih h.2⟩

theorem Layout.follows_iff {b : Nat} {rest l : List Nat} (h : g.Layout b [] rest) :
    g.Follows (g.block b).firstInst l ↔ l <+: rest := by
  rw [h.firstInst]
  suffices ∀ l₁ l₂, [] ++ rest = l₁ ++ l₂ → (g.Follows l₂.head? l ↔ l <+: l₂) from this [] rest rfl
  induction l with
  | nil => exact fun _ _ _ => ⟨fun _ => List.nil_prefix, fun _ => trivial⟩
  | cons i l ih =>
      intro l₁ l₂ heq
      cases l₂ with
      | nil => simp [Follows]
      | cons j l₂ =>
          rw [List.head?_cons, Follows, List.cons_prefix_cons, Option.some.injEq, eq_comm]
          refine and_congr_right fun hij => ?_
          subst hij
          rw [h.next_eq heq]
          exact ih (l₁ ++ [i]) l₂ (by simp [heq])

end Graph

namespace Inlining

variable {g g' h : Graph} {args : List (Option Nat)} {cur cur' : Option Nat} {l : List Nat}

/-- One argument is bound after another. -/
theorem bindArguments_cons {arg : Option Nat} : bindArguments g cur (arg :: args) = some h ↔
    ∃ i a t, cur = some i ∧ arg = some a ∧ (g.instr i).opcode = .ARG ∧ g.replaceInputInUsers i a = some t ∧
      bindArguments t (t.instr i).next args = some h := by
  simp only [bindArguments, Option.bind_eq_bind, Option.bind_eq_some_iff, ASSERT_eq_some, exists_const]
  constructor
  · rintro ⟨i, hi, hop, a, ha, t, ht, hrest⟩
    exact ⟨i, a, t, hi, ha, hop, ht, (Graph.replaceInputInUsers_links ht i).2 ▸ hrest⟩
  · rintro ⟨i, a, t, hi, ha, hop, ht, hrest⟩
    exact ⟨i, hi, hop, a, ha, t, ht, (Graph.replaceInputInUsers_links ht i).2 ▸ hrest⟩

/-- The arguments are bound to the first instructions, which are ARG. -/
theorem bindArguments_follows (hb : bindArguments g cur args = some h) :
    ∃ l, l.length = args.length ∧ g.Follows cur l ∧ ∀ i ∈ l, (g.instr i).opcode = .ARG := by
  induction args generalizing g cur with
  | nil => exact ⟨[], rfl, trivial, nofun⟩
  | cons arg args ih =>
      obtain ⟨i, a, t, rfl, rfl, hop, ht, hrest⟩ := bindArguments_cons.1 hb
      have hlinks := Graph.replaceInputInUsers_links ht
      obtain ⟨l, hlen, hl, hops⟩ := ih hrest
      refine ⟨i :: l, by simp [hlen], ⟨rfl, ?_⟩, List.forall_mem_cons.2 ⟨hop, fun j hj => ?_⟩⟩
      · exact (hlinks i).2 ▸ hl.congr fun j => (hlinks j).2.symm
      · exact (hlinks j).1 ▸ hops j hj

/-- The same instructions get the same arguments. -/
theorem bindArguments_sameData (hb : bindArguments g cur args = some h) (hs : g.SameData g') (hlen : l.length = args.length)
    (hl : g.Follows cur l) (hl' : g'.Follows cur' l) : ∃ h', bindArguments g' cur' args = some h' ∧ h.SameData h' := by
  induction args generalizing g g' cur cur' l with
  | nil =>
      cases hb
      exact ⟨g', rfl, hs⟩
  | cons arg args ih =>
      obtain ⟨i, a, t, rfl, rfl, hop, ht, hrest⟩ := bindArguments_cons.1 hb
      cases l with
      | nil => cases hlen
      | cons j l =>
          obtain ⟨hij, hl⟩ := hl
          obtain rfl := Option.some.inj hij
          obtain ⟨rfl, hl'⟩ := hl'
          obtain ⟨t', ht', hst⟩ := hs.replaceInputInUsers ht
          have hlinks := Graph.replaceInputInUsers_links ht
          have hlinks' := Graph.replaceInputInUsers_links ht'
          obtain ⟨h', hh', hsh⟩ := ih hrest hst (Nat.succ.inj hlen)
            ((hlinks i).2 ▸ hl.congr fun k => (hlinks k).2) ((hlinks' i).2 ▸ hl'.congr fun k => (hlinks' k).2)
          exact ⟨h', bindArguments_cons.2 ⟨i, a, t', rfl, rfl, (hs.fields i).1.trans hop, ht', hh'⟩, hsh⟩

/-- Arguments of the caller can be bound when the users of the ARG instructions are their users. -/
theorem bindArguments_total {n : Nat} {c : Option Nat} (hl : g.Follows c l) (hop : ∀ i ∈ l, (g.instr i).opcode = .ARG)
    (hnodup : l.Nodup) (hn : n ∉ l) (hu : ∀ i ∈ l, ∀ u ∈ (g.instr i).users, (g.instr u).hasInputs = true ∧
      (g.instr i).users.count u ≤ (g.instr u).inputs.count (some i)) :
    ∃ h, bindArguments g c (l.map fun _ => some n) = some h := by
  induction l generalizing g c with
  | nil => exact ⟨g, rfl⟩
  | cons i l ih =>
      obtain ⟨rfl, hl⟩ := hl
      have hin : n ≠ i := fun he => hn (he ▸ List.mem_cons_self)
      have haddInputs : ∀ j, ((g.addUsers n (g.instr i).users).instr j).inputs = (g.instr j).inputs ∧
          ((g.addUsers n (g.instr i).users).instr j).hasInputs = (g.instr j).hasInputs := by
        intro j
        rw [Graph.addUsers, Graph.modifyInstr_instr]
        split_ifs with hj
        · subst hj
          exact ⟨rfl, rfl⟩
        · exact ⟨rfl, rfl⟩
      have hadd : ∀ j, j ≠ n → (g.addUsers n (g.instr i).users).instr j = g.instr j := fun j hj => by
        rw [Graph.addUsers, Graph.modifyInstr_instr, if_neg hj]
      obtain ⟨t, ht⟩ : ∃ t, g.replaceInputInUsers i n = some t := by
        refine Graph.replaceInputIn_total hin fun u hmem => ?_
        rw [hadd i hin.symm] at hmem ⊢
        rw [(haddInputs u).1, (haddInputs u).2]
        exact hu i List.mem_cons_self u hmem
      have hlinks := Graph.replaceInputInUsers_links ht
      have hr := Graph.replaceInputInUsers_redirects ht
      have hins : ∀ u, (t.instr u).hasInputs = (g.instr u).hasInputs := fun u => by
        rw [← (haddInputs u).2, hr.instr u]
        rfl
      obtain ⟨h, hh⟩ := ih (g := t) (c := (g.instr i).next) (hl.congr fun j => (hlinks j).2)
        (fun j hj => (hlinks j).1.trans (hop j (List.mem_cons_of_mem i hj))) (List.nodup_cons.1 hnodup).2
        (fun hm => hn (List.mem_cons_of_mem i hm)) (fun j hj u hmem => by
          have hjn : j ≠ n := fun he => hn (he ▸ List.mem_cons_of_mem i hj)
          have hji : j ≠ i := fun he => (List.nodup_cons.1 hnodup).1 (he ▸ hj)
          have husers : (t.instr j).users = (g.instr j).users := by
            rw [hr.instr j, hadd j hjn]
          rw [husers] at hmem ⊢
          rw [hins, hr.count_ne hji hjn, (haddInputs u).1]
          exact hu j (List.mem_cons_of_mem i hj) u hmem)
      exact ⟨h, bindArguments_cons.2 ⟨i, n, t, rfl, rfl, hop i List.mem_cons_self, ht, (hlinks i).2 ▸ hh⟩⟩

end Inlining

end CompilerLab.Jit
