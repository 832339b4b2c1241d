import CompilerLab.Jit.DomTree
import CompilerLab.Jit.Lemmas.Lists
import CompilerLab.Jit.Lemmas.Traversals

/-!
# Dominance by the stored tree

The walk up the stored dominators finds exactly the dominators. Instructions of one block dominate those after them.
-/

namespace CompilerLab.Jit.Graph

open CompilerLab.Lib

variable {g g' : Graph} {first b c i j k : Nat}

/-! ## Blocks -/

/-- A stored dominator tree with the given immediate dominators. -/
theorem DomTree.of_stored (hleads : ∀ b ∈ g.blocks, g.Leads first b) (hroot : (g.block first).dominator = none)
    (hidom : ∀ b ∈ g.blocks, b ≠ first → ∃ a, (g.block b).dominator = some a ∧ IDom g.Edge first a b)
    (hlists : ∀ b ∈ g.blocks, (g.block b).dominated = g.blocks.filter fun c => (g.block c).dominator = some b)
    (hnodup : g.blocks.Nodup) : g.DomTree first where
  leads := hleads
  root := hroot
  idom := hidom
  nodup b hb := hlists b hb ▸ hnodup.filter _
  dominated b hb c := by simp [hlists b hb]

/-- The dominators of a block, from the block up. -/
inductive DomChain (g : Graph) : Nat → List Nat → Prop where
  | root {b : Nat} : (g.block b).dominator = none → DomChain g b [b]
  | cons {a b : Nat} {l : List Nat} : (g.block b).dominator = some a → DomChain g a l → DomChain g b (b :: l)

theorem DomChain.dominatesWalk {l : List Nat} (h : g.DomChain c l) {n : Nat} (hn : l.length ≤ n) :
    g.dominatesWalk b n (some c) = true ↔ b ∈ l := by
  induction h generalizing n with
  | @root d hd =>
      obtain ⟨n, rfl⟩ : ∃ m, n = m + 1 := ⟨n - 1, by simp at hn; omega⟩
      have hnone : g.dominatesWalk b n none = false := by cases n <;> rfl
      rw [Graph.dominatesWalk, hd, hnone, Bool.or_false, beq_iff_eq, List.mem_singleton, eq_comm]
  | @cons a d l hd _ ih =>
      obtain ⟨n, rfl⟩ : ∃ m, n = m + 1 := ⟨n - 1, by simp at hn; omega⟩
      rw [Graph.dominatesWalk, hd, Bool.or_eq_true, ih (by simpa using hn), beq_iff_eq, List.mem_cons, eq_comm]

/-- Every block has its dominators above it. -/
theorem DomTree.chain (ht : g.DomTree first) (hwc : g.WellConnected first) (hc : g.Leads first c) :
    ∃ l, g.DomChain c l ∧ l.Nodup ∧ ∀ x, x ∈ l ↔ Dom g.Edge first x c := by
  refine Dom.induct (P := fun c => ∃ l, g.DomChain c l ∧ l.Nodup ∧ ∀ x, x ∈ l ↔ Dom g.Edge first x c) ?_ ?_ hc
  · refine ⟨[first], .root ht.root, List.nodup_singleton _, fun x => ?_⟩
    rw [List.mem_singleton]
    exact ⟨fun hx => by rw [hx]; exact Dom.refl first first, fun hx => (hx .refl).symm⟩
  · intro b hb hbr
    obtain ⟨a, ha, hi⟩ := ht.idom b (hwc.mem_of_leads hb) hbr
    refine ⟨a, hi.dom, hi.ne, ?_⟩
    rintro ⟨l, hchain, hnodup, hmem⟩
    have hbl : b ∉ l := fun hbl => hi.ne (hi.dom.antisymm ((hmem b).1 hbl) hb)
    refine ⟨b :: l, .cons ha hchain, List.nodup_cons.2 ⟨hbl, hnodup⟩, fun x => ?_⟩
    rw [List.mem_cons, hmem]
    constructor
    · rintro (rfl | hx)
      · exact Dom.refl _ _
      · exact hx.trans hi.dom
    · intro hx
      by_cases hxb : x = b
      · exact .inl hxb
      · exact .inr (hi.closest x hx hxb)

/-- `BasicBlock::Dominates` decides dominance. -/
theorem DomTree.dominates_iff (ht : g.DomTree first) (hwc : g.WellConnected first) (hc : g.Leads first c) :
    g.dominates b c = true ↔ Dom g.Edge first b c := by
  obtain ⟨l, hchain, hnodup, hmem⟩ := ht.chain hwc hc
  have sub : l ⊆ List.range g.blockCount := fun x hx =>
    List.mem_range.2 (hwc.lt x (hwc.mem_of_leads (((hmem x).1 hx).reachable hc)))
  have hlen : l.length ≤ g.blockCount := by simpa using (hnodup.subperm sub).length_le
  rw [← hmem, dominates, Bool.or_eq_true, beq_iff_eq, eq_comm]
  cases hchain with
  | root hd =>
      have hnone : g.dominatesWalk b g.blockCount none = false := by cases g.blockCount <;> rfl
      rw [hd, hnone, List.mem_singleton]
      simp
  | cons hd hrest => rw [hd, hrest.dominatesWalk (Nat.le_of_succ_le hlen), List.mem_cons]

/-- A dominator that is found is found with more blocks too. -/
theorem dominates_mono (hd : ∀ c, (g'.block c).dominator = (g.block c).dominator) (hn : g.blockCount ≤ g'.blockCount)
    (h : g.dominates b c = true) : g'.dominates b c = true := by
  have walk : ∀ n m cur, n ≤ m → g.dominatesWalk b n cur = true → g'.dominatesWalk b m cur = true := by
    intro n
    induction n with
    | zero => intro m cur _ h; cases cur <;> cases h
    | succ n ih =>
        intro m cur hnm h
        cases m with
        | zero => cases hnm
        | succ m =>
            cases cur with
            | none => cases h
            | some d =>
                rw [dominatesWalk, Bool.or_eq_true] at h ⊢
                rw [hd]
                exact h.imp_right (ih m _ (Nat.le_of_succ_le_succ hnm))
  rw [dominates, Bool.or_eq_true] at h ⊢
  rw [hd]
  exact h.imp_right (walk _ _ _ hn)

theorem dominates_congr (hd : ∀ c, (g'.block c).dominator = (g.block c).dominator) (hn : g'.blockCount = g.blockCount) :
    g'.dominates b c = g.dominates b c :=
  Bool.eq_iff_iff.2 ⟨dominates_mono (fun c => (hd c).symm) hn.le, dominates_mono hd hn.ge⟩

/-! ## Positions in a list -/

/-- `i` comes before `j` in a list. -/
def Before (l : List Nat) (i j : Nat) : Prop := ∃ l₁ l₂, l = l₁ ++ i :: l₂ ∧ j ∈ l₂

namespace Before

variable {l l₁ l₂ : List Nat}

theorem not_self (hn : l.Nodup) : ¬ Before l i i := by
  rintro ⟨l₁, l₂, rfl, hi⟩
  exact (List.nodup_cons.1 (List.nodup_append.1 hn).2.1).1 hi

/-- What comes before an element is in the part of the list before it. -/
theorem mem_of_split (h : Before l i j) (hn : l.Nodup) (hl : l = l₁ ++ j :: l₂) : i ∈ l₁ := by
  obtain ⟨m₁, m₂, rfl, hj⟩ := h
  obtain ⟨m, m', rfl⟩ := List.append_of_mem hj
  have hassoc : m₁ ++ i :: (m ++ j :: m') = (m₁ ++ i :: m) ++ j :: m' := by simp
  rw [hassoc] at hn hl
  have hj₁ : j ∉ m₁ ++ i :: m := fun hj₁ => (List.nodup_append.1 hn).2.2 j hj₁ j List.mem_cons_self rfl
  have hj₂ : j ∉ m' := (List.nodup_cons.1 (List.nodup_append.1 hn).2.1).1
  rw [← ((List.append_cons_inj_of_notMem hj₁ hj₂).1 hl).1]
  simp

/-- What comes after an element is in the part of the list after it. -/
theorem mem_of_split_left (h : Before l i j) (hn : l.Nodup) (hl : l = l₁ ++ i :: l₂) : j ∈ l₂ := by
  obtain ⟨m₁, m₂, rfl, hj⟩ := h
  have hi₁ : i ∉ m₁ := fun hi => (List.nodup_append.1 hn).2.2 i hi i List.mem_cons_self rfl
  have hi₂ : i ∉ m₂ := (List.nodup_cons.1 (List.nodup_append.1 hn).2.1).1
  rwa [← ((List.append_cons_inj_of_notMem hi₁ hi₂).1 hl).2.2]

theorem trans (h : Before l i j) (h' : Before l j k) (hn : l.Nodup) : Before l i k := by
  obtain ⟨l₁, l₂, rfl, hk⟩ := h'
  obtain ⟨m, m', rfl⟩ := List.append_of_mem (h.mem_of_split hn rfl)
  exact ⟨m, m' ++ j :: l₂, by simp, by simp [hk]⟩

theorem asymm (h : Before l i j) (hn : l.Nodup) : ¬ Before l j i := fun h' => not_self hn (h.trans h' hn)

theorem or_of_mem (hi : i ∈ l) (hj : j ∈ l) (hne : i ≠ j) : Before l i j ∨ Before l j i := by
  obtain ⟨l₁, l₂, rfl⟩ := List.append_of_mem hi
  rcases List.mem_append.1 hj with hj | hj
  · obtain ⟨m, m', rfl⟩ := List.append_of_mem hj
    exact .inr ⟨m, m' ++ i :: l₂, by simp, by simp⟩
  · rcases List.mem_cons.1 hj with rfl | hj
    · exact absurd rfl hne
    · exact .inl ⟨l₁, l₂, rfl, hj⟩

theorem append (h : Before l i j) (m : List Nat) : Before (l ++ m) i j := by
  obtain ⟨l₁, l₂, rfl, hj⟩ := h
  exact ⟨l₁, l₂ ++ m, by simp, List.mem_append_left m hj⟩

theorem concat (hi : i ∈ l) : Before (l ++ [j]) i j := by
  obtain ⟨l₁, l₂, rfl⟩ := List.append_of_mem hi
  exact ⟨l₁, l₂ ++ [j], by simp, by simp⟩

theorem filter (h : Before l i j) {p : Nat → Bool} (hi : p i = true) (hj : p j = true) : Before (l.filter p) i j := by
  obtain ⟨l₁, l₂, rfl, hjl⟩ := h
  exact ⟨l₁.filter p, l₂.filter p, by simp [hi], List.mem_filter.2 ⟨hjl, hj⟩⟩

/-- The one that comes first is found first. -/
theorem find?_eq (h : Before l i j) (hn : l.Nodup) : (l.find? fun x => x == i || x == j) = some i ∧
    (l.find? fun x => x == j || x == i) = some i := by
  obtain ⟨l₁, l₂, rfl, hj⟩ := h
  have hi₁ : ∀ x ∈ l₁, x ≠ i ∧ x ≠ j := fun x hx =>
    ⟨(List.nodup_append.1 hn).2.2 x hx i List.mem_cons_self,
      (List.nodup_append.1 hn).2.2 x hx j (List.mem_cons_of_mem i hj)⟩
  have none₁ : (l₁.find? fun x => x == i || x == j) = none := List.find?_eq_none.2 fun x hx => by simp [hi₁ x hx]
  have none₂ : (l₁.find? fun x => x == j || x == i) = none := List.find?_eq_none.2 fun x hx => by simp [hi₁ x hx]
  rw [List.find?_append, List.find?_append, none₁, none₂]
  simp

end Before

/-! ## Instructions -/

/-- Every path to `j` meets `i` before. -/
def InstrDom (g : Graph) (first i j : Nat) : Prop :=
  ∃ b c, (g.instr i).parent = some b ∧ (g.instr j).parent = some c ∧
    (b = c ∧ Before (g.instrs b) i j ∨ b ≠ c ∧ Dom g.Edge first b c)

namespace InstrDom

theorem irrefl (hl : g.Lists) : ¬ g.InstrDom first i i := by
  rintro ⟨b, c, hb, hc, h | h⟩
  · exact Before.not_self (hl.nodup b) h.2
  · exact h.1 (Option.some.inj (hb.symm.trans hc))

theorem trans (hl : g.Lists) (hk : ∀ b, (g.instr k).parent = some b → g.Leads first b) (h : g.InstrDom first i j)
    (h' : g.InstrDom first j k) : g.InstrDom first i k := by
  obtain ⟨b, c, hb, hc, h⟩ := h
  obtain ⟨c', d, hc', hd, h'⟩ := h'
  obtain rfl := Option.some.inj (hc.symm.trans hc')
  refine ⟨b, d, hb, hd, ?_⟩
  rcases h with ⟨rfl, h⟩ | ⟨hne, h⟩
  · rcases h' with ⟨rfl, h'⟩ | ⟨hne', h'⟩
    · exact .inl ⟨rfl, h.trans h' (hl.nodup b)⟩
    · exact .inr ⟨hne', h'⟩
  · rcases h' with ⟨rfl, -⟩ | ⟨hne', h'⟩
    · exact .inr ⟨hne, h⟩
    · refine .inr ⟨fun hbd => ?_, h.trans h'⟩
      subst hbd
      exact hne (h.antisymm h' (h'.reachable (hk b hd)))

end InstrDom

end CompilerLab.Jit.Graph
