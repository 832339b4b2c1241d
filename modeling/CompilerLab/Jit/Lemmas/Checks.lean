import CompilerLab.Jit.Checks
import CompilerLab.Jit.Lemmas.DomTree

/-!
# Checks along a path

On a path from the entry a check comes after the equal checks that dominate it, and its operands have not changed since.
-/

namespace CompilerLab.Jit.Graph

open CompilerLab.Lib

variable {g g' : Graph} {first c i u x : Nat} {path done rest : List Nat}

/-! ## The instructions on a path -/

/-- A path from the entry. -/
structure IsPath (g : Graph) (first : Nat) (path : List Nat) : Prop where
  chain : path.IsChain g.Edge
  head : path.head? = some first

/-- Where an instruction is on a path. -/
theorem split_flatMap_instrs {l : List Nat} (hl : g.Lists) (h : l.flatMap g.instrs = done ++ u :: rest) :
    ∃ l₁ b l₂ p q, l = l₁ ++ b :: l₂ ∧ g.instrs b = p ++ u :: q ∧ done = l₁.flatMap g.instrs ++ p ∧
      rest = q ++ l₂.flatMap g.instrs ∧ (g.instr u).parent = some b := by
  induction l generalizing done with
  | nil => simp at h
  | cons b l ih =>
      rw [List.flatMap_cons] at h
      rcases List.append_eq_append_iff.1 h with ⟨p, hp, hrest⟩ | ⟨p, hp, hrest⟩
      · obtain ⟨l₁, b', l₂, p', q, rfl, hb', hdone, rfl, hpar⟩ := ih hrest
        exact ⟨b :: l₁, b', l₂, p', q, rfl, hb', by simp [hp, hdone], rfl, hpar⟩
      · cases p with
        | nil =>
            obtain ⟨l₁, b', l₂, p', q, rfl, hb', hdone, rfl, hpar⟩ := ih (hrest.symm.trans (List.nil_append _).symm)
            refine ⟨b :: l₁, b', l₂, p', q, rfl, hb', ?_, rfl, hpar⟩
            rw [List.append_nil] at hp
            rw [List.flatMap_cons, List.append_assoc, ← hdone, hp, List.append_nil]
        | cons u' q =>
            obtain ⟨rfl, hq⟩ := List.cons.inj (hrest.trans (List.cons_append ..))
            exact ⟨[], b, l, done, q, rfl, hp, rfl, hq, hl.mem_instrs.1 (by simp [hp])⟩

/-- What dominates an instruction comes before it. -/
theorem IsPath.mem_before (h : g.IsPath first path) (hl : g.Lists) (hd : g.InstrDom first c u)
    (heq : path.flatMap g.instrs = done ++ u :: rest) : c ∈ done := by
  obtain ⟨l₁, b, l₂, p, q, rfl, hb, rfl, -, hpar⟩ := split_flatMap_instrs hl heq
  obtain ⟨d, b', hd', hb', hdom⟩ := hd
  obtain rfl := Option.some.inj (hpar.symm.trans hb')
  rcases hdom with ⟨rfl, hbefore⟩ | ⟨hne, hdom⟩
  · exact List.mem_append_right _ (hbefore.mem_of_split (hl.nodup d) hb)
  · have hchain : (l₁ ++ [b]).IsChain g.Edge := by
      have hc := h.chain
      rw [List.append_cons] at hc
      exact hc.left_of_append
    have hhead : (l₁ ++ [b]).head? = some first := by
      have hh := h.head
      cases l₁ <;> exact hh
    exact List.mem_append_left _ (List.mem_flatMap.2 ⟨d, hdom.mem_of_isChain hchain hhead (Ne.symm hne),
      hl.mem_instrs.2 hd'⟩)

theorem IsPath.leads (h : g.IsPath first path) {b : Nat} (hb : b ∈ path) : g.Leads first b := by
  refine h.chain.induction (g.Leads first) path (fun _ _ he hl => hl.tail he) (fun hne => ?_) b hb
  have hhead := h.head
  rw [List.head?_eq_some_head hne, Option.some.injEq] at hhead
  rw [hhead]

/-- What dominates an instruction and is dominated by another comes between them. -/
theorem IsPath.mem_between (h : g.IsPath first path) (hl : g.Lists) (hxc : g.InstrDom first x c)
    (hcu : g.InstrDom first c u) (heq : path.flatMap g.instrs = done ++ x :: (rest ++ u :: is)) : c ∈ rest := by
  obtain ⟨l₁, b, l₂, p, q, rfl, hb, rfl, hrest, hpar⟩ := split_flatMap_instrs hl heq
  obtain ⟨bx, d, hbx, hd, hxc⟩ := hxc
  obtain ⟨d', bu, hd', hbu, hcu⟩ := hcu
  obtain rfl := Option.some.inj (hpar.symm.trans hbx)
  obtain rfl := Option.some.inj (hd.symm.trans hd')
  have hleads : g.Leads first b := h.leads (by simp)
  -- in the block of `x`, `c` can only come after it
  have after : Before (g.instrs b) x c → c ∈ q := fun hbefore => hbefore.mem_of_split_left (hl.nodup b) hb
  have same : (∃ m, q = rest ++ u :: m) ∨ ∃ m, rest = q ++ m ∧ l₂.flatMap g.instrs = m ++ u :: is := by
    rcases List.append_eq_append_iff.1 hrest with ⟨m, hq, hm⟩ | ⟨m, hm, hl₂⟩
    · cases m with
      | nil => exact .inr ⟨[], by rw [hq, List.append_nil, List.append_nil], hm.symm⟩
      | cons v m =>
          obtain ⟨rfl, -⟩ := List.cons.inj (hm.trans (List.cons_append ..))
          exact .inl ⟨m, hq⟩
    · exact .inr ⟨m, hm, hl₂⟩
  rcases same with ⟨m, rfl⟩ | ⟨m, rfl, hl₂⟩
  · -- `x` and `u` are in the same visit of a block
    have hu : (g.instr u).parent = some b := hl.mem_instrs.1 (by simp [hb])
    obtain rfl := Option.some.inj (hu.symm.trans hbu)
    have hdb : d = b := by
      by_contra hne
      obtain ⟨-, hbd⟩ := hxc.resolve_left fun hs => hne hs.1.symm
      obtain ⟨-, hdb⟩ := hcu.resolve_left fun hs => hne hs.1
      exact hne (hdb.antisymm hbd hleads)
    subst hdb
    have hxc' := (hxc.resolve_right fun hs => hs.1 rfl).2
    have hcu' := (hcu.resolve_right fun hs => hs.1 rfl).2
    have hsplit : g.instrs d = (p ++ x :: rest) ++ u :: m := by simp [hb]
    have hmem := hcu'.mem_of_split (hl.nodup d) hsplit
    rcases List.mem_append.1 hmem with hp | hmem
    · exact absurd (hxc'.mem_of_split_left (hl.nodup d) hb) fun hq => by
        have hn := hl.nodup d
        rw [hb] at hn
        exact (List.nodup_append.1 hn).2.2 c hp c (List.mem_cons_of_mem x hq) rfl
    · rcases List.mem_cons.1 hmem with rfl | hmem
      · exact absurd hxc' (Before.not_self (hl.nodup d))
      · exact hmem
  · by_cases hdb : d = b
    · subst hdb
      exact List.mem_append_left _ (after (hxc.resolve_right fun hs => hs.1 rfl).2)
    · obtain ⟨-, hbd⟩ := hxc.resolve_left fun hs => hdb hs.1.symm
      obtain ⟨m₁, b', m₂, p', q', rfl, hb', rfl, -, hpar'⟩ := split_flatMap_instrs hl hl₂
      obtain rfl := Option.some.inj (hpar'.symm.trans hbu)
      rcases hcu with ⟨rfl, hcu⟩ | ⟨hne, hdu⟩
      · simp [hcu.mem_of_split (hl.nodup d) hb']
      · have hchain : (b :: m₁ ++ [b']).IsChain g.Edge := by
          have hc := h.chain.right_of_append
          rw [← List.cons_append, List.append_cons] at hc
          exact hc.left_of_append
        have hm : d ∈ m₁ := hbd.between (Ne.symm hdb) hleads hdu hchain (Ne.symm hne)
        simp only [List.mem_append, List.mem_flatMap]
        exact .inr (.inl ⟨d, hm, hl.mem_instrs.2 hd⟩)

/-! ## Checks that are passed -/

theorem exists_last {l : List Nat} (h : c ∈ l) : ∃ l₁ l₂, l = l₁ ++ c :: l₂ ∧ c ∉ l₂ := by
  obtain ⟨l₂, l₁, heq, hc⟩ := List.eq_append_cons_of_mem (List.mem_reverse.2 h)
  refine ⟨l₁.reverse, l₂.reverse, ?_, fun hm => hc (List.mem_reverse.1 hm)⟩
  rw [← List.reverse_reverse l, heq]
  simp

/-- The operands of a check are computed before it. -/
def ChecksInSSA (g : Graph) (first : Nat) : Prop :=
  ∀ c b, (g.instr c).parent = some b → (g.instr c).isCheck = true → ∀ x, some x ∈ (g.instr c).inputs → g.InstrDom first x c

/-- A check that dominates an instruction has been executed, and its operands have not been computed again since. -/
theorem IsPath.fresh (h : g.IsPath first path) (hl : g.Lists) (hssa : g.ChecksInSSA first)
    (hc : (g.instr c).isCheck = true) (hd : g.InstrDom first c u) (heq : path.flatMap g.instrs = done ++ u :: rest) :
    ∃ l₁ l₂, done = l₁ ++ c :: l₂ ∧ ∀ x, some x ∈ (g.instr c).inputs → x ∉ l₂ := by
  obtain ⟨l₁, l₂, rfl, hlast⟩ := exists_last (h.mem_before hl hd heq)
  refine ⟨l₁, l₂, rfl, fun x hx hm => hlast ?_⟩
  obtain ⟨m₁, m₂, rfl⟩ := List.append_of_mem hm
  have ⟨b, _, hb, _⟩ := hd
  have hsplit : path.flatMap g.instrs = (l₁ ++ c :: m₁) ++ x :: (m₂ ++ u :: rest) := by simp [heq]
  have hbetween : c ∈ m₂ := h.mem_between hl (hssa c b hb hc x hx) hd hsplit
  simp [hbetween]

variable {m : Machine} {s : m.State}

theorem operands_exec (h : ∀ x, some x ∈ (g.instr c).inputs → x ≠ i) :
    g.operands m (m.exec s i) c = g.operands m s c := by
  refine List.map_congr_left fun a ha => ?_
  cases a with
  | none => rfl
  | some x => exact congrArg some (m.frame s i x (h x ha))

/-- The checks executed so far would pass again as long as their operands have not changed. -/
def Passed (g : Graph) (m : Machine) (done : List Nat) (s : m.State) : Prop :=
  ∀ l₁ c l₂, done = l₁ ++ c :: l₂ → (g.instr c).isCheck = true → (∀ x, some x ∈ (g.instr c).inputs → x ∉ l₂) →
    m.bad (g.instr c).opcode (g.operands m s c) = false

namespace Passed

theorem check (h : g.Passed m done s) (hi : m.bad (g.instr i).opcode (g.operands m s i) = false) :
    g.Passed m (done ++ [i]) s := by
  intro l₁ c l₂ heq hc hx
  cases l₂ using List.reverseRecOn with
  | nil =>
      obtain ⟨-, hic⟩ := List.append_inj' heq rfl
      obtain rfl := List.singleton_inj.1 hic
      exact hi
  | append_singleton l₂ j =>
      rw [← List.cons_append, ← List.append_assoc] at heq
      exact h l₁ c l₂ (List.append_inj' heq rfl).1 hc fun x hxc hm => hx x hxc (List.mem_append_left _ hm)

theorem exec (h : g.Passed m done s) (hi : (g.instr i).isCheck = false) : g.Passed m (done ++ [i]) (m.exec s i) := by
  intro l₁ c l₂ heq hc hx
  cases l₂ using List.reverseRecOn with
  | nil =>
      obtain ⟨-, hic⟩ := List.append_inj' heq rfl
      rw [List.singleton_inj.1 hic, hc] at hi
      cases hi
  | append_singleton l₂ j =>
      rw [← List.cons_append, ← List.append_assoc] at heq
      obtain ⟨rfl, hij⟩ := List.append_inj' heq rfl
      obtain rfl := List.singleton_inj.1 hij
      rw [operands_exec fun x hxc hxi => hx x hxc (by simp [hxi])]
      exact h l₁ c l₂ rfl hc fun x hxc hm => hx x hxc (List.mem_append_left _ hm)

end Passed

/-- Leaving out checks that come after equal checks that dominate them changes nothing about the first one to fail. -/
theorem firstFailing_filter (h : g.IsPath first path) (hl : g.Lists) (hssa : g.ChecksInSSA first) {keep : Nat → Bool}
    (hkeep : ∀ u, keep u = false → ∃ c, (g.instr c).isCheck = true ∧ (g.instr u).opcode = (g.instr c).opcode ∧
      (g.instr u).inputs = (g.instr c).inputs ∧ g.InstrDom first c u) (s : m.State) :
    g.firstFailing m s ((path.flatMap g.instrs).filter keep) = g.firstFailing m s (path.flatMap g.instrs) := by
  suffices key : ∀ rest done s, path.flatMap g.instrs = done ++ rest → g.Passed m done s →
      g.firstFailing m s (rest.filter keep) = g.firstFailing m s rest from
    key _ [] s rfl fun l₁ c l₂ heq => absurd heq (by simp)
  intro rest
  induction rest with
  | nil => exact fun _ _ _ _ => rfl
  | cons u rest ih =>
      intro done s heq hp
      have heq' : path.flatMap g.instrs = (done ++ [u]) ++ rest := by simp [heq]
      cases hku : keep u with
      | true =>
          rw [List.filter_cons_of_pos hku, firstFailing, firstFailing]
          cases hu : (g.instr u).isCheck with
          | true =>
              cases hbad : m.bad (g.instr u).opcode (g.operands m s u) with
              | true => rfl
              | false => exact ih _ s heq' (hp.check hbad)
          | false => exact ih _ _ heq' (hp.exec hu)
      | false =>
          obtain ⟨c, hc, hop, hin, hd⟩ := hkeep u hku
          obtain ⟨l₁, l₂, hdone, hx⟩ := h.fresh hl hssa hc hd heq
          have hu : (g.instr u).isCheck = true := by rw [Instruction.isCheck, hop, ← Instruction.isCheck, hc]
          have hbad : m.bad (g.instr u).opcode (g.operands m s u) = false := by
            rw [hop, operands, hin]
            exact hp l₁ c l₂ hdone hc hx
          rw [List.filter_cons_of_neg (by simp [hku]), firstFailing, if_pos hu, hbad]
          exact ih _ s heq' (hp.check hbad)

/-- The checks of a graph are those of its instructions' data. -/
theorem firstFailing_congr (h : ∀ i, (g'.instr i).opcode = (g.instr i).opcode ∧ (g'.instr i).inputs = (g.instr i).inputs)
    (s : m.State) (l : List Nat) : g'.firstFailing m s l = g.firstFailing m s l := by
  induction l generalizing s with
  | nil => rfl
  | cons i l ih =>
      rw [firstFailing, firstFailing, ih, ih, operands, operands, Instruction.isCheck, (h i).1, (h i).2]
      rfl

end CompilerLab.Jit.Graph
