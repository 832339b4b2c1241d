import CompilerLab.Jit.Lemmas.LinearOrdering

/-!
# Which branches the linear ordering keeps

Inverting a branch swaps the operands, mirrors the condition code and swaps the successors. Mirroring undoes the swap
of the operands, so an ordered comparison keeps its outcome while the successors change places.
-/

namespace CompilerLab.Jit

/-! ## Mirrored comparisons -/

/-- The codes whose mirror image `inverseCondCode` gives is their negation. -/
def CondCode.isEquality (cc : CondCode) : Bool := cc = .EQ ∨ cc = .NE

theorem inverseCondCode_inverseCondCode (cc : CondCode) : inverseCondCode (inverseCondCode cc) = cc := by
  cases cc <;> rfl

theorem CondCode.holds_inverse (cc : CondCode) (t : OperandType) (x y : BitVec t.width) :
    (inverseCondCode cc).holds t y x = (cc.holds t x y != cc.isEquality) := by
  cases cc <;> simp [inverseCondCode, CondCode.holds, CondCode.isEquality, eq_comm]

namespace LinearOrdering

open CompilerLab.Lib CompilerLab.Jit.Graph

variable {g : Graph} {b cmp x y t f : Nat} {s s' : State} {as : List Action} {a : Action} {flip : Bool}

/-! ## Graphs that are ordered -/

/-- References stay below the counts of their objects, and a comparison before a jump belongs to the block it ends. -/
structure Orderable (g : Graph) : Prop where
  succs : ∀ c d, d ∈ (g.block c).succs → d < g.blockCount
  unused : ∀ c, g.blockCount ≤ c → (g.block c).succs = []
  ends : ∀ c j, (g.block c).lastInst = some j → j < g.instrCount
  jumps : ∀ c j i, (g.block c).lastInst = some j → (g.instr j).opcode = .JCMP → (g.instr j).prev = some i →
    i < g.instrCount ∧ (g.instr i).parent = some c

/-- The block of the first `n` blocks control comes to from `d`: blocks made later only jump on. -/
def throughJump (n : Nat) (g : Graph) (d : Nat) : Option Nat :=
  if d < n then some d else (g.block d).succs.head?

/-! ## The invariant -/

/-- What the ordering keeps of the graph `g` it started from. -/
structure Keeps (g : Graph) (s : State) : Prop where
  blockCount : g.blockCount ≤ s.graph.blockCount
  instrCount : g.instrCount ≤ s.graph.instrCount
  succs : ∀ c d, d ∈ (s.graph.block c).succs → d < s.graph.blockCount
  unused : ∀ c, s.graph.blockCount ≤ c → (s.graph.block c).succs = []
  added : ∀ c, g.blockCount ≤ c → (s.graph.block c).succs.length ≤ 1
  lastInst : ∀ c, c < g.blockCount → (s.graph.block c).lastInst = (g.block c).lastInst
  instr : ∀ i, i < g.instrCount → (s.graph.instr i).opcode = (g.instr i).opcode ∧
    (s.graph.instr i).prev = (g.instr i).prev ∧ (s.graph.instr i).parent = (g.instr i).parent

/-- The branch of block `b`, inverted or not: the operands, the condition code and the successors. -/
structure BranchState (g : Graph) (b : Nat) (cmp x y : Nat) (t f : Nat) (flip : Bool) (s : State) :
    Prop where
  branch : ∃ t' f', s.graph.BranchAt b cmp (if flip then y else x) (if flip then x else y) t' f' ∧
    throughJump g.blockCount s.graph t' = some (if flip then f else t) ∧
    throughJump g.blockCount s.graph f' = some (if flip then t else f) ∧
    (s.visited b = false ∨ s.pending = some b → t' < g.blockCount ∧ f' < g.blockCount)
  ccode : (s.graph.instr cmp).ccode =
    if flip then inverseCondCode (g.instr cmp).ccode else (g.instr cmp).ccode
  type : (s.graph.instr cmp).type = (g.instr cmp).type

/-- The references of a jump and its comparison exist. -/
theorem BranchAt.lt (hg : Orderable g) (h : g.BranchAt b cmp x y t f) :
    b < g.blockCount ∧ t < g.blockCount ∧ f < g.blockCount ∧ cmp < g.instrCount ∧ (g.instr cmp).parent = some b ∧
      ∀ j, (g.block b).lastInst = some j → j < g.instrCount := by
  obtain ⟨j, hl, ho, hp, -, -⟩ := h.jump
  obtain ⟨hi, hpar⟩ := hg.jumps b j cmp hl ho hp
  refine ⟨?_, hg.succs b t (by simp [h.succs]), hg.succs b f (by simp [h.succs]), hi, hpar, hg.ends b⟩
  by_contra hb
  have := hg.unused b (Nat.not_lt.1 hb)
  rw [h.succs] at this
  cases this

/-! ## Steps that leave the graph alone -/

theorem Keeps.of_graph_eq (h : Keeps g s) (hg : s'.graph = s.graph) : Keeps g s' := by
  constructor <;> rw [hg]
  · exact h.blockCount
  · exact h.instrCount
  · exact h.succs
  · exact h.unused
  · exact h.added
  · exact h.lastInst
  · exact h.instr

theorem BranchState.of_graph_eq (h : BranchState g b cmp x y t f flip s) (hg : s'.graph = s.graph)
    (hb : s'.visited b = false ∨ s'.pending = some b → s.visited b = false ∨ s.pending = some b) :
    BranchState g b cmp x y t f flip s' := by
  obtain ⟨t', f', h₁, h₂, h₃, h₄⟩ := h.branch
  constructor
  · rw [hg]
    exact ⟨t', f', h₁, h₂, h₃, fun h => h₄ (hb h)⟩
  · rw [hg]; exact h.ccode
  · rw [hg]; exact h.type

/-! ## A jump on an edge -/

theorem sources_fields {i j : Instruction} (h : i.withoutSources = j.withoutSources) :
    i.opcode = j.opcode ∧ i.prev = j.prev ∧ i.next = j.next ∧ i.parent = j.parent ∧ i.inputs = j.inputs ∧
      i.ccode = j.ccode ∧ i.type = j.type := by
  simp only [Instruction.withoutSources, Instruction.mk.injEq] at h
  tauto

theorem Keeps.lt_of_pair (h : Keeps g s) {c p q : Nat} (hc : (s.graph.block c).succs = [p, q]) :
    c < g.blockCount := by
  by_contra hn
  have := h.added c (Nat.not_lt.1 hn)
  rw [hc] at this
  simp at this

theorem Keeps.jump {c p q : Nat} (h : Keeps g s) (hc : (s.graph.block c).succs = [p, q])
    (hj : InsertsJump s.graph c q s'.graph) : Keeps g s' := by
  have hlt := h.lt_of_pair hc
  have hq : q < s.graph.blockCount := h.succs c q (by simp [hc])
  have hle := h.blockCount
  constructor
  · rw [hj.blockCount]; omega
  · exact h.instrCount.trans hj.instrCount
  · intro d e he
    rw [hj.blockCount]
    by_cases hd : d = c
    · subst d
      rw [hj.pred_succs] at he
      rcases mem_replace he with he | rfl
      · have := h.succs c e he; omega
      · omega
    · by_cases hn : d = s.graph.blockCount
      · subst d
        rw [hj.new_succs, List.mem_singleton] at he
        omega
      · rw [hj.succs d hd hn] at he
        have := h.succs d e he
        omega
  · intro d hd
    rw [hj.blockCount] at hd
    rw [hj.succs d (by omega) (by omega)]
    exact h.unused d (by omega)
  · intro d hd
    by_cases hn : d = s.graph.blockCount
    · subst d; rw [hj.new_succs]; simp
    · rw [hj.succs d (by omega) hn]
      exact h.added d hd
  · intro d hd
    rw [hj.lastInst d (by omega)]
    exact h.lastInst d hd
  · intro i hi
    obtain ⟨h₁, h₂, -, h₃, -⟩ := sources_fields (hj.instr i (by have := h.instrCount; omega))
    obtain ⟨k₁, k₂, k₃⟩ := h.instr i hi
    exact ⟨h₁.trans k₁, h₂.trans k₂, h₃.trans k₃⟩

theorem throughJump_of_lt {n d : Nat} (h : d < n) (g : Graph) : throughJump n g d = some d := if_pos h

theorem BranchState.jump_self (hk : Keeps g s) (hg : Orderable g) (hb : g.BranchAt b cmp x y t f)
    (h : BranchState g b cmp x y t f flip s) {p q : Nat} (hc : (s.graph.block b).succs = [p, q])
    (hp : s.pending = some b) (hj : InsertsJump s.graph b q s'.graph) (hv : s'.visited = s.visited)
    (hvis : s.visited b = true) (hpend : s'.pending = none) : BranchState g b cmp x y t f flip s' := by
  obtain ⟨hblt, -, -, hcmp, -, hjlt⟩ := BranchAt.lt hg hb
  obtain ⟨t', f', hbr, ht, hf, hold⟩ := h.branch
  obtain ⟨ht', hf'⟩ := hold (.inr hp)
  have hle := hk.blockCount
  have hli := hk.instrCount
  rw [hbr.succs, List.cons.injEq, List.cons.injEq] at hc
  obtain ⟨rfl, rfl, -⟩ := hc
  have hne : (t' == f') = false := by simpa using hbr.ne
  obtain ⟨c₁, -, c₂, -, c₃, c₄, c₅⟩ := sources_fields (hj.instr cmp (by omega))
  refine ⟨⟨t', s.graph.blockCount, ?_, ?_, ?_, ?_⟩, c₄.trans h.ccode, c₅.trans h.type⟩
  · refine hbr.transfer (hj.lastInst b (by omega)) (fun j hl => ?_) ⟨c₁, c₂⟩ (c₃.trans hbr.inputs) ?_ (by omega)
    · rw [hk.lastInst b hblt] at hl
      obtain ⟨j₁, j₂, -, j₃, -⟩ := sources_fields (hj.instr j (by have := hjlt j hl; omega))
      exact ⟨j₁, j₂, j₃⟩
    · rw [hj.pred_succs, hbr.succs, List.replace_cons, BEq.comm, hne]
      simp
  · rw [throughJump_of_lt ht'] at ht ⊢
    exact ht
  · rw [throughJump_of_lt hf'] at hf
    rw [throughJump, if_neg (by omega), hj.new_succs]
    exact hf
  · rintro (h | h)
    · rw [hv, hvis] at h; cases h
    · rw [hpend] at h; cases h

theorem Keeps.throughJump_jump (h : Keeps g s) {c p q d : Nat} (hc : (s.graph.block c).succs = [p, q])
    (hj : InsertsJump s.graph c q s'.graph) (hd : d < s.graph.blockCount) :
    throughJump g.blockCount s'.graph d = throughJump g.blockCount s.graph d := by
  have hlt := h.lt_of_pair hc
  unfold throughJump
  split
  · rfl
  · rw [hj.succs d (by omega) (by omega)]

theorem BranchState.jump_other (hk : Keeps g s) (hg : Orderable g) (hb : g.BranchAt b cmp x y t f)
    (h : BranchState g b cmp x y t f flip s) {c p q : Nat} (hcb : c ≠ b) (hc : (s.graph.block c).succs = [p, q])
    (hj : InsertsJump s.graph c q s'.graph) (hv : s'.visited = s.visited) (hpend : s'.pending = none) : BranchState g b cmp x y t f flip s' := by
  obtain ⟨hblt, -, -, hcmp, -, hjlt⟩ := BranchAt.lt hg hb
  obtain ⟨t', f', hbr, ht, hf, hold⟩ := h.branch
  have hle := hk.blockCount
  have hli := hk.instrCount
  have hlt : t' < s.graph.blockCount := hk.succs b t' (by simp [hbr.succs])
  have hlf : f' < s.graph.blockCount := hk.succs b f' (by simp [hbr.succs])
  obtain ⟨c₁, -, c₂, -, c₃, c₄, c₅⟩ := sources_fields (hj.instr cmp (by omega))
  refine ⟨⟨t', f', ?_, ?_, ?_, ?_⟩, c₄.trans h.ccode, c₅.trans h.type⟩
  · refine hbr.transfer (hj.lastInst b (by omega)) (fun j hl => ?_) ⟨c₁, c₂⟩ (c₃.trans hbr.inputs) ?_ hbr.ne
    · rw [hk.lastInst b hblt] at hl
      obtain ⟨j₁, j₂, -, j₃, -⟩ := sources_fields (hj.instr j (by have := hjlt j hl; omega))
      exact ⟨j₁, j₂, j₃⟩
    · rw [hj.succs b (Ne.symm hcb) (by omega), hbr.succs]
  · rw [hk.throughJump_jump hc hj hlt, ht]
  · rw [hk.throughJump_jump hc hj hlf, hf]
  · rintro (h | h)
    · exact hold (.inl (by rwa [hv] at h))
    · rw [hpend] at h; cases h

/-! ## An inverted branch -/

/-- The graph after the branch of `c`, with the comparison `i`, has been inverted. -/
structure Inverts (g : Graph) (c i : Nat) (g' : Graph) : Prop where
  block : ∀ d, d ≠ c → g'.block d = g.block d
  succs : ∀ p q, (g.block c).succs = [p, q] → (g'.block c).succs = [q, p]
  lastInst : (g'.block c).lastInst = (g.block c).lastInst
  instr : ∀ j, j ≠ i → g'.instr j = g.instr j
  compare : g'.instr i = { g.instr i with
    ccode := inverseCondCode (g.instr i).ccode
    inputs := match (g.instr i).inputs with
      | [a, b] => [b, a]
      | l => l }
  blockCount : g'.blockCount = g.blockCount
  instrCount : g'.instrCount = g.instrCount

theorem inverts_of_inverseConditionalBranch {g g' : Graph} {c : Nat} (h : g.inverseConditionalBranch c = some g') :
    ∃ i j, (g.block c).lastInst = some j ∧ (g.instr j).opcode = .JCMP ∧ (g.instr j).prev = some i ∧
      g.endsWithConditionalJump c = some (some i) ∧ Inverts g c i g' := by
  obtain ⟨i, hi, rfl⟩ := inverseConditionalBranch_eq_some.1 h
  obtain ⟨j, hl, ho, hp, -⟩ := endsWithConditionalJump_eq_some hi
  refine ⟨i, j, hl, ho, hp, hi, ⟨fun d hd => ?_, fun p q hpq => ?_, ?_, fun j hj => ?_, ?_, rfl, rfl⟩⟩
  · rw [modifyBlock_block_ne _ _ hd]; rfl
  · rw [modifyBlock_block_self]
    simp only [inverse, modifyInstr_block, hpq]
  · rw [modifyBlock_block_self]; rfl
  · rw [modifyBlock_instr, inverse, modifyInstr_instr_ne _ _ hj]
  · exact Function.update_self i _ g.instr

theorem Inverts.fields {g g' : Graph} {c i : Nat} (h : Inverts g c i g') (j : Nat) :
    (g'.instr j).opcode = (g.instr j).opcode ∧ (g'.instr j).prev = (g.instr j).prev ∧
      (g'.instr j).parent = (g.instr j).parent ∧ (g'.instr j).next = (g.instr j).next ∧
      (g'.instr j).type = (g.instr j).type := by
  by_cases hj : j = i
  · subst j; rw [h.compare]; exact ⟨rfl, rfl, rfl, rfl, rfl⟩
  · rw [h.instr j hj]; exact ⟨rfl, rfl, rfl, rfl, rfl⟩

theorem Inverts.lastInst_eq {g g' : Graph} {c i : Nat} (h : Inverts g c i g') (d : Nat) :
    (g'.block d).lastInst = (g.block d).lastInst := by
  by_cases hd : d = c
  · subst d; exact h.lastInst
  · rw [h.block d hd]

theorem Keeps.inverse {c i : Nat} (h : Keeps g s) (h2 : (s.graph.block c).succs.length = 2)
    (hi : Inverts s.graph c i s'.graph) : Keeps g s' := by
  obtain ⟨p, q, hpq⟩ := List.length_eq_two.1 h2
  have hc := h.lt_of_pair hpq
  have hle := h.blockCount
  constructor
  · rw [hi.blockCount]; exact h.blockCount
  · rw [hi.instrCount]; exact h.instrCount
  · intro d e he
    rw [hi.blockCount]
    by_cases hd : d = c
    · subst d
      rw [hi.succs p q hpq] at he
      refine h.succs c e ?_
      rw [hpq]
      simp only [List.mem_cons] at he ⊢
      tauto
    · rw [hi.block d hd] at he
      exact h.succs d e he
  · intro d hd
    rw [hi.blockCount] at hd
    rw [hi.block d (by omega)]
    exact h.unused d hd
  · intro d hd
    rw [hi.block d (by omega)]
    exact h.added d hd
  · intro d hd
    rw [hi.lastInst_eq]
    exact h.lastInst d hd
  · intro j hj
    obtain ⟨h₁, h₂, h₃, -⟩ := hi.fields j
    obtain ⟨k₁, k₂, k₃⟩ := h.instr j hj
    exact ⟨h₁.trans k₁, h₂.trans k₂, h₃.trans k₃⟩

theorem BranchState.inverse_self (h : BranchState g b cmp x y t f flip s) (hi : Inverts s.graph b cmp s'.graph)
    (hv : s'.visited = s.visited) (hp : s'.pending = s.pending) (hk : Keeps g s) :
    BranchState g b cmp x y t f (!flip) s' := by
  obtain ⟨t', f', hbr, ht, hf, hold⟩ := h.branch
  have hb := hk.lt_of_pair hbr.succs
  have through d : throughJump g.blockCount s'.graph d = throughJump g.blockCount s.graph d := by
    unfold throughJump
    split
    · rfl
    · rw [hi.block d (by omega)]
  refine ⟨⟨f', t', ?_, ?_, ?_, ?_⟩, ?_, ?_⟩
  · refine hbr.transfer hi.lastInst (fun j _ => ?_) ?_ ?_ (hi.succs t' f' hbr.succs) hbr.ne.symm
    · obtain ⟨h₁, h₂, h₃, -⟩ := hi.fields j
      exact ⟨h₁, h₂, h₃⟩
    · obtain ⟨h₁, -, -, h₂, -⟩ := hi.fields cmp
      exact ⟨h₁, h₂⟩
    · rw [hi.compare, hbr.inputs]
      cases flip <;> rfl
  · rw [through, hf]
    cases flip <;> rfl
  · rw [through, ht]
    cases flip <;> rfl
  · rw [hv, hp]
    exact fun h => (hold h).symm
  · rw [hi.compare]
    dsimp only
    rw [h.ccode]
    cases flip with
    | false => rfl
    | true => exact inverseCondCode_inverseCondCode _
  · rw [(hi.fields cmp).2.2.2.2, h.type]

theorem BranchState.inverse_other (h : BranchState g b cmp x y t f flip s) {c i : Nat} (hcb : c ≠ b) (hic : i ≠ cmp)
    (h2 : (s.graph.block c).succs.length = 2) (hi : Inverts s.graph c i s'.graph)
    (hv : s'.visited = s.visited) (hp : s'.pending = s.pending) (hk : Keeps g s) :
    BranchState g b cmp x y t f flip s' := by
  obtain ⟨t', f', hbr, ht, hf, hold⟩ := h.branch
  obtain ⟨p, q, hpq⟩ := List.length_eq_two.1 h2
  have hc := hk.lt_of_pair hpq
  have through d : throughJump g.blockCount s'.graph d = throughJump g.blockCount s.graph d := by
    unfold throughJump
    split
    · rfl
    · rw [hi.block d (by omega)]
  have hcmp := hi.instr cmp (Ne.symm hic)
  refine ⟨⟨t', f', ?_, (through t').trans ht, (through f').trans hf, ?_⟩, ?_, ?_⟩
  · refine hbr.transfer (hi.lastInst_eq b) (fun j _ => ?_) ?_ (by rw [hcmp, hbr.inputs])
      (by rw [hi.block b (Ne.symm hcb), hbr.succs]) hbr.ne
    · obtain ⟨h₁, h₂, h₃, -⟩ := hi.fields j
      exact ⟨h₁, h₂, h₃⟩
    · rw [hcmp]; exact ⟨rfl, rfl⟩
  · rw [hv, hp]; exact hold
  · rw [hcmp]; exact h.ccode
  · rw [hcmp]; exact h.type

/-! ## The invariant over a run -/

/-- The branch of `b` has been inverted an odd number of times. -/
def invertedOddly (b : Nat) (as : List Action) : Bool := as.count (.inverse b) % 2 = 1

theorem invertedOddly_append_other (h : a ≠ .inverse b) : invertedOddly b (as ++ [a]) = invertedOddly b as := by
  simp [invertedOddly, List.count_append, h]

theorem invertedOddly_append_self : invertedOddly b (as ++ [.inverse b]) = !invertedOddly b as := by
  simp only [invertedOddly, List.count_append, List.count_singleton_self]
  rcases Nat.mod_two_eq_zero_or_one (as.count (.inverse b)) with h | h <;> simp [Nat.add_mod, h]

/-- Everything the ordering keeps on the way, after the steps `as`. -/
structure Inv (g : Graph) (b : Nat) (cmp x y : Nat) (t f : Nat) (as : List Action) (s : State) : Prop where
  keeps : Keeps g s
  branch : BranchState g b cmp x y t f (invertedOddly b as) s
  pending : ∀ c, s.pending = some c → s.visited c = true

theorem Inv.step (hg : Orderable g) (hb : g.BranchAt b cmp x y t f) (h : Inv g b cmp x y t f as s)
    (hstep : Step s a s') : Inv g b cmp x y t f (as ++ [a]) s' := by
  rcases step_cases hstep with ⟨c, rfl, hnew, hgr, hv, hp⟩ | ⟨c, p, q, rfl, hp, hc, ⟨n, hj⟩, hv, hp'⟩ |
    ⟨c, rfl, hp, h2, hinv, hv, hp'⟩ | ⟨c, rfl, hp, hgr, hv, hp'⟩
  · refine ⟨h.keeps.of_graph_eq hgr, ?_, fun d hd => ?_⟩
    · rw [invertedOddly_append_other (by simp)]
      refine h.branch.of_graph_eq hgr fun hb' => .inl ?_
      rcases hb' with hb' | hb'
      · rw [hv, Function.update_apply] at hb'
        split at hb'
        · cases hb'
        · exact hb'
      · rcases hp with hp | hp
        · rw [hp] at hb'; cases hb'
        · rw [hp] at hb'
          cases hb'
          exact hnew
    · rcases hp with hp | hp
      · rw [hp] at hd; cases hd
      · rw [hp] at hd
        cases hd
        rw [hv, Function.update_self]
  · have hlt := h.keeps.lt_of_pair hc
    obtain ⟨-, hj⟩ := insertJmpBlock_insertsJump (hlt.trans_le h.keeps.blockCount) hj
    refine ⟨h.keeps.jump hc hj, ?_, fun d hd => ?_⟩
    · rw [invertedOddly_append_other (by simp)]
      by_cases hcb : c = b
      · subst hcb
        exact h.branch.jump_self h.keeps hg hb hc hp hj hv (h.pending _ hp) hp'
      · exact h.branch.jump_other h.keeps hg hb hcb hc hj hv hp'
    · rw [hp'] at hd; cases hd
  · obtain ⟨i, j, hl, ho, hpr, he, hi⟩ := inverts_of_inverseConditionalBranch hinv
    refine ⟨h.keeps.inverse h2 hi, ?_, fun d hd => ?_⟩
    · by_cases hcb : c = b
      · subst hcb
        obtain ⟨t', f', hbr, -⟩ := h.branch.branch
        rw [hbr.endsWithConditionalJump] at he
        cases he
        rw [invertedOddly_append_self]
        exact h.branch.inverse_self hi hv (hp'.trans hp.symm) h.keeps
      · rw [invertedOddly_append_other (by simpa using hcb)]
        refine h.branch.inverse_other hcb ?_ h2 hi hv (hp'.trans hp.symm) h.keeps
        rintro rfl
        -- the comparison of another block belongs to that block
        obtain ⟨p, q, hpq⟩ := List.length_eq_two.1 h2
        have hc := h.keeps.lt_of_pair hpq
        rw [h.keeps.lastInst c hc] at hl
        obtain ⟨k₁, k₂, -⟩ := h.keeps.instr j (hg.ends c j hl)
        have := (hg.jumps c j i hl (k₁ ▸ ho) (k₂ ▸ hpr)).2
        rw [(BranchAt.lt hg hb).2.2.2.2.1] at this
        exact hcb (Option.some.inj this).symm
    · rw [hp'] at hd
      cases hd
      rw [hv]
      exact h.pending c hp
  · refine ⟨h.keeps.of_graph_eq hgr, ?_, fun d hd => ?_⟩
    · rw [invertedOddly_append_other (by simp)]
      refine h.branch.of_graph_eq hgr fun hb' => ?_
      rw [hv, hp'] at hb'
      rcases hb' with hb' | hb'
      · exact .inl hb'
      · cases hb'
    · rw [hp'] at hd; cases hd

theorem Inv.start (hg : Orderable g) (hb : g.BranchAt b cmp x y t f) (h : start g = some s) :
    Inv g b cmp x y t f [] s := by
  simp only [LinearOrdering.start, Option.bind_eq_bind, Option.bind_eq_some_iff, Option.pure_def,
    Option.some.injEq] at h
  obtain ⟨first, -, rfl⟩ := h
  obtain ⟨-, ht, hf, -⟩ := BranchAt.lt hg hb
  refine ⟨⟨le_rfl, le_rfl, hg.succs, hg.unused, fun c hc => ?_, fun _ _ => rfl, fun _ _ => ⟨rfl, rfl, rfl⟩⟩,
    ⟨⟨t, f, hb, ?_, ?_, fun _ => ⟨ht, hf⟩⟩, rfl, rfl⟩, fun c hc => ?_⟩
  · rw [hg.unused c hc]; exact Nat.zero_le _
  · exact throughJump_of_lt ht _
  · exact throughJump_of_lt hf _
  · cases hc

theorem Inv.of_run (hg : Orderable g) (hb : g.BranchAt b cmp x y t f) (h : LinearOrdering.start g = some s)
    (hr : Run Step s as s') : Inv g b cmp x y t f as s' :=
  hr.invariant (Inv.start hg hb h) (Inv.step hg hb)

/-! ## The selected successor -/

/-- Whatever the operands are, control comes to the same block of `g` from the end of `b`. -/
def KeepsSelection (g g' : Graph) (b : Nat) : Prop :=
  ∀ env, (g'.selectedSucc env b).bind (throughJump g.blockCount g') = g.selectedSucc env b

theorem BranchState.selectedSucc (h : BranchState g b cmp x y t f flip s) (env : Env) :
    (s.graph.selectedSucc env b).bind (throughJump g.blockCount s.graph) =
      some (if g.outcome cmp (env x) (env y) != (flip && !(g.instr cmp).ccode.isEquality) then t else f) := by
  obtain ⟨t', f', hbr, ht, hf, -⟩ := h.branch
  have houtcome : s.graph.outcome cmp (env (if flip then y else x)) (env (if flip then x else y)) =
      (g.outcome cmp (env x) (env y) != (flip && (g.instr cmp).ccode.isEquality)) := by
    have htype := h.type
    have hcc := h.ccode
    simp only [outcome]
    rw [htype, hcc]
    cases flip with
    | false => simp
    | true =>
        simp only [if_true, Bool.true_and]
        exact CondCode.holds_inverse ..
  rw [hbr.selectedSucc, houtcome, Option.bind_some]
  cases flip <;> cases g.outcome cmp (env x) (env y) <;> cases (g.instr cmp).ccode.isEquality <;> simp_all

theorem BranchState.keepsSelection_iff (hb : g.BranchAt b cmp x y t f) (h : BranchState g b cmp x y t f flip s) :
    KeepsSelection g s.graph b ↔ flip = false ∨ (g.instr cmp).ccode.isEquality = true := by
  have ne := hb.ne
  unfold KeepsSelection
  simp only [h.selectedSucc, hb.selectedSucc, Option.some.injEq]
  constructor
  · intro hall
    have h0 := hall fun _ => 0#64
    generalize g.outcome cmp 0#64 0#64 = o at h0
    cases flip with
    | false => exact .inl rfl
    | true =>
        refine .inr ?_
        cases hq : (g.instr cmp).ccode.isEquality with
        | true => rfl
        | false => cases o <;> simp [hq, ne, ne.symm] at h0
  · rintro (rfl | hq) env
    · simp
    · simp [hq]

/-- Numbering the blocks anew changes neither branches nor edges. -/
theorem setNewOrder_frame (g : Graph) (order : List Nat) : (g.setNewOrder order).instr = g.instr ∧
    ∀ c, ((g.setNewOrder order).block c).succs = (g.block c).succs ∧
      ((g.setNewOrder order).block c).lastInst = (g.block c).lastInst := by
  have fold (l : List (Nat × Nat)) (g : Graph) :
      let g' := l.foldl (fun g p => g.modifyBlock p.1 fun x => { x with id := p.2 }) g
      g'.instr = g.instr ∧ ∀ c, (g'.block c).succs = (g.block c).succs ∧
        (g'.block c).lastInst = (g.block c).lastInst := by
    induction l generalizing g with
    | nil => exact ⟨rfl, fun _ => ⟨rfl, rfl⟩⟩
    | cons p l ih =>
        obtain ⟨hi, hc⟩ := ih (g.modifyBlock p.1 fun x => { x with id := p.2 })
        refine ⟨hi, fun c => ?_⟩
        rw [List.foldl_cons, (hc c).1, (hc c).2, modifyBlock_block]
        split
        · subst c; exact ⟨rfl, rfl⟩
        · exact ⟨rfl, rfl⟩
  exact fold order.zipIdx g

theorem keepsSelection_setNewOrder (g g' : Graph) (order : List Nat) :
    KeepsSelection g (g'.setNewOrder order) b ↔ KeepsSelection g g' b := by
  obtain ⟨hi, hc⟩ := setNewOrder_frame g' order
  have houtcome : (g'.setNewOrder order).outcome = g'.outcome := by
    unfold outcome
    rw [hi]
  have hselected env : (g'.setNewOrder order).selectedSucc env b = g'.selectedSucc env b := by
    simp only [Graph.selectedSucc, endsWithConditionalJump, getInput, destination, houtcome, hi, (hc _).1, (hc _).2]
  unfold KeepsSelection throughJump
  simp only [hselected, (hc _).1]

theorem orderBlocks_run {fuel : Nat} (h : orderBlocks fuel s = some s') : ∃ as, Run Step s as s' := by
  induction fuel generalizing s with
  | zero =>
      simp only [orderBlocks] at h
      split at h
      · cases h; exact ⟨[], .nil⟩
      · cases h
  | succ n ih =>
      simp only [orderBlocks] at h
      split at h
      · cases h; exact ⟨[], .nil⟩
      · simp only [Option.bind_eq_bind, Option.bind_eq_some_iff] at h
        obtain ⟨⟨a, t⟩, ht, h⟩ := h
        obtain ⟨as, hr⟩ := ih h
        exact ⟨a :: as, hr.cons ht⟩

/-- The pass ends a run: what holds of every run holds of its result. -/
theorem run_eq_some {fuel : Nat} {g' : Graph} (h : run fuel g = some g') : ∃ s as s',
    LinearOrdering.start g = some s ∧ Run Step s as s' ∧ g' = s'.graph.setNewOrder s'.newOrder := by
  simp only [run, Option.bind_eq_bind, Option.bind_eq_some_iff, Option.pure_def, Option.some.injEq] at h
  obtain ⟨s, hs, s', hs', rfl⟩ := h
  obtain ⟨as, hr⟩ := orderBlocks_run hs'
  exact ⟨s, as, s', hs, hr, rfl⟩

/-- At every state of every run, and after the blocks have been numbered, a conditional branch selects the block it
selected before exactly when it was inverted an even number of times or compares for equality. -/
theorem linear_ordering_keeps_selection_iff (hg : Orderable g) (hb : g.BranchAt b cmp x y t f)
    (hs : LinearOrdering.start g = some s) (hr : Run Step s as s') :
    (KeepsSelection g s'.graph b ↔ as.count (.inverse b) % 2 = 0 ∨ (g.instr cmp).ccode.isEquality = true) ∧
      (KeepsSelection g (s'.graph.setNewOrder s'.newOrder) b ↔
        as.count (.inverse b) % 2 = 0 ∨ (g.instr cmp).ccode.isEquality = true) := by
  have inv := Inv.of_run hg hb hs hr
  have even : invertedOddly b as = false ↔ as.count (.inverse b) % 2 = 0 := by
    simp [invertedOddly]
  rw [keepsSelection_setNewOrder, inv.branch.keepsSelection_iff hb, even]
  exact ⟨Iff.rfl, Iff.rfl⟩

/-! ## An if without an else -/

/-- `if (x cc y) { } return x;` for arguments `x` and `y`: the false branch joins after the true one. -/
def ifWithoutElse (cc : CondCode) : Graph := ofLists
  [{ opcode := .ARG, type := .I32, next := some 1, parent := some 0, users := [2, 5] },
   { opcode := .ARG, type := .I32, prev := some 0, parent := some 0, users := [2] },
   { opcode := .CMP, type := .I32, ccode := cc, next := some 3, parent := some 1,
     properties := INPUT_SIDE_EFFECTS, inputs := [some 0, some 1] },
   { opcode := .JCMP, type := .I64, prev := some 2, parent := some 1, properties := CF_SIDE_EFFECTS },
   { opcode := .JMP, type := .I64, parent := some 2, properties := CF_SIDE_EFFECTS },
   { opcode := .RET, type := .I32, parent := some 3, properties := .CF ||| .INPUT ||| .SIDE_EFFECTS,
     inputs := [some 0] }]
  [{ id := 0, succs := [1], instrsCount := 2, firstInst := some 0, lastInst := some 1, loop := some 0 },
   { id := 1, preds := [0], succs := [2, 3], instrsCount := 2, firstInst := some 2, lastInst := some 3,
     dominator := some 0, loop := some 0 },
   { id := 2, preds := [1], succs := [3], instrsCount := 1, firstInst := some 4, lastInst := some 4,
     dominator := some 1, loop := some 0 },
   { id := 3, preds := [1, 2], instrsCount := 1, firstInst := some 5, lastInst := some 5,
     dominator := some 1, loop := some 0 }]
  [{ header := none, basicBlocks := [0, 1, 2, 3], isIrreducible := false, isRoot := true }]

theorem ifWithoutElse_branchAt (cc : CondCode) : (ifWithoutElse cc).BranchAt 1 2 0 1 2 3 where
  jump := ⟨3, rfl, rfl, rfl, rfl, rfl⟩
  cmp_opcode := rfl
  inputs := rfl
  succs := rfl
  ne := by decide

theorem ifWithoutElse_orderable (cc : CondCode) : Orderable (ifWithoutElse cc) := by
  have large c (h : 4 ≤ c) : (ifWithoutElse cc).block c = {} := ofLists_block_ge h
  have count : (ifWithoutElse cc).instrCount = 6 := rfl
  refine ⟨fun c d hd => ?_, fun c hc => ?_, fun c j hj => ?_, fun c j i hj ho hp => ?_⟩
  · match c with
    | 0 | 1 | 2 | 3 => revert d; exact of_decide_eq_true (by rfl)
    | c + 4 => rw [large _ (by omega)] at hd; cases hd
  · rw [large c hc]
  · match c with
    | 0 | 1 | 2 | 3 => cases hj; rw [count]; decide
    | c + 4 => rw [large _ (by omega)] at hj; cases hj
  · match c with
    | 0 => cases hj; cases ho
    | 1 => cases hj; cases hp; exact ⟨by rw [count]; decide, rfl⟩
    | 2 | 3 => cases hj; cases ho
    | c + 4 => rw [large _ (by omega)] at hj; cases hj

/-- The actions of the first `n` steps. -/
def trace : Nat → State → Option (List Action × State)
  | 0, s => some ([], s)
  | n + 1, s => do
      let (a, s) ← s.step
      let (as, s) ← trace n s
      return (a :: as, s)

theorem trace_run {n : Nat} (h : trace n s = some (as, s')) : Run Step s as s' := by
  induction n generalizing s as with
  | zero => cases h; exact .nil
  | succ n ih =>
      simp only [trace, Option.bind_eq_bind, Option.bind_eq_some_iff, Option.pure_def, Option.some.injEq,
        Prod.mk.injEq] at h
      obtain ⟨⟨a, t⟩, ht, ⟨bs, u⟩, hu, rfl, rfl⟩ := h
      exact (ih hu).cons ht

theorem linear_ordering_keeps_equality : ∃ s s', LinearOrdering.start (ifWithoutElse .EQ) = some s ∧
    Run Step s [.visit 0, .visit 1, .inverse 1, .queue 1, .visit 2, .visit 3] s' ∧
    KeepsSelection (ifWithoutElse .EQ) (s'.graph.setNewOrder s'.newOrder) 1 := by
  have ht : (trace 6 { graph := ifWithoutElse .EQ, remainedBlocks := [0] }).map Prod.fst =
      some [.visit 0, .visit 1, .inverse 1, .queue 1, .visit 2, .visit 3] := by decide
  obtain ⟨⟨as, s'⟩, hs', rfl⟩ := Option.map_eq_some_iff.1 ht
  exact ⟨_, s', rfl, trace_run hs', (linear_ordering_keeps_selection_iff (ifWithoutElse_orderable .EQ)
    (ifWithoutElse_branchAt .EQ) rfl (trace_run hs')).2.2 (.inr rfl)⟩

/-- `x < y` is inverted to `y > x` with the branches exchanged: for equal operands control goes to the other block. -/
theorem linear_ordering_less_wrong : ∃ g', run 10 (ifWithoutElse .LT) = some g' ∧
    ¬ KeepsSelection (ifWithoutElse .LT) g' 1 := by
  have after : (run 10 (ifWithoutElse .LT)).map
      (fun g' => (g'.selectedSucc (fun _ => 0) 1).bind (throughJump 4 g')) = some (some 2) := by decide
  obtain ⟨g', hg', hsel⟩ := Option.map_eq_some_iff.1 after
  refine ⟨g', hg', fun h => ?_⟩
  have before : (ifWithoutElse .LT).selectedSucc (fun _ => 0) 1 = some 3 := by decide
  have := h fun _ => 0
  rw [before] at this
  exact absurd (hsel.symm.trans this) (by decide)

end LinearOrdering

end CompilerLab.Jit
