import CompilerLab.Jit.Lemmas.SplitBlock
import CompilerLab.Jit.Theorems.InstructionList
import CompilerLab.Jit.Theorems.PhiEdges

/-!
# Splitting a block

`SplitAfterInstruction` takes a block apart as it should when it is not asked to connect the parts, no successor has phis, and the
split is not right behind the phis.
-/

namespace CompilerLab.Jit.Graph

open CompilerLab.Lib

variable {g g' : Graph} {b c i m n t : Nat} {phis rest l l₁ l₂ : List Nat} {connect : Bool}

/-- Block `b` has been split behind `i`; what came after is in `n`, with the edges. -/
structure Splits (g : Graph) (b i : Nat) (connect : Bool) (n : Nat) (g' : Graph) : Prop where
  instrs : g'.instrs b ++ g'.instrs n = g.instrs b
  behind : (g'.instrs b).getLast? = some i
  old : g'.WellLinked b
  new : g'.WellLinked n
  old_parent : ∀ j ∈ g'.instrs b, (g'.instr j).parent = some b
  new_parent : ∀ j ∈ g'.instrs n, (g'.instr j).parent = some n
  new_succs : (g'.block n).succs = (g.block b).succs
  preds : ∀ t ∈ (g.block b).succs, (g'.block t).preds.Perm (n :: (g.block t).preds.erase b)
  sources : ∀ t ∈ (g.block b).succs, ∀ phi ∈ g.phis t,
    n ∈ (g'.instr phi).sourceBBlocks ∧ b ∉ (g'.instr phi).sourceBBlocks
  old_succs : (g'.block b).succs = if connect then [n] else []
  new_preds : (g'.block n).preds = if connect then [b] else []

/-! ## The ends of the segments -/

/-- The blocks differ in the ends of their segments only. -/
structure EndsOnly (g g' : Graph) : Prop where
  block : ∀ c, (g'.block c).succs = (g.block c).succs ∧ (g'.block c).preds = (g.block c).preds ∧
    (g'.block c).instrsCount = (g.block c).instrsCount
  instr : g'.instr = g.instr
  instrCount : g'.instrCount = g.instrCount

theorem endsOnly_modify {f k : BasicBlock → BasicBlock}
    (hf : ∀ x, (f x).succs = x.succs ∧ (f x).preds = x.preds ∧ (f x).instrsCount = x.instrsCount)
    (hk : ∀ x, (k x).succs = x.succs ∧ (k x).preds = x.preds ∧ (k x).instrsCount = x.instrsCount) :
    EndsOnly g ((g.modifyBlock n f).modifyBlock b k) := by
  have one : ∀ (u : Graph) (d : Nat) (w : BasicBlock → BasicBlock),
      (∀ x, (w x).succs = x.succs ∧ (w x).preds = x.preds ∧ (w x).instrsCount = x.instrsCount) → ∀ c,
      ((u.modifyBlock d w).block c).succs = (u.block c).succs ∧ ((u.modifyBlock d w).block c).preds = (u.block c).preds ∧
        ((u.modifyBlock d w).block c).instrsCount = (u.block c).instrsCount := by
    intro u d w hw c
    rw [modifyBlock_block]
    split_ifs with hc
    · rw [hc]
      exact hw _
    · exact ⟨rfl, rfl, rfl⟩
  refine ⟨fun c => ?_, rfl, rfl⟩
  obtain ⟨h₁, h₂, h₃⟩ := one g n f hf c
  obtain ⟨k₁, k₂, k₃⟩ := one (g.modifyBlock n f) b k hk c
  exact ⟨k₁.trans h₁, k₂.trans h₂, k₃.trans h₃⟩

theorem splitEnds_endsOnly (h : g.splitEnds b n i m = some g') : EndsOnly g g' := by
  rw [splitEnds] at h
  dsimp only at h
  split_ifs at h with hphi
  · simp only [Option.bind_eq_bind, ASSERT_bind, Option.pure_def, Option.some.injEq] at h
    obtain ⟨-, rfl⟩ := h
    exact endsOnly_modify (fun _ => ⟨rfl, rfl, rfl⟩) fun _ => ⟨rfl, rfl, rfl⟩
  · cases h
    exact endsOnly_modify (fun _ => ⟨rfl, rfl, rfl⟩) fun _ => ⟨rfl, rfl, rfl⟩

theorem moveInstructions_succs {fuel : Nat} {cur : Option Nat} (h : moveInstructions n fuel g cur = some g') :
    (g'.block c).succs = (g.block c).succs := by
  induction fuel generalizing g cur with
  | zero =>
      cases cur with
      | none => cases h; rfl
      | some j => cases h
  | succ fuel ih =>
      cases cur with
      | none => cases h; rfl
      | some j =>
          rw [moveInstructions] at h
          rw [ih h, modifyBlock_succs (by exact fun _ => rfl)]
          rfl

theorem split_tail {k : Nat} (h : (do
    let u := ((g.modifyBlock b fun x => { x with succs := [] }).setNext i none).setPrev m none
    let u ← moveInstructions k u.instrCount u (some m)
    let u := u.modifyBlock b fun x => { x with instrsCount := x.instrsCount - (u.block k).instrsCount }
    let u ← u.splitEnds b k i m
    return (u, k)) = some (g', n)) : (g'.block b).succs = [] := by
  simp only [Option.bind_eq_bind, Option.bind_eq_some_iff, Option.pure_def, Option.some.injEq, Prod.mk.injEq] at h
  obtain ⟨u, hmove, v, hends, rfl, -⟩ := h
  rw [((splitEnds_endsOnly hends).block b).1, modifyBlock_succs (by exact fun _ => rfl), moveInstructions_succs hmove]
  simp [setPrev, setNext]

/-- Whatever has been asked for, the old block ends up without successors. -/
theorem splitAfterInstruction_succs (h : g.splitAfterInstruction b i connect = some (g', n)) : (g'.block b).succs = [] := by
  rw [splitAfterInstruction] at h
  simp only [Option.bind_eq_bind, Option.bind_eq_some_iff] at h
  obtain ⟨-, -, m, -, ⟨g₁, k⟩, -, h⟩ := h
  dsimp only at h
  split at h
  · obtain ⟨g₂, -, h⟩ := Option.bind_eq_some_iff.mp h
    split at h
    · obtain ⟨g₃, -, h⟩ := Option.bind_eq_some_iff.mp h
      obtain ⟨g₄, -, h⟩ := Option.bind_eq_some_iff.mp h
      exact split_tail h
    · obtain ⟨g₃, -, h⟩ := Option.bind_eq_some_iff.mp h
      obtain ⟨g₄, -, h⟩ := Option.bind_eq_some_iff.mp h
      exact split_tail h
  · obtain ⟨g₂, -, h⟩ := Option.bind_eq_some_iff.mp h
    split at h
    · obtain ⟨g₃, -, h⟩ := Option.bind_eq_some_iff.mp h
      obtain ⟨g₄, -, h⟩ := Option.bind_eq_some_iff.mp h
      exact split_tail h
    · obtain ⟨g₃, -, h⟩ := Option.bind_eq_some_iff.mp h
      obtain ⟨g₄, -, h⟩ := Option.bind_eq_some_iff.mp h
      exact split_tail h

/-! ## The two parts -/

namespace SplitOff

variable {g₁ : Graph} {phis₁ rest₁ : List Nat}

theorem old_listed (hs : SplitOff g b i m l₂ g₁) (hb : b ≠ g.blockCount) (hl : g.Listed b phis rest)
    (heq : phis ++ rest = l₁ ++ i :: m :: l₂) (heq₁ : phis₁ ++ rest₁ = l₁ ++ [i]) (hends : EndsOnly g₁ g')
    (firstPhi : (g'.block b).firstPhi = phis₁.head?) (lastPhi : (g'.block b).lastPhi = phis₁.getLast?)
    (firstInst : (g'.block b).firstInst = rest₁.head?) (lastInst : (g'.block b).lastInst = rest₁.getLast?)
    (hphis : ∀ j ∈ phis₁, (g.instr j).isPhi = true) (hrest : ∀ j ∈ rest₁, (g.instr j).isPhi = false) :
    g'.Listed b phis₁ rest₁ := by
  have hassoc : phis ++ rest = (l₁ ++ [i]) ++ m :: l₂ := by simp [heq]
  have hnodup := hl.nodup
  rw [hassoc] at hnodup
  have hout : ∀ j ∈ l₁ ++ [i], j ∉ m :: l₂ := fun j hj hmem => List.disjoint_of_nodup_append hnodup hj hmem
  have hmem : ∀ j ∈ l₁ ++ [i], j ∈ phis ++ rest := fun j hj => hassoc ▸ List.mem_append_left _ hj
  refine ⟨⟨firstPhi, lastPhi, firstInst, lastInst, ?_, fun j hj => ?_, fun j hj => ?_, fun j hj => ?_, fun j hj => ?_⟩, ?_,
    fun j hj => ?_⟩
  · have hchain := hl.chain
    rw [hassoc] at hchain
    rw [heq₁]
    refine hchain.front (fun j _ => ?_) (fun j hj => ?_)
    · simp [hends.instr, hs.instr, eq_comm]
    · have hjm : j ≠ m := fun he => hout j hj (he ▸ List.mem_cons_self)
      simp [hends.instr, hs.instr, hjm]
  · rw [heq₁] at hj
    rw [hends.instr, hs.instr]
    dsimp only
    rw [if_neg (hout j hj)]
    exact hl.parent j (hmem j hj)
  · rw [hends.instr, hs.instr]
    exact hphis j hj
  · rw [hends.instr, hs.instr]
    exact hrest j hj
  · rw [heq₁] at hj
    rw [hends.instrCount, hs.instrCount]
    exact hl.lt j (hmem j hj)
  · rw [(hends.block b).2.2, hs.block b hb]
    dsimp only
    rw [if_pos rfl, hl.count, hassoc, heq₁, List.length_append]
    omega
  · rw [hends.instr, hs.instr] at hj
    dsimp only at hj
    split_ifs at hj with hj'
    · exact absurd (Option.some.inj hj).symm hb
    · have := hl.complete j hj
      rw [hassoc, List.mem_append] at this
      rw [heq₁]
      exact this.resolve_right hj'

theorem new_listed (hs : SplitOff g b i m l₂ g₁) (h : g.Lists) (hf : g.Fresh) (hl : g.Listed b phis rest)
    (heq : phis ++ rest = l₁ ++ i :: m :: l₂) (heq₁ : phis₁ ++ rest₁ = m :: l₂) (hends : EndsOnly g₁ g')
    (firstPhi : (g'.block g.blockCount).firstPhi = phis₁.head?) (lastPhi : (g'.block g.blockCount).lastPhi = phis₁.getLast?)
    (firstInst : (g'.block g.blockCount).firstInst = rest₁.head?)
    (lastInst : (g'.block g.blockCount).lastInst = rest₁.getLast?)
    (hphis : ∀ j ∈ phis₁, (g.instr j).isPhi = true) (hrest : ∀ j ∈ rest₁, (g.instr j).isPhi = false) :
    g'.Listed g.blockCount phis₁ rest₁ := by
  have hassoc : phis ++ rest = (l₁ ++ [i]) ++ m :: l₂ := by simp [heq]
  have hnodup := hl.nodup
  rw [hassoc] at hnodup
  refine ⟨⟨firstPhi, lastPhi, firstInst, lastInst, ?_, fun j hj => ?_, fun j hj => ?_, fun j hj => ?_, fun j hj => ?_⟩, ?_,
    fun j hj => ?_⟩
  · have hchain := hl.chain
    rw [hassoc] at hchain
    rw [heq₁]
    refine hchain.back (fun j hj => ?_) (fun j _ => ?_)
    · have hji : j ≠ i := fun he => List.disjoint_of_nodup_append hnodup (by simp [he]) hj
      simp [hends.instr, hs.instr, hji]
    · simp [hends.instr, hs.instr, eq_comm]
  · rw [heq₁] at hj
    rw [hends.instr, hs.instr]
    dsimp only
    rw [if_pos hj]
  · rw [hends.instr, hs.instr]
    exact hphis j hj
  · rw [hends.instr, hs.instr]
    exact hrest j hj
  · rw [heq₁] at hj
    rw [hends.instrCount, hs.instrCount]
    exact hl.lt j (hassoc ▸ List.mem_append_right _ hj)
  · rw [(hends.block _).2.2, hs.new, heq₁]
  · rw [hends.instr, hs.instr] at hj
    dsimp only at hj
    rw [heq₁]
    split_ifs at hj with hj'
    · exact hj'
    · have hmem := h.mem_instrs.mpr hj
      rw [hf.empty] at hmem
      cases hmem

/-- The edges of the parts. -/
theorem splits (hs : SplitOff g b i m l₂ g₁) (hb : b ≠ g.blockCount) (hg : g.Connected) (hf : g.Fresh)
    (hl : g.Listed b phis rest) (heq : phis ++ rest = l₁ ++ i :: m :: l₂) (hends : EndsOnly g₁ g')
    (hphis : ∀ t ∈ (g.block b).succs, g.phis t = []) {p₁ r₁ p₂ r₂ : List Nat} (hold : g'.Listed b p₁ r₁)
    (hnew : g'.Listed g.blockCount p₂ r₂) (heq₁ : p₁ ++ r₁ = l₁ ++ [i]) (heq₂ : p₂ ++ r₂ = m :: l₂) :
    Splits g b i false g.blockCount g' where
  instrs := by
    rw [hold.instrs_eq, hnew.instrs_eq, hl.instrs_eq, heq₁, heq₂, heq]
    simp
  behind := by
    rw [hold.instrs_eq, heq₁]
    simp
  old := hold.wellLinked
  new := hnew.wellLinked
  old_parent := by
    rw [hold.instrs_eq]
    exact hold.parent
  new_parent := by
    rw [hnew.instrs_eq]
    exact hnew.parent
  new_succs := by rw [(hends.block _).1, hs.new]
  preds t ht := by
    have htn : t ≠ g.blockCount := fun he => hf.loose.not_succ hg b (he ▸ ht)
    have hperm := swapErase_perm ((hg.edges b t).mp ht)
    rw [(hends.block t).2.1, hs.block t htn, if_pos ht]
    exact (List.perm_append_singleton _ _).trans (hperm.cons _)
  sources t ht phi hphi := by
    rw [hphis t ht] at hphi
    cases hphi
  old_succs := by
    rw [(hends.block b).1, hs.block b hb]
    exact if_pos rfl
  new_preds := by
    rw [(hends.block _).2.1, hs.new]
    rfl

end SplitOff

theorem splitEnds_phi (hm : (g.instr m).isPhi = true) (hi : (g.instr i).isPhi = true) :
    g.splitEnds b n i m = some ((g.modifyBlock n fun x => { x with
      firstPhi := some m, lastPhi := (g.block b).lastPhi, firstInst := (g.block b).firstInst
      lastInst := (g.block b).lastInst }).modifyBlock b fun x =>
        { x with lastPhi := some i, firstInst := none, lastInst := none }) := by
  rw [splitEnds, if_pos hm, ASSERT_of hi]
  rfl

theorem splitEnds_inst (hm : (g.instr m).isPhi = false) : g.splitEnds b n i m = some ((g.modifyBlock n fun x =>
    { x with firstInst := some m, lastInst := (g.block b).lastInst }).modifyBlock b fun x => { x with lastInst := some i }) := by
  rw [splitEnds, if_neg (by rw [hm]; exact Bool.false_ne_true)]

/-- Splitting between two phis, or behind an instruction that is none. -/
theorem splitAfterInstruction_splits (h : g.Lists) (hg : g.Connected) (hf : g.Fresh) (hi : (g.instr i).parent = some b)
    (hm : (g.instr i).next = some m) (hphis : ∀ t ∈ (g.block b).succs, g.phis t = [])
    (hkind : (g.instr i).isPhi = true → (g.instr m).isPhi = true) :
    ∃ g', g.splitAfterInstruction b i false = some (g', g.blockCount) ∧ Splits g b i false g.blockCount g' := by
  obtain ⟨phis, rest, hl⟩ := h.listed b
  obtain ⟨l₁, l, heq⟩ := List.append_of_mem (hl.complete i hi)
  have hnext := hl.next_eq heq
  rw [hm] at hnext
  cases l with
  | nil => cases hnext
  | cons m' l₂ =>
      obtain rfl : m = m' := Option.some.inj hnext
      have hb := hf.ne h hi
      have heq' : phis ++ rest = (l₁ ++ [i]) ++ m :: l₂ := by simp [heq]
      obtain ⟨g₁, hrun, hs⟩ := splitAfterInstruction_start h hg hf hl heq
      have hopcode : ∀ j, (g₁.instr j).isPhi = (g.instr j).isPhi := fun j => by
        rw [Instruction.isPhi, hs.instr]
        rfl
      have hold := hs.block b hb
      cases hkindm : (g.instr m).isPhi with
      | true =>
          obtain ⟨r, rfl, rfl⟩ := hl.split_phi heq' hkindm
          have hkindi : (g.instr i).isPhi = true := hl.isPhi i (by simp)
          have hsplit := splitEnds_phi (b := b) (n := g.blockCount) ((hopcode m).trans hkindm) ((hopcode i).trans hkindi)
          have hends := splitEnds_endsOnly hsplit
          have hlold := hs.old_listed hb hl heq (List.append_nil (l₁ ++ [i])) hends
            (by simp [hb, hold, hl.firstPhi, List.head?_append]) (by simp) (by simp) (by simp)
            (fun j hj => hl.isPhi j (List.mem_append_left _ hj)) (List.forall_mem_nil _)
          have hcons : m :: r ++ rest = m :: (r ++ rest) := rfl
          have hlnew := hs.new_listed h hf hl heq hcons hends
            (by simp [hb.symm]) (by simp [hb.symm, hold, hl.lastPhi, List.getLast?_append, List.getLast?_cons])
            (by simp [hb.symm, hold, hl.firstInst]) (by simp [hb.symm, hold, hl.lastInst])
            (fun j hj => hl.isPhi j (List.mem_append_right _ hj)) hl.notPhi
          exact ⟨_, by rw [hrun, hsplit]; rfl, hs.splits hb hg hf hl heq hends hphis hlold hlnew (List.append_nil _) rfl⟩
      | false =>
          have hkindi : (g.instr i).isPhi = false := by
            cases hki : (g.instr i).isPhi with
            | false => rfl
            | true => exact absurd (hkind hki) (by rw [hkindm]; exact Bool.false_ne_true)
          obtain ⟨r, rfl, rfl⟩ := hl.split_inst heq hkindi
          have hsplit := splitEnds_inst (b := b) (n := g.blockCount) (i := i) ((hopcode m).trans hkindm)
          have hends := splitEnds_endsOnly hsplit
          have hlold := hs.old_listed hb hl heq (List.append_assoc phis r [i]).symm hends
            (by simp [hb, hold, hl.firstPhi]) (by simp [hb, hold, hl.lastPhi]) (by simp [hb, hold, hl.firstInst, List.head?_append])
            (by simp) hl.isPhi (fun j hj => hl.notPhi j (by
              rw [List.mem_append, List.mem_singleton] at hj
              simp only [List.mem_append, List.mem_cons]
              tauto))
          have hlnew := hs.new_listed h hf hl heq (List.nil_append (m :: l₂)) hends
            (by simp [hb.symm, hs.new]) (by simp [hb.symm, hs.new]) (by simp [hb.symm])
            (by simp [hb.symm, hold, hl.lastInst, List.getLast?_append, List.getLast?_cons])
            (List.forall_mem_nil _)
            (fun j hj => hl.notPhi j (by simp only [List.mem_append, List.mem_cons] at hj ⊢; tauto))
          exact ⟨_, by rw [hrun, hsplit]; rfl,
            hs.splits hb hg hf hl heq hends hphis hlold hlnew (List.append_assoc _ _ _).symm rfl⟩

theorem splitAfterInstruction_iff (h : g.Lists) (hg : g.Connected) (hf : g.Fresh)
    (hstep : ∀ t ∈ (g.block b).succs, g.InStep t (g.phis t)) (hi : (g.instr i).parent = some b)
    (hm : (g.instr i).next = some m) :
    (∃ g' n, g.splitAfterInstruction b i connect = some (g', n) ∧ Splits g b i connect n g') ↔
      connect = false ∧ (∀ t ∈ (g.block b).succs, g.phis t = []) ∧
        ((g.instr i).isPhi = true → (g.instr m).isPhi = true) := by
  constructor
  · rintro ⟨g', n, hrun, hsplits⟩
    cases connect with
    | true =>
        have hnone := splitAfterInstruction_succs hrun
        rw [hsplits.old_succs] at hnone
        cases hnone
    | false =>
        obtain ⟨phis, rest, hl⟩ := h.listed b
        obtain ⟨l₁, l, heq⟩ := List.append_of_mem (hl.complete i hi)
        have hnext := hl.next_eq heq
        rw [hm] at hnext
        cases l with
        | nil => cases hnext
        | cons m' l₂ =>
            obtain rfl : m = m' := Option.some.inj hnext
            have hb := hf.ne h hi
            obtain ⟨g₁, hstart, hs⟩ := splitAfterInstruction_start h hg hf hl heq
            rw [hrun] at hstart
            obtain ⟨u, hends, hu⟩ := Option.map_eq_some_iff.mp hstart.symm
            obtain ⟨rfl, rfl⟩ := Prod.mk.inj hu
            have honly := splitEnds_endsOnly hends
            refine ⟨rfl, fun t ht => ?_, fun hki => ?_⟩
            · -- the sources are the predecessors the successor had
              refine List.eq_nil_iff_forall_not_mem.mpr fun phi hphi => ?_
              have hmem := (hsplits.sources t ht phi hphi).1
              rw [honly.instr, hs.instr] at hmem
              exact hf.loose.not_pred hg t (((hstep t ht).sources phi hphi).mem_iff.mp hmem)
            · by_contra hkm
              have hkm' : (g₁.instr m).isPhi = false := by
                rw [Instruction.isPhi, hs.instr]
                exact Bool.eq_false_of_not_eq_true hkm
              -- the old block keeps `m` as its first instruction
              rw [splitEnds_inst hkm', Option.some.injEq] at hends
              have hfirst : (u.block b).firstInst = some m := by
                have heq' : phis ++ rest = (l₁ ++ [i]) ++ m :: l₂ := by simp [heq]
                obtain ⟨r, hphis, hrest⟩ := hl.split_inst heq' (Bool.eq_false_of_not_eq_true hkm)
                have hr : r = [] := by
                  cases r using List.reverseRecOn with
                  | nil => rfl
                  | append_singleton r x =>
                      rw [← List.append_assoc] at hphis
                      obtain rfl : i = x := by simpa using (List.append_inj' hphis rfl).2
                      have := hl.notPhi i (by simp [hrest])
                      rw [hki] at this
                      cases this
                have hmfirst : (g.block b).firstInst = some m := by
                  rw [hl.firstInst, hrest, hr]
                  rfl
                rw [← hends]
                simp [hb, hs.block b hb, hmfirst]
              have hmem : m ∈ u.instrs b := by
                have hhead := hsplits.old.firstInst.symm.trans hfirst
                exact List.mem_of_mem_drop (List.mem_of_mem_head? hhead)
              have hparent := hsplits.old_parent m hmem
              rw [honly.instr, hs.instr] at hparent
              dsimp only at hparent
              rw [if_pos List.mem_cons_self] at hparent
              exact hb (Option.some.inj hparent).symm
  · rintro ⟨rfl, hphis, hkind⟩
    obtain ⟨g', hrun, hsplits⟩ := splitAfterInstruction_splits h hg hf hi hm hphis hkind
    exact ⟨g', _, hrun, hsplits⟩

/-- Whatever block is split, and wherever. -/
theorem split_block_iff (h : g.Lists) (hg : g.Connected) (hf : g.Fresh) (hs : ∀ t, g.InStep t (g.phis t)) :
    ∀ b i m connect, (g.instr i).parent = some b → (g.instr i).next = some m →
      ((∃ g' n, g.splitAfterInstruction b i connect = some (g', n) ∧ Splits g b i connect n g') ↔
        connect = false ∧ (∀ t ∈ (g.block b).succs, g.phis t = []) ∧
          ((g.instr i).isPhi = true → (g.instr m).isPhi = true)) :=
  fun _ _ _ _ hi hm => splitAfterInstruction_iff h hg hf (fun t _ => hs t) hi hm

theorem twoPhis_fresh : twoPhis.Fresh := ⟨⟨by decide, by decide⟩, by decide, fun _ => List.not_mem_nil⟩

theorem split_block_iff_between : ∃ g' n, twoPhis.splitAfterInstruction 3 5 false = some (g', n) ∧
    Splits twoPhis 3 5 false n g' := by
  have hnone : (twoPhis.block 3).succs = [] := by decide
  refine (split_block_iff twoPhis_lists twoPhis_connected twoPhis_fresh twoPhis_inStep 3 5 6 false
    (by decide) (by decide)).mpr ⟨rfl, ?_, by decide⟩
  rw [hnone]
  exact nofun

/-- The parts are not connected, the sources in the successors are not renamed, and behind the phis the ends are wrong. -/
theorem splitAfterInstruction_wrong :
    (¬ ∃ g' n, twoPhis.splitAfterInstruction 3 7 true = some (g', n) ∧ Splits twoPhis 3 7 true n g') ∧
    (¬ ∃ g' n, twoPhis.splitAfterInstruction 1 2 false = some (g', n) ∧ Splits twoPhis 1 2 false n g') ∧
    ¬ ∃ g' n, twoPhis.splitAfterInstruction 3 6 false = some (g', n) ∧ Splits twoPhis 3 6 false n g' := by
  have hstep : ∀ b, ∀ t ∈ (twoPhis.block b).succs, twoPhis.InStep t (twoPhis.phis t) := fun _ t _ => twoPhis_inStep t
  refine ⟨fun h => ?_, fun h => ?_, fun h => ?_⟩
  · have hiff := (splitAfterInstruction_iff (m := 8) twoPhis_lists twoPhis_connected twoPhis_fresh (hstep 3) (by decide)
      (by decide)).mp h
    cases hiff.1
  · have hiff := (splitAfterInstruction_iff (m := 3) twoPhis_lists twoPhis_connected twoPhis_fresh (hstep 1) (by decide)
      (by decide)).mp h
    have hphis := hiff.2.1 3 (by decide)
    revert hphis
    decide
  · have hiff := (splitAfterInstruction_iff (m := 7) twoPhis_lists twoPhis_connected twoPhis_fresh (hstep 3) (by decide)
      (by decide)).mp h
    have hkind := hiff.2.2 (by decide)
    revert hkind
    decide

end CompilerLab.Jit.Graph
