import CompilerLab.Jit.LinearScanRegAlloc
import Mathlib.Data.List.Pairwise

/-!
# When linear scan allocates

The pass asserts that the register file is not full after it has taken a register, so it never gets to spill: it ends
exactly when fewer intervals than registers are live at once. Then intervals that overlap have different registers.
-/

namespace CompilerLab.Jit.LinearScan

/-! ## What is claimed and when it holds -/

/-- A register of the machine or a stack slot. -/
def IsLocation (regsCount : Nat) (loc : ValueLocation) : Prop :=
  loc.type = .REGISTER ∧ loc.id < regsCount ∨ loc.type = .STACK

/-- The intervals are taken in the order of their begins, and the allocation ends with a register or a slot for each of
them, no two that overlap having the same. -/
def Valid (regsCount : Nat) (ivs : List LiveInterval) : Prop :=
  (iterate ivs).Pairwise (fun a b => a.1.getBegin ≤ b.1.getBegin) ∧
  ∃ location, allocateAndAssignRegs regsCount ivs = some location ∧
    (∀ i < ivs.length, IsLocation regsCount (location i)) ∧
    ∀ i j a b, ivs[i]? = some a → ivs[j]? = some b → i ≠ j → a.Overlap b → location i ≠ location j

/-- The intervals of `before` that have not ended where `iv` begins. -/
def liveAt (before : List IntervalPtr) (iv : IntervalPtr) : List IntervalPtr :=
  before.filter fun a => iv.1.getBegin < a.1.getEnd

/-- Where each interval begins, it and the intervals before it that are live are fewer than the registers. -/
def Fits (capacity : Nat) (before : List IntervalPtr) : List IntervalPtr → Prop
  | [] => True
  | iv :: rest => (liveAt before iv).length + 1 < capacity ∧ Fits capacity (before ++ [iv]) rest

instance Fits.decidable (capacity : Nat) : ∀ before order, Decidable (Fits capacity before order)
  | _, [] => isTrue trivial
  | before, iv :: rest =>
      have := Fits.decidable capacity (before ++ [iv]) rest
      inferInstanceAs (Decidable (_ ∧ _))

/-- The register count has defined masks, the intervals are stored by descending begin, and they leave a register
free. -/
def Allocatable (regsCount : Nat) (ivs : List LiveInterval) : Prop :=
  RegMap.Supported regsCount ∧ ivs.Pairwise (fun a b => b.getBegin ≤ a.getBegin) ∧
    Fits (RegMap.capacity regsCount) [] (iterate ivs)

/-! ## The invariant -/

/-- Intervals compared by end, the order of the active list. -/
abbrev endsBefore (a b : IntervalPtr) : Prop := a.1.getEnd ≤ b.1.getEnd

instance : Std.Total endsBefore := ⟨fun _ _ => Nat.le_total _ _⟩

instance : IsTrans IntervalPtr endsBefore := ⟨fun _ _ _ => Nat.le_trans⟩

variable {regsCount : Nat} {s s' : State} {before : List IntervalPtr} {iv : IntervalPtr}

/-- The registers of the active intervals. -/
def heldBy (location : Nat → ValueLocation) (active : List IntervalPtr) : Finset Nat :=
  (active.map fun a => (location a.2).id).toFinset

/-- The active list, the register map and the locations fit together: the active intervals are sorted by end and have
different registers, the map holds exactly these, and no two intervals met so far that overlap share one. -/
structure Linked (regsCount : Nat) (before : List IntervalPtr) (s : State) : Prop where
  map : s.regMap.For regsCount
  sorted : s.active.Pairwise fun a b => a.1.getEnd ≤ b.1.getEnd
  active : ∀ a ∈ s.active, a ∈ before
  registers : ∀ a ∈ before, (s.location a.2).type = .REGISTER ∧ (s.location a.2).id < RegMap.capacity regsCount
  distinct : (s.active.map fun a => (s.location a.2).id).Nodup
  holds : s.regMap.Holds (heldBy s.location s.active)
  disjoint : before.Pairwise fun a b => a.1.Overlap b.1 → s.location a.2 ≠ s.location b.2

/-- The invariant of the loop: whatever is still live at a later begin is active, and a register is free. -/
structure Inv (regsCount : Nat) (before : List IntervalPtr) (begin : Nat) (s : State) : Prop where
  linked : Linked regsCount before s
  live : ∀ b, begin ≤ b → (s.active.filter fun a => b < a.1.getEnd).Perm (before.filter fun a => b < a.1.getEnd)
  room : s.active.length < RegMap.capacity regsCount

namespace Linked

theorem held_subset (h : Linked regsCount before s) :
    heldBy s.location s.active ⊆ Finset.range (RegMap.capacity regsCount) := by
  intro r hr
  simp only [heldBy, List.mem_toFinset, List.mem_map] at hr
  obtain ⟨a, ha, rfl⟩ := hr
  exact Finset.mem_range.2 (h.registers a (h.active a ha)).2

theorem card_held (h : Linked regsCount before s) : (heldBy s.location s.active).card = s.active.length := by
  rw [heldBy, List.toFinset_card_of_nodup h.distinct, List.length_map]

/-- The register map is full when as many intervals are active as there are registers. -/
theorem isFull_iff (h : Linked regsCount before s) :
    s.regMap.isFull = true ↔ s.active.length = RegMap.capacity regsCount := by
  rw [RegMap.isFull_iff h.map h.holds h.held_subset]
  constructor
  · intro he
    rw [← h.card_held, he, Finset.card_range]
  · intro hl
    exact Finset.eq_of_subset_of_card_le h.held_subset (by rw [Finset.card_range, h.card_held, hl])

end Linked

/-! ## Expiry -/

/-- Expiry drops the intervals that have ended and gives their registers back. -/
theorem expireFrom_spec (begin : Nat) {l : List IntervalPtr} {s : State}
    (h : Linked regsCount before { s with active := l }) : ∃ s', State.expireFrom begin l s = some s' ∧
      Linked regsCount before s' ∧ s'.active = l.filter fun a => begin < a.1.getEnd := by
  induction l generalizing s with
  | nil => exact ⟨_, rfl, h, rfl⟩
  | cons a rest ih =>
      obtain ⟨hhead, htail⟩ := List.pairwise_cons.1 h.sorted
      simp only [State.expireFrom]
      split
      · next hlt =>
          refine ⟨_, rfl, h, ?_⟩
          rw [List.filter_eq_self.2]
          intro b hb
          rw [decide_eq_true_eq]
          rcases List.mem_cons.1 hb with rfl | hb
          · exact hlt
          · exact hlt.trans_le (hhead b hb)
      · next hlt =>
          have hr := (h.registers a (h.active a List.mem_cons_self)).2
          obtain ⟨m, hm, hfor, hholds⟩ := RegMap.releaseReg_eq_some h.map h.holds hr
          have hdistinct := h.distinct
          simp only [List.map_cons, List.nodup_cons] at hdistinct
          have held : (heldBy s.location (a :: rest)).erase (s.location a.2).id = heldBy s.location rest := by
            simp only [heldBy, List.map_cons, List.toFinset_cons]
            exact Finset.erase_insert (by simpa using hdistinct.1)
          have linked : Linked regsCount before { s with regMap := m, active := rest } :=
            ⟨hfor, htail, fun b hb => h.active b (List.mem_cons_of_mem _ hb), h.registers, hdistinct.2,
              by simpa only [held] using hholds, h.disjoint⟩
          obtain ⟨s', hs', hl', ha'⟩ := ih (s := { s with regMap := m }) linked
          refine ⟨s', ?_, hl', ?_⟩
          · simp only [hm, Option.bind_eq_bind, Option.bind_some]
            exact hs'
          · rw [ha', List.filter_cons_of_neg (by simpa using hlt)]

/-! ## Assignment -/

/-- Assigning a free register keeps everything linked. -/
theorem assign_spec (h : Linked regsCount before s) (hroom : s.active.length < RegMap.capacity regsCount)
    (hfresh : ∀ a ∈ before, a.2 ≠ iv.2)
    (hlive : ∀ a ∈ before, iv.1.getBegin < a.1.getEnd → a ∈ s.active) : ∃ s', s.assignToReg iv = some s' ∧
      Linked regsCount (before ++ [iv])
        { s' with active := s'.active.orderedInsert (fun a b => a.1.getEnd ≤ b.1.getEnd) iv } ∧
      s'.active = s.active := by
  have hstrict : heldBy s.location s.active ⊂ Finset.range (RegMap.capacity regsCount) := by
    refine Finset.ssubset_iff_subset_ne.2 ⟨h.held_subset, fun he => ?_⟩
    have := congrArg Finset.card he
    rw [h.card_held, Finset.card_range] at this
    omega
  obtain ⟨r, m, hm, hr, hnot, hfor, hholds⟩ := RegMap.acquireReg_eq_some h.map h.holds hstrict
  have old (a : IntervalPtr) (ha : a ∈ before) :
      Function.update s.location iv.2 ⟨.REGISTER, r⟩ a.2 = s.location a.2 := Function.update_of_ne (hfresh a ha) _ _
  have new : Function.update s.location iv.2 ⟨.REGISTER, r⟩ iv.2 = (⟨.REGISTER, r⟩ : ValueLocation) :=
    Function.update_self ..
  have ids : (s.active.map fun a => (Function.update s.location iv.2 ⟨.REGISTER, r⟩ a.2).id) =
      s.active.map fun a => (s.location a.2).id :=
    List.map_congr_left fun a ha => by rw [old a (h.active a ha)]
  have perm : (s.active.orderedInsert (fun a b => a.1.getEnd ≤ b.1.getEnd) iv).Perm (iv :: s.active) :=
    List.perm_orderedInsert ..
  refine ⟨{ s.setLocation iv ⟨.REGISTER, r⟩ with regMap := m }, ?_, ⟨hfor, ?_, ?_, ?_, ?_, ?_, ?_⟩, rfl⟩
  · simp [State.assignToReg, hm]
  · exact List.Pairwise.orderedInsert (r := endsBefore) iv _ h.sorted
  · intro a ha
    rcases List.mem_cons.1 (perm.mem_iff.1 ha) with rfl | ha
    · simp
    · exact List.mem_append_left _ (h.active a ha)
  · intro a ha
    rcases List.mem_append.1 ha with ha | ha
    · simp only [State.setLocation, old a ha]
      exact h.registers a ha
    · rw [List.mem_singleton.1 ha]
      simp only [State.setLocation, new, true_and]
      exact hr
  · have : ((iv :: s.active).map fun a => (Function.update s.location iv.2 ⟨.REGISTER, r⟩ a.2).id).Nodup := by
      rw [List.map_cons, new, ids, List.nodup_cons]
      exact ⟨fun hmem => hnot (by simpa [heldBy] using hmem), h.distinct⟩
    exact ((perm.map _).nodup_iff).2 this
  · have held : heldBy (Function.update s.location iv.2 ⟨.REGISTER, r⟩)
        (s.active.orderedInsert (fun a b => a.1.getEnd ≤ b.1.getEnd) iv) = insert r (heldBy s.location s.active) := by
      unfold heldBy
      rw [List.toFinset_eq_of_perm _ _ (perm.map _), List.map_cons, List.toFinset_cons, new, ids]
    simpa only [State.setLocation, held] using hholds
  · refine List.pairwise_append.2 ⟨?_, List.pairwise_singleton _ _, ?_⟩
    · refine h.disjoint.imp_of_mem fun ha hb hab => ?_
      simp only [State.setLocation, old _ ha, old _ hb]
      exact hab
    · intro a ha b hb hover
      rw [List.mem_singleton.1 hb] at hover ⊢
      simp only [State.setLocation, old a ha, new]
      intro heq
      refine hnot ?_
      simp only [heldBy, List.mem_toFinset, List.mem_map]
      exact ⟨a, hlive a ha hover.lt_getEnd, by rw [heq]⟩

/-! ## One interval -/

theorem Inv.expire {begin : Nat} (h : Inv regsCount before begin s) (hle : begin ≤ iv.1.getBegin) : ∃ s',
    s.expireOldIntervals iv = some s' ∧ Linked regsCount before s' ∧
      s'.active.Perm (liveAt before iv) ∧ s'.active.length < RegMap.capacity regsCount := by
  obtain ⟨s', hs', hl, ha⟩ := expireFrom_spec iv.1.getBegin (s := s) (l := s.active) h.linked
  have hperm : s'.active.Perm (liveAt before iv) := ha ▸ h.live _ hle
  exact ⟨s', hs', hl, hperm, ha ▸ (List.length_filter_le _ _).trans_lt h.room⟩

/-- With room for one more register the interval gets a register. -/
theorem Inv.allocate {begin : Nat} (h : Inv regsCount before begin s) (hle : begin ≤ iv.1.getBegin)
    (hfresh : ∀ a ∈ before, a.2 ≠ iv.2) (hfits : (liveAt before iv).length + 1 < RegMap.capacity regsCount) :
    ∃ s', s.allocateInterval iv = some s' ∧ Inv regsCount (before ++ [iv]) iv.1.getBegin s' := by
  obtain ⟨s₁, h₁, hl, hperm, hroom⟩ := h.expire hle
  have hfull : s₁.regMap.isFull = false := by
    rw [Bool.eq_false_iff, Ne, hl.isFull_iff]
    exact hroom.ne
  have hlive a (ha : a ∈ before) (hb : iv.1.getBegin < a.1.getEnd) : a ∈ s₁.active :=
    hperm.mem_iff.2 (List.mem_filter.2 ⟨ha, by simpa using hb⟩)
  obtain ⟨s₂, h₂, hl₂, ha₂⟩ := assign_spec hl hroom hfresh hlive
  have perm : (s₂.active.orderedInsert (fun a b => a.1.getEnd ≤ b.1.getEnd) iv).Perm (iv :: liveAt before iv) :=
    (List.perm_orderedInsert ..).trans ((ha₂ ▸ hperm).cons iv)
  have hlen : (s₂.active.orderedInsert (fun a b => a.1.getEnd ≤ b.1.getEnd) iv).length <
      RegMap.capacity regsCount := by
    rw [perm.length_eq, List.length_cons]
    exact hfits
  have hfull₂ : s₂.regMap.isFull = false := by
    rw [Bool.eq_false_iff, Ne, hl₂.isFull_iff]
    exact hlen.ne
  refine ⟨_, ?_, hl₂, fun b hb => ?_, hlen⟩
  · simp only [State.allocateInterval, h₁, h₂, hfull, State.addActiveInterval, hfull₂, ASSERT_of, Option.bind_eq_bind,
      Option.bind_some, Bool.false_eq_true, if_false, Option.pure_def]
  · refine (perm.filter _).trans ?_
    rw [List.filter_append]
    refine List.Perm.trans ?_ List.perm_append_comm
    rw [← List.singleton_append, List.filter_append, liveAt, List.filter_filter]
    refine List.Perm.append_left _ (List.Perm.of_eq (List.filter_congr fun a _ => ?_))
    rw [Bool.and_eq_left_iff_imp, decide_eq_true_eq, decide_eq_true_eq]
    exact fun hlt => hb.trans_lt hlt

/-- Taking the last register fails the assertion that one is free. -/
theorem Inv.allocate_none {begin : Nat} (h : Inv regsCount before begin s) (hle : begin ≤ iv.1.getBegin)
    (hfresh : ∀ a ∈ before, a.2 ≠ iv.2) (hfits : ¬ (liveAt before iv).length + 1 < RegMap.capacity regsCount) :
    s.allocateInterval iv = none := by
  obtain ⟨s₁, h₁, hl, hperm, hroom⟩ := h.expire hle
  have hfull : s₁.regMap.isFull = false := by
    rw [Bool.eq_false_iff, Ne, hl.isFull_iff]
    exact hroom.ne
  have hlive a (ha : a ∈ before) (hb : iv.1.getBegin < a.1.getEnd) : a ∈ s₁.active :=
    hperm.mem_iff.2 (List.mem_filter.2 ⟨ha, by simpa using hb⟩)
  obtain ⟨s₂, h₂, hl₂, ha₂⟩ := assign_spec hl hroom hfresh hlive
  have hfull₂ : s₂.regMap.isFull = true := by
    rw [hl₂.isFull_iff]
    have := hperm.length_eq
    rw [List.orderedInsert_length, ha₂]
    omega
  simp [State.allocateInterval, h₁, h₂, hfull, State.addActiveInterval, hfull₂, ASSERT]

/-! ## The whole scan -/

/-- Over intervals in the order of their begins, the scan ends exactly when they fit. -/
theorem Inv.scan {order : List IntervalPtr} {begin : Nat} (h : Inv regsCount before begin s)
    (hle : ∀ a ∈ order, begin ≤ a.1.getBegin) (hsorted : order.Pairwise fun a b => a.1.getBegin ≤ b.1.getBegin)
    (hnodup : ((before ++ order).map Prod.snd).Nodup) :
    (Fits (RegMap.capacity regsCount) before order →
      ∃ s', order.foldlM State.allocateInterval s = some s' ∧ Linked regsCount (before ++ order) s') ∧
    (¬ Fits (RegMap.capacity regsCount) before order → order.foldlM State.allocateInterval s = none) := by
  induction order generalizing before s begin with
  | nil => exact ⟨fun _ => ⟨s, rfl, by simpa using h.linked⟩, fun hn => absurd trivial hn⟩
  | cons iv rest ih =>
      obtain ⟨hhead, htail⟩ := List.pairwise_cons.1 hsorted
      have hfresh : ∀ a ∈ before, a.2 ≠ iv.2 := by
        intro a ha heq
        rw [List.map_append, List.nodup_append] at hnodup
        exact hnodup.2.2 _ (List.mem_map_of_mem ha) _ (List.mem_map_of_mem List.mem_cons_self) heq
      have hiv := hle iv List.mem_cons_self
      rw [List.append_cons] at hnodup
      by_cases hfits : (liveAt before iv).length + 1 < RegMap.capacity regsCount
      · obtain ⟨s₁, h₁, hinv⟩ := h.allocate hiv hfresh hfits
        obtain ⟨ih₁, ih₂⟩ := ih hinv hhead htail hnodup
        rw [List.foldlM_cons, h₁, List.append_cons]
        exact ⟨fun hf => ih₁ hf.2, fun hf => ih₂ fun hr => hf ⟨hfits, hr⟩⟩
      · refine ⟨fun hf => absurd hf.1 hfits, fun _ => ?_⟩
        rw [List.foldlM_cons, h.allocate_none hiv hfresh hfits]
        rfl

theorem iterate_nodup (ivs : List LiveInterval) : ((iterate ivs).map Prod.snd).Nodup := by
  have : (ivs.zipIdx.map Prod.snd) = List.range ivs.length := by
    rw [List.zipIdx_map_snd, List.range_eq_range']
  rw [iterate, List.map_reverse, List.nodup_reverse, this]
  exact List.nodup_range

theorem mem_iterate {ivs : List LiveInterval} {a : LiveInterval} {i : Nat} :
    (a, i) ∈ iterate ivs ↔ ivs[i]? = some a := by
  rw [iterate, List.mem_reverse, List.mem_zipIdx_iff_getElem?]

/-- The order of iteration ascends exactly when the stored order descends. -/
theorem iterate_sorted (ivs : List LiveInterval) : (iterate ivs).Pairwise (fun a b => a.1.getBegin ≤ b.1.getBegin) ↔
    ivs.Pairwise (fun a b => b.getBegin ≤ a.getBegin) := by
  rw [iterate, List.pairwise_reverse]
  have : ivs = ivs.zipIdx.map Prod.fst := by rw [List.zipIdx_map_fst]
  conv_rhs => rw [this, List.pairwise_map]

theorem Linked.valid {ivs : List LiveInterval} (h : Linked regsCount (iterate ivs) s) :
    (∀ i < ivs.length, IsLocation regsCount (s.location i)) ∧
      ∀ i j a b, ivs[i]? = some a → ivs[j]? = some b → i ≠ j → a.Overlap b → s.location i ≠ s.location j := by
  refine ⟨fun i hi => .inl ?_, fun i j a b ha hb hij hover => ?_⟩
  · obtain ⟨ht, hr⟩ := h.registers (ivs[i], i) (mem_iterate.2 (List.getElem?_eq_getElem hi))
    exact ⟨ht, hr.trans_le (Nat.min_le_left _ _)⟩
  · have : Std.Symm fun a b : IntervalPtr => a.1.Overlap b.1 → s.location a.2 ≠ s.location b.2 :=
      ⟨fun a b hab hba => (hab hba.symm).symm⟩
    exact h.disjoint.forall (mem_iterate.2 ha) (mem_iterate.2 hb) (fun heq => hij (congrArg Prod.snd heq)) hover

/-- Linear scan allocates validly exactly the collections that `Allocatable` describes. -/
theorem linear_scan_valid_iff (hregs : 1 ≤ regsCount) (ivs : List LiveInterval) :
    Valid regsCount ivs ↔ Allocatable regsCount ivs := by
  unfold Valid Allocatable
  rw [iterate_sorted]
  by_cases hsup : RegMap.Supported regsCount
  · obtain ⟨m, hm, hfor, hholds⟩ := RegMap.make_eq_some hsup
    by_cases hsorted : ivs.Pairwise fun a b => b.getBegin ≤ a.getBegin
    · have inv : Inv regsCount [] 0 { regMap := m } :=
        ⟨⟨hfor, .nil, by simp, by simp, by simp, by simpa [heldBy] using hholds, .nil⟩, fun _ _ => .refl _,
          Nat.lt_min.2 ⟨hregs, Nat.zero_lt_succ 31⟩⟩
      obtain ⟨hyes, hno⟩ := inv.scan (fun _ _ => Nat.zero_le _) ((iterate_sorted ivs).2 hsorted)
        (by simpa using iterate_nodup ivs)
      refine ⟨fun ⟨h₁, location, hloc, _⟩ => ⟨hsup, h₁, ?_⟩, fun ⟨_, h₁, hfits⟩ => ⟨h₁, ?_⟩⟩
      · by_contra hfits
        simp [allocateAndAssignRegs, hm, hno hfits] at hloc
      · obtain ⟨s', hs', hl⟩ := hyes hfits
        exact ⟨s'.location, by simp [allocateAndAssignRegs, hm, hs'], Linked.valid (by simpa using hl)⟩
    · exact ⟨fun h => absurd h.1 hsorted, fun h => absurd h.2.1 hsorted⟩
  · refine ⟨fun ⟨_, location, hloc, _⟩ => ?_, fun h => absurd h.1 hsup⟩
    simp [allocateAndAssignRegs, RegMap.make_eq_none hsup] at hloc

/-- The interval of one range. -/
def oneRange (b e : Nat) (h : b ≤ e) : LiveInterval where
  ranges := [⟨b, e, h⟩]
  sorted := List.pairwise_singleton _ _

theorem linear_scan_valid_overlapping : 1 ≤ 31 ∧ Valid 31 [oneRange 4 8 (by decide), oneRange 2 6 (by decide)] :=
  ⟨by decide, (linear_scan_valid_iff (by decide) _).2 ⟨.inl (by decide), by decide, by decide⟩⟩

/-- Intervals stored by ascending begin, as liveness analysis stores them, are taken from the last one on; and a single
interval does not fit into a single register. -/
theorem linear_scan_not_valid : ¬ Valid 31 [oneRange 2 4 (by decide), oneRange 4 6 (by decide)] ∧
    ¬ Valid 1 [oneRange 2 4 (by decide)] := by
  constructor
  · rintro ⟨h, -⟩
    exact absurd h (by decide)
  · rintro ⟨-, location, h, -⟩
    have hnone : allocateAndAssignRegs 1 [oneRange 2 4 (by decide)] = none := by rfl
    rw [hnone] at h
    cases h

end CompilerLab.Jit.LinearScan
