import CompilerLab.Jit.RegMap

/-!
# Which register counts the bitmap is right for

The masks are shifts of an `int`. From 32 registers on the constructor shifts too far, and for 64 registers taking register 31
clears the bits of all registers above it. Up to 31 registers every history of calls is right.
-/

namespace CompilerLab.Jit.RegMap

/-! ## Histories of calls -/

/-- The registers held after `AcquireReg` has returned `reg`. -/
def taken (regsCount : Nat) (held : Finset Nat) : Option Nat → Finset Nat
  | some reg => if reg < regsCount then insert reg held else held
  | none => held

/-- The map is got by calls from one made for `regsCount` registers, and `held` are acquired and not released. -/
inductive Reaches (regsCount : Nat) : RegMap → Finset Nat → Prop where
  | make {m} : make regsCount = some m → Reaches regsCount m ∅
  | acquire {m m' held reg} : Reaches regsCount m held → m.acquireReg = some (reg, m') →
      Reaches regsCount m' (taken regsCount held reg)
  | release {m m' held reg} : Reaches regsCount m held → m.releaseReg reg = some m' → Reaches regsCount m' (held.erase reg)

/-- `IsFull` and `AcquireReg` do what they should on the map that holds `held`. -/
structure Tracks (regsCount : Nat) (m : RegMap) (held : Finset Nat) : Prop where
  full : m.isFull = true ↔ held.card = regsCount
  acquire : m.isFull = false → ∃ reg m', m.acquireReg = some (some reg, m') ∧ reg < regsCount ∧ reg ∉ held ∧
    ∀ i ≠ reg, m'.map.getLsbD i = m.map.getLsbD i

/-- A map can be made, and it is right after every history of calls. -/
def Correct (regsCount : Nat) : Prop :=
  (∃ m, make regsCount = some m) ∧ ∀ m held, Reaches regsCount m held → Tracks regsCount m held

variable {regsCount : Nat} {m m' : RegMap} {held : Finset Nat}

/-! ## Up to 31 registers -/

theorem capacity_of_le (h : regsCount ≤ 31) : capacity regsCount = regsCount := Nat.min_eq_left (h.trans (by decide))

/-- A full map is left as it is, and what is returned is no register of it. -/
theorem acquireReg_full (hcount : regsCount ≤ 31) (hf : m.For regsCount) (h : m.Holds (Finset.range regsCount)) :
    ∃ reg, m.acquireReg = some (some reg, m) ∧ regsCount ≤ reg := by
  have hbit : m.map.getLsbD regsCount = true := by
    rw [h regsCount (by omega), Nat.min_eq_left hcount]
    simp
  cases hl : lowestSetBit m.map with
  | none =>
      rw [lowestSetBit_eq_none hl regsCount (by omega)] at hbit
      cases hbit
  | some reg =>
      obtain ⟨hreg, hset, -⟩ := lowestSetBit_eq_some hl
      have hle : regsCount ≤ reg := by
        by_contra hlt
        rw [h reg hreg, Nat.min_eq_left (by omega)] at hset
        simp only [Finset.mem_range, decide_eq_true_eq] at hset
        exact hset (Nat.not_le.1 hlt)
      have hno : ¬reg < m.regsCount := by
        rw [hf.count]
        exact Nat.not_lt.2 hle
      exact ⟨reg, by simp only [acquireReg, hl, if_neg hno], hle⟩

/-- A map that knows the registers it holds: the invariant of a history. -/
structure Knows (regsCount : Nat) (m : RegMap) (held : Finset Nat) : Prop where
  made : m.For regsCount
  holds : m.Holds held
  bound : held ⊆ Finset.range regsCount

namespace Knows

theorem isFull_iff (hcount : regsCount ≤ 31) (h : Knows regsCount m held) :
    m.isFull = true ↔ held = Finset.range regsCount := by
  have hbound : held ⊆ Finset.range (capacity regsCount) := by
    rw [capacity_of_le hcount]
    exact h.bound
  rw [RegMap.isFull_iff h.made h.holds hbound, capacity_of_le hcount]

theorem acquires (hcount : regsCount ≤ 31) (h : Knows regsCount m held) (hne : held ≠ Finset.range regsCount) :
    ∃ reg m', m.acquireReg = some (some reg, m') ∧ reg < regsCount ∧ reg ∉ held ∧ Knows regsCount m' (insert reg held) := by
  have hbound : held ⊂ Finset.range (capacity regsCount) := by
    rw [capacity_of_le hcount]
    exact h.bound.ssubset_of_ne hne
  obtain ⟨reg, m', hacquire, hlt, hheld, hf, hholds⟩ := acquireReg_eq_some h.made h.holds hbound
  rw [capacity_of_le hcount] at hlt
  exact ⟨reg, m', hacquire, hlt, hheld, hf, hholds, Finset.insert_subset (Finset.mem_range.2 hlt) h.bound⟩

theorem acquire (hcount : regsCount ≤ 31) (h : Knows regsCount m held) {reg : Option Nat}
    (hacquire : m.acquireReg = some (reg, m')) : Knows regsCount m' (taken regsCount held reg) := by
  by_cases hfull : held = Finset.range regsCount
  · subst hfull
    obtain ⟨r, hr, hle⟩ := acquireReg_full hcount h.made h.holds
    cases hr.symm.trans hacquire
    simpa only [taken, if_neg (Nat.not_lt.2 hle)] using h
  · obtain ⟨r, m₁, hr, hlt, -, hknows⟩ := h.acquires hcount hfull
    cases hr.symm.trans hacquire
    simpa only [taken, if_pos hlt] using hknows

theorem release (hcount : regsCount ≤ 31) (h : Knows regsCount m held) {reg : Nat} (hrelease : m.releaseReg reg = some m') :
    Knows regsCount m' (held.erase reg) := by
  have hlt : reg < regsCount := by
    by_contra hge
    simp [releaseReg, ASSERT, h.made.count, hge] at hrelease
  obtain ⟨m₁, hm₁, hf, hholds⟩ := releaseReg_eq_some h.made h.holds ((capacity_of_le hcount).symm ▸ hlt)
  cases hm₁.symm.trans hrelease
  exact ⟨hf, hholds, (Finset.erase_subset reg held).trans h.bound⟩

theorem tracks (hcount : regsCount ≤ 31) (h : Knows regsCount m held) : Tracks regsCount m held where
  full := by
    rw [h.isFull_iff hcount]
    constructor
    · rintro rfl
      exact Finset.card_range regsCount
    · intro hcard
      exact Finset.eq_of_subset_of_card_le h.bound (by rw [hcard, Finset.card_range])
  acquire hfull := by
    have hne : held ≠ Finset.range regsCount := fun heq => by simp [(h.isFull_iff hcount).2 heq] at hfull
    obtain ⟨reg, m', hacquire, hlt, hheld, hknows⟩ := h.acquires hcount hne
    refine ⟨reg, m', hacquire, hlt, hheld, fun i hi => ?_⟩
    by_cases h64 : i < 64
    · have hmin : min i 31 ≠ reg := by omega
      rw [hknows.holds i h64, h.holds i h64]
      simp [hmin]
    · rw [BitVec.getLsbD_of_ge _ _ (Nat.not_lt.1 h64), BitVec.getLsbD_of_ge _ _ (Nat.not_lt.1 h64)]

end Knows

theorem Reaches.knows (hcount : regsCount ≤ 31) (h : Reaches regsCount m held) : Knows regsCount m held := by
  induction h with
  | make hmake =>
      obtain ⟨m₁, hm₁, hf, hholds⟩ := make_eq_some (.inl hcount)
      cases hm₁.symm.trans hmake
      exact ⟨hf, hholds, Finset.empty_subset _⟩
  | acquire _ hacquire ih => exact ih.acquire hcount hacquire
  | release _ hrelease ih => exact ih.release hcount hrelease

/-! ## 64 registers -/

/-- As long as there are bits below the sign of an `int`, registers are handed out one after the other. -/
theorem reaches_card {n : Nat} (hn : n ≤ 32) :
    ∃ m held, Reaches 64 m held ∧ m.For 64 ∧ m.Holds held ∧ held ⊆ Finset.range (capacity 64) ∧ held.card = n := by
  induction n with
  | zero =>
      obtain ⟨m, hm, hf, hholds⟩ := make_eq_some (.inr rfl : Supported 64)
      exact ⟨m, ∅, .make hm, hf, hholds, Finset.empty_subset _, rfl⟩
  | succ n ih =>
      obtain ⟨m, held, hreaches, hf, hholds, hbound, hcard⟩ := ih (by omega)
      have hne : held ≠ Finset.range (capacity 64) := by
        rintro rfl
        have h32 : capacity 64 = 32 := rfl
        rw [Finset.card_range, h32] at hcard
        omega
      obtain ⟨reg, m', hacquire, hlt, hheld, hf', hholds'⟩ := acquireReg_eq_some hf hholds (hbound.ssubset_of_ne hne)
      have h64 : reg < 64 := hlt.trans_le (Nat.min_le_left _ _)
      have htaken : taken 64 held (some reg) = insert reg held := if_pos h64
      refine ⟨m', insert reg held, htaken ▸ hreaches.acquire hacquire, hf', hholds',
        Finset.insert_subset (Finset.mem_range.2 hlt) hbound, ?_⟩
      rw [Finset.card_insert_of_notMem hheld, hcard]

/-- With 32 of its 64 registers held the map is full. -/
theorem full_at_32 : ∃ m held, Reaches 64 m held ∧ m.isFull = true ∧ held.card = 32 := by
  obtain ⟨m, held, hreaches, hf, hholds, hbound, hcard⟩ := reaches_card (le_refl 32)
  have heq : held = Finset.range (capacity 64) :=
    Finset.eq_of_subset_of_card_le hbound (by rw [hcard, Finset.card_range]; rfl)
  exact ⟨m, held, hreaches, (isFull_iff hf hholds hbound).2 heq, hcard⟩

/-! ## The counts -/

theorem correct_iff (hpos : 1 ≤ regsCount) (hmax : regsCount ≤ MAX_REGS_COUNT) : Correct regsCount ↔ regsCount ≤ 31 := by
  constructor
  · rintro ⟨⟨m, hm⟩, hall⟩
    by_contra hgt
    by_cases h64 : regsCount = 64
    · subst h64
      obtain ⟨m, held, hreaches, hfull, hcard⟩ := full_at_32
      rw [(hall m held hreaches).full, hcard] at hfull
      omega
    · have hnot : ¬Supported regsCount := by
        rintro (hle | heq)
        · exact hgt hle
        · exact h64 heq
      rw [make_eq_none hnot] at hm
      cases hm
  · intro hcount
    obtain ⟨m, hm, -⟩ := make_eq_some (.inl hcount : Supported regsCount)
    exact ⟨⟨m, hm⟩, fun m held hreaches => (hreaches.knows hcount).tracks hcount⟩

theorem correct_iff_sixteen : 1 ≤ 16 ∧ 16 ≤ MAX_REGS_COUNT ∧ (Correct 16 ↔ 16 ≤ 31) :=
  ⟨by decide, by decide, correct_iff (by decide) (by decide)⟩

theorem not_correct_64 : 1 ≤ 64 ∧ 64 ≤ MAX_REGS_COUNT ∧ ¬Correct 64 := by
  refine ⟨by decide, by decide, ?_⟩
  rintro ⟨-, hall⟩
  obtain ⟨m, held, hreaches, hfull, hcard⟩ := full_at_32
  rw [(hall m held hreaches).full, hcard] at hfull
  omega

end CompilerLab.Jit.RegMap
