import CompilerLab.Leech.Region
import Mathlib.Tactic.Common

/-!
# Results on the region allocator

What has been allocated is compared with the mathematical number of bytes that has been asked for.
-/

namespace CompilerLab.Leech.Region

/-! ## Soundness -/

namespace Allocation

/-- The address is one of the bytes of the allocation. -/
def Covers (a : Allocation) (x : Int) : Prop := a.address ≤ x ∧ x < a.address + a.bytes

/-- The allocation lies in the region. -/
def Inside (r : Region) (a : Allocation) : Prop :=
  r.getStartPtr ≤ a.address ∧ a.address + a.bytes ≤ r.getStartPtr + r.Size.toNat

instance (r : Region) (a : Allocation) : Decidable (a.Inside r) := inferInstanceAs (Decidable (_ ∧ _))

/-- No byte belongs to both allocations. -/
def Apart (a b : Allocation) : Prop := ∀ x, ¬ (a.Covers x ∧ b.Covers x)

end Allocation

/-- The allocations of a state are in the region, aligned, and disjoint. -/
structure Sound (r : Region) (s : State) : Prop where
  inside : ∀ a ∈ s.allocations, a.Inside r
  aligned : ∀ a ∈ s.allocations, (a.alignof : Int) ∣ a.address
  apart : s.allocations.Pairwise Allocation.Apart

/-- An allocation that is refused leaves the offset as it was. -/
def RefusesCleanly (r : Region) : Prop :=
  ∀ (call : Call) (curOffset : BitVec 32) (e : RuntimeError), (call.perform r curOffset).1 = .error e →
    (call.perform r curOffset).2 = curOffset

/-! ## When allocations are sound -/

/-- The offset when the given number of bytes has been allocated. -/
def offset (used : Nat) : BitVec 32 := BitVec.ofNat 32 used

def refuses (r : Region) (used : Nat) (call : Call) : Prop :=
  (newOffset (offset used) call.num_of_bytes).toNat > r.Size.toNat

instance (r : Region) (used : Nat) (call : Call) : Decidable (r.refuses used call) :=
  inferInstanceAs (Decidable (_ > _))

/-- The next address is aligned for the type, and the bytes that are asked for are in the rest of the region, of which less than
two gigabytes have been used. -/
def Accepts (r : Region) (used : Nat) (call : Call) : Prop :=
  (call.alignof : Int) ∣ r.getStartPtr + (offset used).toInt ∧ 0 ≤ (offset used).toInt ∧
    (0 < call.bytes → used < 2 ^ 31 ∧ used + call.bytes ≤ r.Size.toNat)

/-- Every call that is not refused meets the condition, when the given number of bytes has been allocated before. -/
def Fits (r : Region) (used : Nat) : List Call → Prop
  | [] => True
  | call :: calls =>
    if r.refuses used call then r.Fits used calls else r.Accepts used call ∧ r.Fits (used + call.bytes) calls

/-! ## Steps -/

variable {r : Region} {s : State} {used : Nat} {call : Call} {calls : List Call}

theorem perform_eq (call : Call) (curOffset : BitVec 32) :
    call.perform r curOffset = r.allocateRaw call.num_of_bytes curOffset := by
  cases call <;> rfl

theorem refusesCleanly (r : Region) : r.RefusesCleanly := by
  intro call curOffset e h
  rw [perform_eq, allocateRaw] at h ⊢
  split
  · rfl
  · next hsize =>
      rw [if_neg hsize] at h
      cases h

theorem num_of_bytes_toNat (call : Call) : call.num_of_bytes.toNat = call.bytes % 2 ^ 64 := by
  cases call with
  | allocateRaw n => exact (Nat.mod_eq_of_lt n.isLt).symm
  | allocateInstance T n => exact BitVec.toNat_mul n T.sizeof

/-- The offset that is kept is the number of allocated bytes without its high bits. -/
theorem newOffset_offset (used : Nat) (call : Call) :
    (newOffset (offset used) call.num_of_bytes).setWidth 32 = offset (used + call.bytes) := by
  have hlow : (call.num_of_bytes.setWidth 32).toNat = call.bytes % 2 ^ 32 := by
    rw [BitVec.toNat_setWidth, num_of_bytes_toNat, Nat.mod_mod_of_dvd _ (by decide)]
  have hsign : ((offset used).signExtend 64).setWidth 32 = offset used := by
    apply BitVec.eq_of_getLsbD_eq
    intro i hi
    rw [BitVec.getLsbD_setWidth, BitVec.getLsbD_signExtend, if_pos hi, decide_eq_true hi,
      decide_eq_true (Nat.lt_trans hi (by decide)), Bool.true_and, Bool.true_and]
  rw [newOffset, BitVec.setWidth_add _ _ (by decide), hsign]
  apply BitVec.eq_of_toNat_eq
  rw [BitVec.toNat_add, hlow, offset, offset, BitVec.toNat_ofNat, BitVec.toNat_ofNat, ← Nat.add_mod]

theorem allocateRaw_refused (h : r.refuses used call) :
    r.allocateRaw call.num_of_bytes (offset used) = (.error (.runtime_error "Out of memory"), offset used) := if_pos h

theorem allocateRaw_accepted (h : ¬ r.refuses used call) : r.allocateRaw call.num_of_bytes (offset used) =
    (.ok (r.getStartPtr + (offset used).toInt), offset (used + call.bytes)) := by
  rw [← newOffset_offset]
  exact if_neg h

theorem step_refused (hs : s.curOffset = offset used) (h : r.refuses used call) : r.step s call = s := by
  rw [step, perform_eq, hs, allocateRaw_refused h, ← hs]

theorem step_accepted (hs : s.curOffset = offset used) (h : ¬ r.refuses used call) : r.step s call =
    { curOffset := offset (used + call.bytes)
      allocations := { address := r.getStartPtr + (offset used).toInt, bytes := call.bytes, alignof := call.alignof } ::
        s.allocations } := by
  rw [step, perform_eq, hs, allocateRaw_accepted h]

theorem offset_toInt (used : Nat) : (offset used).toInt =
    if used % 2 ^ 32 < 2 ^ 31 then ((used % 2 ^ 32 : Nat) : Int) else ((used % 2 ^ 32 : Nat) : Int) - 2 ^ 32 := by
  rw [BitVec.toInt_eq_toNat_cond, offset, BitVec.toNat_ofNat]
  split
  · next h => rw [if_pos (by omega)]
  · next h =>
      rw [if_neg (by omega)]
      rfl

theorem offset_of_lt (h : used < 2 ^ 31) : (offset used).toInt = used := by
  rw [offset_toInt, Nat.mod_eq_of_lt (by omega), if_pos h]

/-- An offset that is not negative is at most the number of allocated bytes, and less once that does not fit. -/
theorem offset_le (h : 0 ≤ (offset used).toInt) :
    (offset used).toInt ≤ used ∧ (2 ^ 31 ≤ used → (offset used).toInt < used) := by
  rw [offset_toInt] at h ⊢
  split at h
  · next hlow =>
      rw [if_pos hlow]
      omega
  · omega

/-! ## Runs -/

/-- The given number of bytes from the start of the region on has been allocated, and nothing else. -/
structure Filled (r : Region) (s : State) (used : Nat) : Prop where
  curOffset : s.curOffset = offset used
  room : used ≤ r.Size.toNat
  within : ∀ a ∈ s.allocations, r.getStartPtr ≤ a.address ∧ a.address + a.bytes ≤ r.getStartPtr + used
  covered : ∀ x, r.getStartPtr ≤ x → x < r.getStartPtr + used → ∃ a ∈ s.allocations, a.Covers x

/-- The allocations of a state stay when more are made. -/
theorem allocations_step (s : State) (call : Call) : s.allocations <:+ (r.step s call).allocations := by
  rw [step]
  split
  · exact List.suffix_cons _ _
  · exact List.suffix_refl _

theorem Sound.of_suffix {t : State} (ht : r.Sound t) (h : s.allocations <:+ t.allocations) : r.Sound s where
  inside a ha := ht.inside a (h.subset ha)
  aligned a ha := ht.aligned a (h.subset ha)
  apart := ht.apart.sublist h.sublist

theorem allocations_run (calls : List Call) (s : State) : s.allocations <:+ (r.run s calls).allocations := by
  induction calls generalizing s with
  | nil => exact List.suffix_refl _
  | cons call calls ih => exact (allocations_step s call).trans (ih (r.step s call))

theorem Accepts.fills (ha : r.Accepts used call) :
    call.bytes = 0 ∨ (offset used).toInt = used ∧ used + call.bytes ≤ r.Size.toNat := by
  rcases Nat.eq_zero_or_pos call.bytes with h0 | hpos
  · exact .inl h0
  · exact .inr ⟨offset_of_lt (ha.2.2 hpos).1, (ha.2.2 hpos).2⟩

theorem filled_step (hs : r.Filled s used) (h : ¬ r.refuses used call) (ha : r.Accepts used call) :
    r.Filled (r.step s call) (used + call.bytes) := by
  have hoffset := ha.2.1
  have hle := (offset_le hoffset).1
  have hfills := ha.fills
  have hused := hs.room
  rw [step_accepted hs.curOffset h]
  refine ⟨rfl, by omega, ?_, ?_⟩
  · rintro a (_ | ⟨_, hmem⟩)
    · dsimp only
      omega
    · have hin := hs.within a hmem
      omega
  · intro x hlo hhi
    by_cases hx : x < r.getStartPtr + used
    · obtain ⟨a, hmem, hcovers⟩ := hs.covered x hlo hx
      exact ⟨a, .tail _ hmem, hcovers⟩
    · refine ⟨_, .head _, ?_, ?_⟩
      · dsimp only
        omega
      · dsimp only
        omega

/-- An allocation keeps a sound state sound exactly when its call meets the condition. -/
theorem sound_step (hs : r.Filled s used) (hsound : r.Sound s) (h : ¬ r.refuses used call) :
    r.Sound (r.step s call) ↔ r.Accepts used call := by
  rw [step_accepted hs.curOffset h]
  constructor
  · intro hnext
    have hin := hnext.inside _ (.head _)
    have hapart := (List.pairwise_cons.1 hnext.apart).1
    dsimp only [Allocation.Inside] at hin
    refine ⟨hnext.aligned _ (.head _), by omega, fun hpos => ?_⟩
    have hused : used < 2 ^ 31 := by
      by_contra hbig
      have hlt := (offset_le (show 0 ≤ (offset used).toInt by omega)).2 (by omega)
      -- The first byte has been allocated before.
      obtain ⟨a, hmem, hcovers⟩ := hs.covered (r.getStartPtr + (offset used).toInt) (by omega) (by omega)
      refine hapart a hmem _ ⟨⟨le_refl _, ?_⟩, hcovers⟩
      dsimp only
      omega
    rw [offset_of_lt hused] at hin
    exact ⟨hused, by omega⟩
  · intro ha
    have hoffset := ha.2.1
    have hle := (offset_le hoffset).1
    have hfills := ha.fills
    have hused := hs.room
    refine ⟨?_, ?_, List.pairwise_cons.2 ⟨?_, hsound.apart⟩⟩
    · rintro a (_ | ⟨_, hmem⟩)
      · rw [Allocation.Inside]
        dsimp only
        omega
      · exact hsound.inside a hmem
    · rintro a (_ | ⟨_, hmem⟩)
      · exact ha.1
      · exact hsound.aligned a hmem
    · rintro a hmem x ⟨⟨hlo, hhi⟩, hcovers⟩
      have hin := hs.within a hmem
      have hlast := hcovers.2
      dsimp only at hlo hhi
      omega

theorem sound_run_iff (hs : r.Filled s used) (hsound : r.Sound s) : r.Sound (r.run s calls) ↔ r.Fits used calls := by
  induction calls generalizing s used with
  | nil => exact ⟨fun _ => trivial, fun _ => hsound⟩
  | cons call calls ih =>
      rw [Fits]
      change r.Sound (r.run (r.step s call) calls) ↔ _
      split
      · next h =>
          rw [step_refused hs.curOffset h]
          exact ih hs hsound
      · next h =>
          constructor
          · intro hrun
            have hstep := hrun.of_suffix (allocations_run calls (r.step s call))
            have ha := (sound_step hs hsound h).1 hstep
            exact ⟨ha, (ih (filled_step hs h ha) hstep).1 hrun⟩
          · rintro ⟨ha, hfits⟩
            exact (ih (filled_step hs h ha) ((sound_step hs hsound h).2 ha)).2 hfits

theorem filled_reset (r : Region) : r.Filled {} 0 where
  curOffset := rfl
  room := Nat.zero_le _
  within _ ha := nomatch ha
  covered x hlo hhi := by omega

/-- After any calls since the last reset the allocations are sound, and the calls that were refused have changed nothing, exactly
when every call that is not refused finds an aligned address and enough room. -/
theorem region_sound_iff (r : Region) (calls : List Call) :
    r.Sound (r.run {} calls) ∧ r.RefusesCleanly ↔ r.Fits 0 calls := by
  have hempty : r.Sound {} := ⟨nofun, nofun, List.Pairwise.nil⟩
  rw [sound_run_iff (filled_reset r) hempty]
  exact ⟨fun h => h.1, fun h => ⟨h, refusesCleanly r⟩⟩

/-- The number of bytes wraps around: sixteen bytes less than the whole address space are found behind the first sixteen. -/
theorem wrapped_not_sound :
    ¬ Sound ⟨0xE000000, 33554432⟩ (run ⟨0xE000000, 33554432⟩ {} [.allocateRaw 16, .allocateRaw 0xFFFFFFFFFFFFFFF0]) := by
  intro h
  have hin := h.inside _ (.head _)
  revert hin
  decide

end CompilerLab.Leech.Region
