import Mathlib.Data.List.Basic
import Mathlib.Tactic.Common
import CompilerLab.Jit.Ir

/-!
# Live ranges and live intervals

`LiveRange` and `LiveInterval`. The source keeps the ranges of an interval in descending order and works at the back of
the vector; here the back of the vector is the head of the list, so the ranges ascend.
-/

namespace CompilerLab.Jit

/-- `LiveRange`, the positions from `getBegin` up to and without `getEnd`. -/
structure LiveRange where
  getBegin : Nat
  getEnd : Nat
  le : getBegin ≤ getEnd
  deriving DecidableEq, Repr

namespace LiveRange

/-- `Includes`. -/
def includes (r other : LiveRange) : Bool := r.getBegin ≤ other.getBegin && other.getEnd ≤ r.getEnd

/-- `LeftAdjacent`. -/
def leftAdjacent (r other : LiveRange) : Bool := r.getEnd = other.getBegin

/-- `operator<`. -/
def before (r other : LiveRange) : Bool := r.getEnd ≤ other.getBegin

/-- `SetBegin`. -/
def setBegin (r : LiveRange) (b : Nat) : Option LiveRange :=
  if h : b < r.getEnd then some ⟨b, r.getEnd, h.le⟩ else none

/-- The range covers the position. -/
def Covers (r : LiveRange) (p : Nat) : Prop := r.getBegin ≤ p ∧ p < r.getEnd

theorem setBegin_eq_some {r r' : LiveRange} {b : Nat} :
    r.setBegin b = some r' ↔ b < r.getEnd ∧ r'.getBegin = b ∧ r'.getEnd = r.getEnd := by
  unfold setBegin
  split
  · rename_i h
    simp only [Option.some.injEq, h, true_and]
    constructor
    · rintro rfl; exact ⟨rfl, rfl⟩
    · rintro ⟨h₁, h₂⟩
      cases r'
      simp_all
  · simp_all

end LiveRange

/-- The ranges of one value: each ends before the next one begins. -/
structure LiveInterval where
  ranges : List LiveRange := []
  sorted : ranges.Pairwise fun a b => a.getEnd ≤ b.getBegin := by exact .nil
  deriving DecidableEq, Repr

namespace LiveInterval

/-- `LIVE_RANGE_STEP`. -/
def LIVE_RANGE_STEP : Nat := 2

/-- `GetBegin`. -/
def getBegin (iv : LiveInterval) : Nat := (iv.ranges.head?.map LiveRange.getBegin).getD 0

/-- `GetEnd`. -/
def getEnd (iv : LiveInterval) : Nat := (iv.ranges.getLast?.map LiveRange.getEnd).getD 0

/-- Some range of the interval covers the position. -/
def Covers (iv : LiveInterval) (p : Nat) : Prop := ∃ r ∈ iv.ranges, r.Covers p

/-- The intervals have a position in common. -/
def Overlap (iv other : LiveInterval) : Prop := ∃ p, iv.Covers p ∧ other.Covers p

/-- The earliest range replaced by one with the same end. -/
theorem sorted_setHead {r r' : LiveRange} {rest : List LiveRange} (he : r'.getEnd = r.getEnd)
    (h : (r :: rest).Pairwise fun a b => a.getEnd ≤ b.getBegin) :
    (r' :: rest).Pairwise fun a b => a.getEnd ≤ b.getBegin := by
  rw [List.pairwise_cons] at h ⊢
  exact ⟨fun b hb => he ▸ h.1 b hb, h.2⟩

/-- `SetBegin`. -/
def setBegin (iv : LiveInterval) (b : Nat) : Option LiveInterval :=
  match iv with
  | ⟨[], _⟩ => some ⟨[⟨b, b + LIVE_RANGE_STEP, Nat.le_add_right _ _⟩], List.pairwise_singleton _ _⟩
  | ⟨r :: rest, h⟩ =>
      if b ≤ r.getEnd then
        match hr : r.setBegin b with
        | some r' => some ⟨r' :: rest, sorted_setHead (LiveRange.setBegin_eq_some.1 hr).2.2 h⟩
        | none => none
      else none

/-- `AddRange`. -/
def addRange (iv : LiveInterval) (rng : LiveRange) : Option LiveInterval :=
  match iv with
  | ⟨[], _⟩ => some ⟨[rng], List.pairwise_singleton _ _⟩
  | ⟨earliest :: rest, h⟩ =>
      if rng.leftAdjacent earliest then
        match hr : earliest.setBegin rng.getBegin with
        | some r' => some ⟨r' :: rest, sorted_setHead (LiveRange.setBegin_eq_some.1 hr).2.2 h⟩
        | none => none
      else if hb : rng.getEnd ≤ earliest.getBegin then
        some ⟨rng :: earliest :: rest, by
          refine List.pairwise_cons.2 ⟨fun b hmem => ?_, h⟩
          rcases List.mem_cons.1 hmem with rfl | hmem
          · exact hb
          · exact hb.trans (earliest.le.trans ((List.pairwise_cons.1 h).1 b hmem))⟩
      else if earliest.includes rng then some ⟨earliest :: rest, h⟩
      else none

/-! ## The bounds of an interval -/

theorem getBegin_le {iv : LiveInterval} {r : LiveRange} (h : r ∈ iv.ranges) : iv.getBegin ≤ r.getBegin := by
  obtain ⟨ranges, hs⟩ := iv
  cases ranges with
  | nil => cases h
  | cons a rest =>
      rcases List.mem_cons.1 h with rfl | h
      · exact le_rfl
      · exact a.le.trans ((List.pairwise_cons.1 hs).1 r h)

theorem le_getEnd {iv : LiveInterval} {r : LiveRange} (h : r ∈ iv.ranges) : r.getEnd ≤ iv.getEnd := by
  obtain ⟨ranges, hs⟩ := iv
  simp only [getEnd] at *
  induction ranges generalizing r with
  | nil => cases h
  | cons a rest ih =>
      rw [List.pairwise_cons] at hs
      cases rest with
      | nil =>
          rw [List.mem_singleton.1 h]
          exact le_rfl
      | cons c rest =>
          rw [List.getLast?_cons_cons]
          rcases List.mem_cons.1 h with rfl | h
          · exact (hs.1 c List.mem_cons_self).trans (c.le.trans (ih hs.2 List.mem_cons_self))
          · exact ih hs.2 h

theorem Covers.bounds {iv : LiveInterval} {p : Nat} (h : iv.Covers p) : iv.getBegin ≤ p ∧ p < iv.getEnd := by
  obtain ⟨r, hr, hb, he⟩ := h
  exact ⟨(getBegin_le hr).trans hb, he.trans_le (le_getEnd hr)⟩

theorem Overlap.symm {iv other : LiveInterval} (h : iv.Overlap other) : other.Overlap iv := by
  obtain ⟨p, h₁, h₂⟩ := h
  exact ⟨p, h₂, h₁⟩

/-- Intervals that share a position are live at once: each begins before the other ends. -/
theorem Overlap.lt_getEnd {iv other : LiveInterval} (h : iv.Overlap other) : other.getBegin < iv.getEnd := by
  obtain ⟨p, h₁, h₂⟩ := h
  exact h₂.bounds.1.trans_lt h₁.bounds.2

end LiveInterval

end CompilerLab.Jit
