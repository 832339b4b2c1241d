import CompilerLab.Jit.Types

/-!
# Words against the values they stand for

A word splits into the bits its type keeps and the bits above them. The pass over constants compares whole words; this
file says when that is the order at the type.
-/

namespace CompilerLab.Jit.OperandType

variable {t : OperandType} {a b : Word}

/-- The bits of a word the type keeps, as a number. -/
def lowPart (t : OperandType) (w : Word) : Nat := w.toNat % 2 ^ t.width

/-- The bits of a word above the width of the type, as a number. -/
def highPart (t : OperandType) (w : Word) : Nat := w.toNat / 2 ^ t.width

/-- The word stands for a negative number. -/
def isNegative (t : OperandType) (w : Word) : Bool := t.isSigned && decide (2 ^ t.width ≤ 2 * t.lowPart w)

theorem toNat_trunc (t : OperandType) (w : Word) : (t.trunc w).toNat = t.lowPart w := by
  simp [trunc, lowPart, BitVec.toNat_setWidth]

theorem lowPart_lt (t : OperandType) (w : Word) : t.lowPart w < 2 ^ t.width := Nat.mod_lt _ (Nat.two_pow_pos _)

theorem toNat_eq_parts (t : OperandType) (w : Word) : w.toNat = 2 ^ t.width * t.highPart w + t.lowPart w :=
  (Nat.div_add_mod _ _).symm

theorem trunc_inj : t.trunc a = t.trunc b ↔ t.lowPart a = t.lowPart b := by
  rw [← BitVec.toNat_inj, toNat_trunc, toNat_trunc]

theorem toInt_trunc (t : OperandType) (w : Word) :
    t.toInt (t.trunc w) = if t.isNegative w then (t.lowPart w : Int) - 2 ^ t.width else t.lowPart w := by
  have hw := toNat_trunc t w
  unfold toInt isNegative
  cases t.isSigned with
  | false => simp [hw]
  | true =>
      rw [if_pos rfl, BitVec.toInt_eq_toNat_cond, hw]
      by_cases h : 2 * t.lowPart w < 2 ^ t.width
      · simp [h, Nat.not_le.2 h]
      · simp [h, Nat.not_lt.1 h]

/-- The order of the values two words stand for, by sign. -/
theorem toInt_lt : t.toInt (t.trunc a) < t.toInt (t.trunc b) ↔
    match t.isNegative a, t.isNegative b with
    | true, false => True
    | false, true => False
    | _, _ => t.lowPart a < t.lowPart b := by
  have ha : (t.lowPart a : Int) < 2 ^ t.width := by exact_mod_cast lowPart_lt t a
  have hb : (t.lowPart b : Int) < 2 ^ t.width := by exact_mod_cast lowPart_lt t b
  rw [toInt_trunc, toInt_trunc]
  cases t.isNegative a <;> cases t.isNegative b <;> simp <;> omega

/-- Words are ordered by their high parts, then by their low parts. -/
theorem word_lt : a < b ↔
    t.highPart a < t.highPart b ∨ t.highPart a = t.highPart b ∧ t.lowPart a < t.lowPart b := by
  have ha := lowPart_lt t a
  have hb := lowPart_lt t b
  rw [BitVec.lt_def, toNat_eq_parts t a, toNat_eq_parts t b]
  generalize 2 ^ t.width = n at *
  rcases Nat.lt_trichotomy (t.highPart a) (t.highPart b) with h | h | h
  · have := Nat.mul_le_mul_left n h
    rw [Nat.mul_succ] at this
    simp only [h, true_or, iff_true]
    omega
  · simp only [h, Nat.lt_irrefl, true_and, false_or]
    omega
  · have := Nat.mul_le_mul_left n h
    rw [Nat.mul_succ] at this
    simp only [Nat.not_lt.2 h.le, h.ne', false_and, or_self, iff_false]
    omega

/-- The unsigned order of the words is the order of the values, in terms of the parts of the words. -/
def OrderKept (t : OperandType) (a b : Word) : Prop :=
  match t.isNegative a, t.isNegative b with
  | true, false => t.highPart a < t.highPart b
  | false, true => t.highPart b < t.highPart a
  | _, _ =>
      t.highPart a = t.highPart b ∨ t.highPart a < t.highPart b ∧ t.lowPart a < t.lowPart b ∨
        t.highPart b < t.highPart a ∧ t.lowPart b ≤ t.lowPart a

instance (t : OperandType) (a b : Word) : Decidable (t.OrderKept a b) := by
  unfold OrderKept
  split <;> infer_instance

theorem lowPart_of_neg_pos (ha : t.isNegative a = true) (hb : t.isNegative b = false) (hs : t.isSigned = true) :
    t.lowPart b < t.lowPart a := by
  simp only [isNegative, hs, Bool.true_and, decide_eq_true_eq, decide_eq_false_iff_not] at ha hb
  omega

theorem isSigned_of_isNegative (h : t.isNegative a = true) : t.isSigned = true := by
  simp only [isNegative, Bool.and_eq_true] at h
  exact h.1

theorem orderKept_iff : t.OrderKept a b ↔ (a < b ↔ t.toInt (t.trunc a) < t.toInt (t.trunc b)) := by
  rw [toInt_lt, word_lt (t := t)]
  unfold OrderKept
  cases ha : t.isNegative a <;> cases hb : t.isNegative b <;> simp only
  case false.true =>
    have := lowPart_of_neg_pos hb ha (isSigned_of_isNegative hb)
    rw [iff_false]
    omega
  case true.false =>
    have := lowPart_of_neg_pos ha hb (isSigned_of_isNegative ha)
    rw [iff_true]
    omega
  all_goals omega

/-- Equality of the words is equality of the values. -/
def EqualityKept (t : OperandType) (a b : Word) : Prop := a = b ∨ t.lowPart a ≠ t.lowPart b

instance (t : OperandType) (a b : Word) : Decidable (t.EqualityKept a b) := inferInstanceAs (Decidable (_ ∨ _))

theorem equalityKept_iff : t.EqualityKept a b ↔ (a = b ↔ t.trunc a = t.trunc b) := by
  rw [trunc_inj]
  unfold EqualityKept
  constructor
  · rintro (rfl | h)
    · simp
    · exact ⟨fun e => e ▸ rfl, fun e => absurd e h⟩
  · intro h
    by_cases e : a = b
    · exact .inl e
    · exact .inr fun hl => e (h.2 hl)

end CompilerLab.Jit.OperandType
