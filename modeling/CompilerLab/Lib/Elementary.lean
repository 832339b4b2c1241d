import Mathlib

/-!
# Elementary functions

What differentiation knows of the elementary functions: where they have derivatives, and which.
-/

namespace CompilerLab.Lib

/-- Elementary functions over a field with their derivatives. -/
structure Elementary (𝕜 : Type*) [NontriviallyNormedField 𝕜] where
  sin : 𝕜 → 𝕜
  cos : 𝕜 → 𝕜
  ln : 𝕜 → 𝕜
  pow : 𝕜 → 𝕜 → 𝕜
  lnDomain : Set 𝕜
  powDomain : Set (𝕜 × 𝕜)
  hasDerivAt_sin : ∀ x, HasDerivAt sin (cos x) x
  hasDerivAt_cos : ∀ x, HasDerivAt cos (-sin x) x
  hasDerivAt_ln : ∀ x ∈ lnDomain, HasDerivAt ln (1 / x) x
  hasDerivAt_pow : ∀ x n, (x, n) ∈ powDomain → HasDerivAt (fun y => pow y n) (n * pow x (n - 1)) x

namespace Elementary

variable {𝕜 : Type*} [NontriviallyNormedField 𝕜] (E : Elementary 𝕜) {f g : 𝕜 → 𝕜} {f' g' n x : 𝕜}

/-! ## The chain rule -/

theorem sin_comp (h : HasDerivAt f f' x) : HasDerivAt (fun y => E.sin (f y)) (E.cos (f x) * f') x :=
  (E.hasDerivAt_sin (f x)).comp x h

theorem cos_comp (h : HasDerivAt f f' x) : HasDerivAt (fun y => E.cos (f y)) (-E.sin (f x) * f') x :=
  (E.hasDerivAt_cos (f x)).comp x h

theorem ln_comp (h : HasDerivAt f f' x) (hx : f x ∈ E.lnDomain) : HasDerivAt (fun y => E.ln (f y)) (1 / f x * f') x :=
  (E.hasDerivAt_ln (f x) hx).comp x h

theorem pow_comp (h : HasDerivAt f f' x) (hx : (f x, n) ∈ E.powDomain) :
    HasDerivAt (fun y => E.pow (f y) n) (n * E.pow (f x) (n - 1) * f') x :=
  HasDerivAt.comp x (E.hasDerivAt_pow (f x) n hx) h

/-- The functions of the reals. A power is differentiated at a positive base, and with an integer exponent at any base but
the zero of a negative power. -/
noncomputable def real : Elementary ℝ where
  sin := Real.sin
  cos := Real.cos
  ln := Real.log
  pow := fun x y => x ^ y
  lnDomain := {x | 0 < x}
  powDomain := {p | 0 < p.1 ∨ (∃ k : ℤ, p.2 = k) ∧ (p.1 ≠ 0 ∨ 1 ≤ p.2)}
  hasDerivAt_sin := Real.hasDerivAt_sin
  hasDerivAt_cos := Real.hasDerivAt_cos
  hasDerivAt_ln x hx := by
    rw [one_div]
    exact Real.hasDerivAt_log (ne_of_gt hx)
  hasDerivAt_pow x n hx := Real.hasDerivAt_rpow_const (hx.elim (fun h => .inl h.ne') fun h => h.2)

end Elementary

end CompilerLab.Lib
