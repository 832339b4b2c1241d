import Mathlib.Data.List.Basic

/-!
# Finite runs of a labelled step relation

A run records the label of each of its steps. Invariants may speak of the labels seen so far.
-/

namespace CompilerLab.Lib

variable {σ α : Type*}

/-- The states a step relation leads to, with the labels of the steps in order. -/
inductive Run (R : σ → α → σ → Prop) (s : σ) : List α → σ → Prop
  | nil : Run R s [] s
  | snoc {as : List α} {t u : σ} {a : α} : Run R s as t → R t a u → Run R s (as ++ [a]) u

namespace Run

variable {R : σ → α → σ → Prop} {s t u : σ} {as bs : List α} {a : α}

theorem single (h : R s a t) : Run R s [a] t :=
  show Run R s ([] ++ [a]) t from .snoc .nil h

theorem append (h : Run R s as t) (h' : Run R t bs u) : Run R s (as ++ bs) u := by
  induction h' with
  | nil => simpa using h
  | snoc _ hstep ih => rw [← List.append_assoc]; exact .snoc ih hstep

theorem cons (hstep : R s a t) (h : Run R t as u) : Run R s (a :: as) u := append (single hstep) h

theorem cases_head (h : Run R s as t) : as = [] ∧ t = s ∨ ∃ a bs u, as = a :: bs ∧ R s a u ∧ Run R u bs t := by
  induction h with
  | nil => exact .inl ⟨rfl, rfl⟩
  | @snoc as t u a _ hstep ih =>
      rcases ih with ⟨rfl, rfl⟩ | ⟨b, bs, v, rfl, hb, hr⟩
      · exact .inr ⟨a, [], u, rfl, hstep, .nil⟩
      · exact .inr ⟨b, bs ++ [a], v, rfl, hb, hr.snoc hstep⟩

/-- Where each state has one step at most, a run that cannot be continued passes the states of every other run. -/
theorem continues (det : ∀ {s t u : σ} {a b : α}, R s a t → R s b u → t = u) (h : Run R s as t) (h' : Run R s bs u)
    (stuck : ∀ a v, ¬ R u a v) : ∃ cs, Run R t cs u := by
  induction h with
  | nil => exact ⟨bs, h'⟩
  | @snoc _ t v a _ hstep ih =>
      obtain ⟨cs, hcs⟩ := ih
      rcases hcs.cases_head with ⟨-, rfl⟩ | ⟨c, ds, w, -, hc, hr⟩
      · exact absurd hstep (stuck a v)
      · exact ⟨ds, det hstep hc ▸ hr⟩

/-- What holds at the start and is kept by every step, whatever the labels before it, holds of every run. -/
theorem invariant {P : List α → σ → Prop} (start : P [] s)
    (step : ∀ {as t a u}, P as t → R t a u → P (as ++ [a]) u) (h : Run R s as t) : P as t := by
  induction h with
  | nil => exact start
  | snoc _ hstep ih => exact step ih hstep

/-- A run is no longer than a potential each of its steps lowers. -/
theorem length_add_le {m : σ → Nat} (step : ∀ {as t a u}, Run R s as t → R t a u → m u + 1 ≤ m t) (h : Run R s as t) :
    as.length + m t ≤ m s := by
  induction h with
  | nil => simp
  | snoc hr hstep ih =>
      have := step hr hstep
      simp only [List.length_append, List.length_singleton]
      omega

/-- What can take a step and be kept by it can take any number of steps. -/
theorem exists_of_length {P : σ → Prop} (start : P s) (step : ∀ {t}, P t → ∃ a u, R t a u ∧ P u) (n : Nat) :
    ∃ as t, as.length = n ∧ Run R s as t ∧ P t := by
  induction n with
  | zero => exact ⟨[], s, rfl, .nil, start⟩
  | succ n ih =>
      obtain ⟨as, t, hlen, hr, ht⟩ := ih
      obtain ⟨a, u, hstep, hu⟩ := step ht
      exact ⟨as ++ [a], u, by simp [hlen], hr.snoc hstep, hu⟩

/-- The invariant rule when every step of the run is known to meet a condition. -/
theorem invariant_of_forall {P : σ → Prop} {C : σ → α → Prop} (start : P s)
    (step : ∀ {t a u}, P t → C t a → R t a u → P u)
    (h : Run (fun t a u => C t a ∧ R t a u) s as t) : P t :=
  invariant (P := fun _ => P) start (fun ht hstep => step ht hstep.1 hstep.2) h

end Run

end CompilerLab.Lib
