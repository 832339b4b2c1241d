import Mathlib.Order.Defs.Unbundled

/-!
# Programs with a state and errors

A relation between the states before and after a program that has not failed. For a preorder, the relation is kept by a program
when it is kept by its parts.
-/

namespace CompilerLab.Lib

variable {σ ε α β : Type} {R : σ → σ → Prop} {m : StateT σ (Except ε) α} {f : α → StateT σ (Except ε) β} {s s' : σ} {a : α}
  {b : β}

theorem run_bind_ok (h : (m >>= f).run s = .ok (b, s')) : ∃ a t, m.run s = .ok (a, t) ∧ (f a).run t = .ok (b, s') := by
  rw [StateT.run_bind] at h
  cases hm : m.run s with
  | ok p =>
      rw [hm] at h
      exact ⟨p.1, p.2, rfl, h⟩
  | error e =>
      rw [hm] at h
      cases h

theorem run_bind_of_ok {t : σ} {x : Except ε (β × σ)} (hm : m.run s = .ok (a, t)) (hf : (f a).run t = x) :
    (m >>= f).run s = x := by
  rw [StateT.run_bind, hm]
  exact hf

theorem run_pure_ok {a' : α} (h : (pure a : StateT σ (Except ε) α).run s = .ok (a', s')) : a' = a ∧ s' = s := by
  injection h with h
  injection h with ha hs
  exact ⟨ha.symm, hs.symm⟩

theorem run_lift_ok {x : Except ε α} (h : (liftM x : StateT σ (Except ε) α).run s = .ok (a, s')) : x = .ok a ∧ s' = s := by
  cases x with
  | ok b =>
      injection h with h
      injection h with ha hs
      exact ⟨congrArg Except.ok ha, hs.symm⟩
  | error e => cases h

/-- The relation holds between the states before and after the program. -/
def Keeps (R : σ → σ → Prop) (m : StateT σ (Except ε) α) : Prop := ∀ s a s', m.run s = .ok (a, s') → R s s'

namespace Keeps

theorem mono {R' : σ → σ → Prop} (hm : Keeps R m) (h : ∀ s s', R s s' → R' s s') : Keeps R' m :=
  fun s a s' hok => h s s' (hm s a s' hok)

theorem throw (e : ε) : Keeps R (throw e : StateT σ (Except ε) α) := fun _ _ _ h => by cases h

theorem modify {g : σ → σ} (h : ∀ s, R s (g s)) : Keeps R (modify g : StateT σ (Except ε) PUnit) := by
  intro s a s' hok
  injection hok with hok
  injection hok with _ hs
  exact hs ▸ h s

theorem ite {c : Prop} [Decidable c] {m' : StateT σ (Except ε) α} (hm : Keeps R m) (hm' : Keeps R m') :
    Keeps R (if c then m else m') := by
  split
  · exact hm
  · exact hm'

variable [IsPreorder σ R]

theorem pure (a : α) : Keeps R (pure a : StateT σ (Except ε) α) := fun s _ _ h => (run_pure_ok h).2 ▸ refl_of R s

theorem lift (x : Except ε α) : Keeps R (liftM x : StateT σ (Except ε) α) := fun s _ _ h => (run_lift_ok h).2 ▸ refl_of R s

theorem get : Keeps R (get : StateT σ (Except ε) σ) := by
  intro s a s' hok
  injection hok with hok
  injection hok with _ hs
  exact hs ▸ refl_of R s

theorem bind (hm : Keeps R m) (hf : ∀ a, Keeps R (f a)) : Keeps R (m >>= f) := by
  intro s b s' h
  obtain ⟨a, t, ha, hb⟩ := run_bind_ok h
  exact trans_of R (hm s a t ha) (hf a t b s' hb)

end Keeps

end CompilerLab.Lib
