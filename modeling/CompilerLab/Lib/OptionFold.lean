import Mathlib.Data.List.Basic
import Mathlib.Data.List.Forall2

/-!
# Loops that may fail

A loop over a list whose body may stop the program is a `foldlM` in `Option`. An invariant of the body is an invariant
of the loop.
-/

namespace CompilerLab.Lib

variable {σ α : Type*}

/-- What every step of a loop keeps, the whole loop keeps. -/
theorem foldlM_invariant {P : σ → Prop} {f : σ → α → Option σ} {l : List α} {s s' : σ}
    (step : ∀ s a s', a ∈ l → P s → f s a = some s' → P s') (hs : P s) (h : l.foldlM f s = some s') : P s' := by
  induction l generalizing s with
  | nil => cases h; exact hs
  | cons a l ih =>
      simp only [List.foldlM_cons, Option.bind_eq_bind, Option.bind_eq_some_iff] at h
      obtain ⟨t, ht, h⟩ := h
      exact ih (fun s b s' hb => step s b s' (List.mem_cons_of_mem _ hb)) (step _ _ _ List.mem_cons_self hs ht) h

/-- A relation every step respects relates the two ends of the loop. -/
theorem foldlM_rel {R : σ → σ → Prop} {f : σ → α → Option σ} {l : List α} {s s' : σ} (refl : ∀ s, R s s)
    (trans : ∀ {a b c}, R a b → R b c → R a c) (step : ∀ s a s', a ∈ l → f s a = some s' → R s s')
    (h : l.foldlM f s = some s') : R s s' :=
  foldlM_invariant (P := R s) (fun t a t' ha hst ht => trans hst (step t a t' ha ht)) (refl s) h

/-- A property of the elements passed so far holds at the end of a loop that completes. -/
theorem foldlM_passed {P : List α → σ → Prop} {f : σ → α → Option σ} {l : List α} {s s' : σ}
    (step : ∀ done a rest s s', l = done ++ a :: rest → P done s → f s a = some s' → P (done ++ [a]) s')
    (hs : P [] s) (h : l.foldlM f s = some s') : P l s' := by
  suffices ∀ rest done s, l = done ++ rest → P done s → rest.foldlM f s = some s' → P l s' from
    this l [] s rfl hs h
  intro rest
  induction rest with
  | nil =>
      intro done s heq hP h
      cases h
      rwa [heq, List.append_nil]
  | cons a rest ih =>
      intro done s heq hP h
      simp only [List.foldlM_cons, Option.bind_eq_bind, Option.bind_eq_some_iff] at h
      obtain ⟨t, ht, h⟩ := h
      exact ih (done ++ [a]) t (by simp [heq]) (step done a rest s t heq hP ht) h

/-- A loop whose body can always go on completes. -/
theorem foldlM_completes {P : List α → σ → Prop} {f : σ → α → Option σ} {l : List α} {s : σ}
    (step : ∀ done a rest s, l = done ++ a :: rest → P done s → ∃ s', f s a = some s' ∧ P (done ++ [a]) s')
    (hs : P [] s) : ∃ s', l.foldlM f s = some s' ∧ P l s' := by
  suffices ∀ rest done s, l = done ++ rest → P done s → ∃ s', rest.foldlM f s = some s' from by
    obtain ⟨s', h⟩ := this l [] s rfl hs
    refine ⟨s', h, foldlM_passed (fun done a rest s s' heq hP hf => ?_) hs h⟩
    obtain ⟨t, ht, hP'⟩ := step done a rest s heq hP
    exact Option.some.inj (ht.symm.trans hf) ▸ hP'
  intro rest
  induction rest with
  | nil => intro done s _ _; exact ⟨s, rfl⟩
  | cons a rest ih =>
      intro done s heq hP
      obtain ⟨t, ht, hP'⟩ := step done a rest s heq hP
      obtain ⟨s', h⟩ := ih (done ++ [a]) t (by simp [heq]) hP'
      exact ⟨s', by simp [ht, h]⟩

/-- Two loops whose bodies keep related states related come to the same kind of end. -/
theorem foldlM_simulates {τ : Type*} {R : σ → τ → Prop} {f : σ → α → Option σ} {f' : τ → α → Option τ} {l : List α}
    {s : σ} {t : τ} (step : ∀ s t a, a ∈ l → R s t → Option.Rel R (f s a) (f' t a)) (h : R s t) :
    Option.Rel R (l.foldlM f s) (l.foldlM f' t) := by
  induction l generalizing s t with
  | nil => exact .some h
  | cons a l ih =>
      rw [List.foldlM_cons, List.foldlM_cons]
      have hstep := step s t a List.mem_cons_self h
      revert hstep
      generalize f s a = x, f' t a = y
      rintro (h' | _)
      · exact ih (fun s t b hb => step s t b (List.mem_cons_of_mem a hb)) h'
      · exact .none

/-- A loop over the joined parts of a list is a loop of loops. -/
theorem foldlM_flatMap {β : Type*} {f : α → List β} {v : σ → β → Option σ} {l : List α} {s : σ} :
    (l.flatMap f).foldlM v s = l.foldlM (fun s a => (f a).foldlM v s) s := by
  induction l generalizing s with
  | nil => rfl
  | cons a l ih =>
      rw [List.flatMap_cons, List.foldlM_append, List.foldlM_cons]
      congr 1
      funext t
      exact ih

/-- A map that may fail has a result when every element has. -/
theorem mapM_eq_some_iff {β : Type*} {f : α → Option β} {l : List α} {r : List β} :
    l.mapM f = some r ↔ List.Forall₂ (fun a b => f a = some b) l r := by
  induction l generalizing r with
  | nil =>
      rw [List.mapM_nil, List.forall₂_nil_left_iff]
      exact ⟨fun h => (Option.some.inj h).symm, fun h => h ▸ rfl⟩
  | cons a l ih =>
      simp only [List.mapM_cons, Option.bind_eq_bind, Option.bind_eq_some_iff, Option.pure_def, Option.some.injEq,
        List.forall₂_cons_left_iff, ih]
      constructor
      · rintro ⟨b, hb, s, hs, rfl⟩
        exact ⟨b, s, hb, hs, rfl⟩
      · rintro ⟨b, s, hb, hs, rfl⟩
        exact ⟨b, hb, s, hs, rfl⟩

end CompilerLab.Lib
