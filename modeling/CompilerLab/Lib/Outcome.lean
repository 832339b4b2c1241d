import Mathlib.Data.List.Infix

/-!
# Programs that keep their state when they stop

What holds after a program, where it completes and where it stops with an error, what its runs show of a condition, and what it
adds to a trace.
-/

namespace CompilerLab.Lib

variable {ε σ α β τ : Type} {m : EStateM ε σ α} {f : α → EStateM ε σ β} {s : σ}

/-- From `s` the program completes with `post` or stops with `err`. -/
def Ends (m : EStateM ε σ α) (s : σ) (post : α → σ → Prop) (err : ε → σ → Prop) : Prop :=
  match m s with
  | .ok a s' => post a s'
  | .error e s' => err e s'

namespace Ends

variable {post post' : α → σ → Prop} {err err' : ε → σ → Prop}

theorem pure {a : α} (h : post a s) : Ends (pure a : EStateM ε σ α) s post err := h

theorem throw {e : ε} (h : err e s) : Ends (throw e : EStateM ε σ α) s post err := h

theorem modify {g : σ → σ} {post : PUnit → σ → Prop} (h : post ⟨⟩ (g s)) :
    Ends (modify g : EStateM ε σ PUnit) s post err := h

theorem get {post : σ → σ → Prop} (h : post s s) : Ends (get : EStateM ε σ σ) s post err := h

theorem get_bind {f : σ → EStateM ε σ β} {post : β → σ → Prop} (h : Ends (f s) s post err) :
    Ends ((MonadState.get : EStateM ε σ σ) >>= f) s post err :=
  h

theorem modify_bind {g : σ → σ} {f : PUnit → EStateM ε σ β} {post : β → σ → Prop} (h : Ends (f ⟨⟩) (g s) post err) :
    Ends ((modifyGet fun s => (⟨⟩, g s) : EStateM ε σ PUnit) >>= f) s post err :=
  h

theorem bind {mid : α → σ → Prop} {post : β → σ → Prop} (hm : Ends m s mid err)
    (hf : ∀ a s', mid a s' → Ends (f a) s' post err) : Ends (m >>= f) s post err := by
  change Ends (EStateM.bind m f) s post err
  unfold Ends at hm ⊢
  unfold EStateM.bind
  cases hrun : m s with
  | ok a s' =>
      rw [hrun] at hm
      exact hf a s' hm
  | error e s' =>
      rw [hrun] at hm
      exact hm

theorem mono (hm : Ends m s post err) (hpost : ∀ a s', post a s' → post' a s') (herr : ∀ e s', err e s' → err' e s') :
    Ends m s post' err' := by
  unfold Ends at hm ⊢
  cases hrun : m s with
  | ok a s' =>
      rw [hrun] at hm
      exact hpost a s' hm
  | error e s' =>
      rw [hrun] at hm
      exact herr e s' hm

theorem of_ok {a : α} {s' : σ} (hm : Ends m s post err) (h : m s = .ok a s') : post a s' := by
  rw [Ends, h] at hm
  exact hm

theorem of_error {e : ε} {s' : σ} (hm : Ends m s post err) (h : m s = .error e s') : err e s' := by
  rw [Ends, h] at hm
  exact hm

end Ends

/-! ## Conditions a run decides -/

/-- A run that completes shows that the condition holds, a run that stops with such a fault that not; other faults show nothing. -/
def Judges (fault other : ε → Prop) (m : EStateM ε σ α) (holds : Prop) : Prop :=
  ∀ s, Ends m s (fun _ _ => holds) fun e _ => fault e ∧ ¬holds ∨ other e

namespace Judges

variable {fault other : ε → Prop} {P Q : Prop}

theorem pure {a : α} : Judges fault other (pure a : EStateM ε σ α) True := fun _ => Ends.pure trivial

theorem modify {g : σ → σ} : Judges fault other (modify g : EStateM ε σ PUnit) True := fun _ => Ends.modify trivial

theorem get : Judges fault other (get : EStateM ε σ σ) True := fun _ => Ends.get trivial

theorem throw {e : ε} (h : fault e ∧ ¬P ∨ other e) : Judges fault other (throw e : EStateM ε σ α) P := fun _ => Ends.throw h

theorem bind (hm : Judges fault other m P) (hf : ∀ a, Judges fault other (f a) Q) : Judges fault other (m >>= f) (P ∧ Q) := by
  intro s
  have hm' : Ends m s (fun _ _ => P) fun e _ => fault e ∧ ¬(P ∧ Q) ∨ other e :=
    (hm s).mono (fun _ _ h => h) fun _ _ h => h.imp_left fun he => ⟨he.1, fun hPQ => he.2 hPQ.1⟩
  refine hm'.bind fun a s' hP => (hf a s').mono (fun _ _ hQ => ⟨hP, hQ⟩) ?_
  exact fun _ _ h => h.imp_left fun he => ⟨he.1, fun hPQ => he.2 hPQ.2⟩

theorem swap (hm : Judges fault other m P) (hf : ∀ a, Judges fault other (f a) Q) : Judges fault other (m >>= f) (Q ∧ P) := by
  simpa only [and_comm] using hm.bind hf

/-- The first part decides nothing. -/
theorem before (hm : Judges fault other m True) (hf : ∀ a, Judges fault other (f a) Q) : Judges fault other (m >>= f) Q := by
  simpa only [true_and] using hm.bind hf

/-- The second part decides nothing. -/
theorem after (hm : Judges fault other m P) (hf : ∀ a, Judges fault other (f a) True) : Judges fault other (m >>= f) P := by
  simpa only [and_true] using hm.bind hf

end Judges

/-! ## Traces -/

/-- A run that completes adds `added` to the trace and establishes `post`. -/
def Adds (trace : σ → List τ) (m : EStateM ε σ α) (s : σ) (added : List τ) (post : σ → Prop) : Prop :=
  Ends m s (fun _ s' => trace s' = trace s ++ added ∧ post s') fun _ _ => True

namespace Adds

variable {trace : σ → List τ} {added added' : List τ} {mid post : σ → Prop}

theorem pure {a : α} (h : post s) : Adds trace (pure a : EStateM ε σ α) s [] post := Ends.pure ⟨(List.append_nil _).symm, h⟩

theorem throw {e : ε} : Adds trace (throw e : EStateM ε σ α) s added post := Ends.throw trivial

theorem get_bind {f : σ → EStateM ε σ β} (h : Adds trace (f s) s added post) : Adds trace (get >>= f) s added post := h

theorem modify {g : σ → σ} (htrace : trace (g s) = trace s ++ added) (h : post (g s)) :
    Adds trace (modify g : EStateM ε σ PUnit) s added post :=
  Ends.modify ⟨htrace, h⟩

theorem bind (hm : Adds trace m s added mid) (hf : ∀ a s', mid s' → Adds trace (f a) s' added' post) :
    Adds trace (m >>= f) s (added ++ added') post := by
  refine Ends.bind hm ?_
  rintro a s' ⟨htrace, hmid⟩
  refine (hf a s' hmid).mono ?_ fun _ _ h => h
  rintro b t ⟨ht, hpost⟩
  exact ⟨by rw [ht, htrace, List.append_assoc], hpost⟩

/-- The first part adds nothing. -/
theorem after (hm : Adds trace m s [] mid) (hf : ∀ a s', mid s' → Adds trace (f a) s' added post) :
    Adds trace (m >>= f) s added post :=
  hm.bind hf

end Adds

end CompilerLab.Lib
