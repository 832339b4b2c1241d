import CompilerLab.Lib.OptionFold
import Mathlib.Data.Fintype.Card
import Mathlib.Data.Set.Finite.List

/-!
# Pruning along a sequence

A sequence is worked through from its start. An element that is still there looks at some elements and removes some of
these; looking at one that is gone stops the program.
-/

namespace CompilerLab.Lib

variable {α : Type*} [DecidableEq α]

/-- What each element looks at and removes, and what is gone before the start. -/
structure Pruning (α : Type*) where
  looks : α → List α
  removed : α → List α
  gone : α → Bool

namespace Pruning

/-- An element comes up when `dead` have been removed. -/
def visit (p : Pruning α) (dead : List α) (a : α) : Option (List α) :=
  if a ∈ dead then some dead
  else if ∃ b ∈ p.looks a, p.gone b = true ∨ b ∈ dead then none
  else some (dead ++ p.removed a)

/-- No element that is still there when it comes up looks at one that is gone. -/
def Safe (p : Pruning α) (seq : List α) : Prop :=
  ∀ pre a post, seq = pre ++ a :: post → (∀ d ∈ pre, a ∉ p.removed d) →
    ∀ b ∈ p.looks a, p.gone b = false ∧ ∀ c ∈ pre, b ∉ p.removed c

variable {p : Pruning α} {seq pre dead dead' : List α} {a u : α}

/-- The elements removed so far are those the elements passed so far remove. -/
def Removed (p : Pruning α) (pre dead : List α) : Prop := ∀ u, u ∈ dead ↔ ∃ c ∈ pre, u ∈ p.removed c

section
variable (trans : ∀ a b c, b ∈ p.removed a → c ∈ p.removed b → c ∈ p.removed a)

include trans in
theorem Removed.visit (h : p.Removed pre dead) (hv : p.visit dead a = some dead') : p.Removed (pre ++ [a]) dead' := by
  unfold Pruning.visit at hv
  intro u
  simp only [List.mem_append, List.mem_singleton, or_and_right, exists_or, exists_eq_left]
  split at hv
  case isTrue ha =>
    obtain rfl := Option.some.inj hv
    obtain ⟨d, hd, had⟩ := (h a).1 ha
    rw [h u]
    exact ⟨.inl, fun hu => hu.elim id fun hua => ⟨d, hd, trans d a u had hua⟩⟩
  case isFalse ha =>
    split at hv
    · cases hv
    · obtain rfl := Option.some.inj hv
      rw [List.mem_append, h u]

include trans in
theorem removed_of_run (h : seq.foldlM p.visit [] = some dead) : p.Removed seq dead := by
  refine foldlM_passed (P := p.Removed) ?_ (fun u => by simp) h
  intro done a rest s s' _ hs hv
  exact hs.visit trans hv

include trans in
/-- The program comes to its end exactly on the sequences that are safe. -/
theorem run_iff_safe : (∃ dead, seq.foldlM p.visit [] = some dead) ↔ p.Safe seq := by
  constructor
  · rintro ⟨dead, h⟩ pre a post rfl hpre b hb
    simp only [List.foldlM_append, List.foldlM_cons, Option.bind_eq_bind, Option.bind_eq_some_iff] at h
    obtain ⟨s, hs, t, ht, -⟩ := h
    have hremoved := removed_of_run trans hs
    have ha : a ∉ s := fun ha => by
      obtain ⟨d, hd, had⟩ := (hremoved a).1 ha
      exact hpre d hd had
    simp only [visit, ha, if_false] at ht
    split at ht
    · cases ht
    · next hlooks =>
        simp only [not_exists, not_and, not_or, Bool.not_eq_true] at hlooks
        exact ⟨(hlooks b hb).1, fun c hc hbc => (hlooks b hb).2 ((hremoved b).2 ⟨c, hc, hbc⟩)⟩
  · intro hsafe
    obtain ⟨dead, h, -⟩ := foldlM_completes (f := p.visit) (P := p.Removed) (l := seq) (s := []) (fun pre a post s heq hs => by
      have hv : ∃ s', p.visit s a = some s' := by
        unfold visit
        split
        · exact ⟨_, rfl⟩
        · next ha =>
            refine ⟨_, if_neg ?_⟩
            rintro ⟨b, hb, hgone⟩
            obtain ⟨hkept, hpre⟩ := hsafe pre a post heq (fun d hd had => ha ((hs a).2 ⟨d, hd, had⟩)) b hb
            rcases hgone with hgone | hdead
            · rw [hkept] at hgone
              cases hgone
            · obtain ⟨c, hc, hbc⟩ := (hs b).1 hdead
              exact hpre c hc hbc
      obtain ⟨s', hs'⟩ := hv
      exact ⟨s', hs', hs.visit trans hs'⟩) fun u => by simp
    exact ⟨dead, h⟩

include trans in
/-- What is removed is removed by an element that stays. -/
theorem exists_kept (irrefl : ∀ a, a ∉ p.removed a) (hr : p.Removed seq dead) (hu : u ∈ dead) :
    ∃ c ∈ seq, c ∉ dead ∧ u ∈ p.removed c := by
  have wf : WellFounded fun c d : { x // x ∈ seq } => d.1 ∈ p.removed c.1 := by
    have : IsTrans { x // x ∈ seq } fun c d => d.1 ∈ p.removed c.1 := ⟨fun a b c hab hbc => trans a b c hab hbc⟩
    have : Std.Irrefl fun c d : { x // x ∈ seq } => d.1 ∈ p.removed c.1 := ⟨fun a => irrefl a⟩
    exact Finite.wellFounded_of_trans_of_irrefl _
  have key : ∀ c : { x // x ∈ seq }, u ∈ p.removed c.1 → ∃ c ∈ seq, c ∉ dead ∧ u ∈ p.removed c := by
    intro c
    induction c using wf.induction with
    | _ c ih =>
        intro huc
        by_cases hc : c.1 ∈ dead
        · obtain ⟨d, hd, hcd⟩ := (hr c).1 hc
          exact ih ⟨d, hd⟩ hcd (trans d c u hcd huc)
        · exact ⟨c, c.2, hc, huc⟩
  obtain ⟨c, hc, huc⟩ := (hr u).1 hu
  exact key ⟨c, hc⟩ huc

end

end Pruning

end CompilerLab.Lib
