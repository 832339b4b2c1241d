import Mathlib.Data.List.Basic
import Mathlib.Data.Set.Basic

/-!
# Contracting a graph

The vertices of a set `D` are taken out of a graph, and a path that went through them becomes one edge. Nothing that can be seen on a
path changes when the vertices of `D` cannot be seen.
-/

namespace CompilerLab.Lib

variable {α : Type*} {r r₁ r₂ : α → α → Prop} {D D₁ D₂ : Set α} {a b e p s x : α}

/-- A path from `p` to `s` has only vertices of `D` between its ends, and `e` is the last vertex before `s`. -/
inductive Enters (r : α → α → Prop) (D : Set α) (e s : α) : α → Prop
  | edge : r e s → Enters r D e s e
  | step {p x : α} : r p x → x ∈ D → Enters r D e s x → Enters r D e s p

namespace Enters

theorem mono (hD : D₁ ⊆ D₂) (h : Enters r D₁ e s p) : Enters r D₂ e s p := by
  induction h with
  | edge h => exact .edge h
  | step hpx hx _ ih => exact .step hpx (hD hx) ih

theorem trans {c : α} (h : Enters r D c x p) (hx : x ∈ D) (hs : Enters r D e s x) : Enters r D e s p := by
  induction h with
  | edge h => exact .step h hx hs
  | step hpx hy _ ih => exact .step hpx hy ih

theorem last (h : Enters r D e s p) : r e s := by
  induction h with
  | edge h => exact h
  | step _ _ _ ih => exact ih

theorem last_mem (h : Enters r D e s p) : e = p ∨ e ∈ D := by
  induction h with
  | edge _ => exact .inl rfl
  | step _ hx _ ih =>
      rcases ih with rfl | ih
      · exact .inr hx
      · exact .inr ih

end Enters

/-- `r₁` is what `r` becomes when the vertices of `D` are taken out. -/
def Contracts (r : α → α → Prop) (D : Set α) (r₁ : α → α → Prop) : Prop :=
  ∀ p s, r₁ p s ↔ p ∉ D ∧ s ∉ D ∧ ∃ e, Enters r D e s p

namespace Contracts

theorem refl (r : α → α → Prop) : Contracts r ∅ r := by
  intro p s
  constructor
  · intro h
    exact ⟨Set.notMem_empty p, Set.notMem_empty s, p, .edge h⟩
  · rintro ⟨-, -, e, h⟩
    cases h with
    | edge h => exact h
    | step _ hx _ => exact hx.elim

theorem enter (h : Contracts r D₁ r₁) (hp : p ∉ D₁) (hs : s ∉ D₁) (he : Enters r D₁ e s p) : r₁ p s :=
  (h p s).mpr ⟨hp, hs, e, he⟩

/-- A path through both sets is a path through the second one, in which each edge is a path through the first. A path that begins in
the first set leaves it at the end, or at a vertex of the second. -/
theorem split (h : Contracts r D₁ r₁) (hs : s ∉ D₁) (he : Enters r (D₁ ∪ D₂) e s p) :
    (p ∉ D₁ → ∃ m, Enters r₁ D₂ m s p ∧ Enters r D₁ e s m) ∧
    (p ∈ D₁ → Enters r D₁ e s p ∨
      ∃ x c m, x ∉ D₁ ∧ x ∈ D₂ ∧ Enters r D₁ c x p ∧ Enters r₁ D₂ m s x ∧ Enters r D₁ e s m) := by
  induction he with
  | edge hes =>
      constructor
      · intro hp
        exact ⟨e, .edge (h.enter hp hs (.edge hes)), .edge hes⟩
      · intro _
        exact .inl (.edge hes)
  | @step p x hpx hx _ ih =>
      obtain ⟨ihout, ihin⟩ := ih
      by_cases hx₁ : x ∈ D₁
      · rcases ihin hx₁ with hin | ⟨y, c, m, hy₁, hy₂, hxy, hm, hem⟩
        · have hps : Enters r D₁ e s p := .step hpx hx₁ hin
          exact ⟨fun hp => ⟨p, .edge (h.enter hp hs hps), hps⟩, fun _ => .inl hps⟩
        · have hpy : Enters r D₁ c y p := .step hpx hx₁ hxy
          exact ⟨fun hp => ⟨m, .step (h.enter hp hy₁ hpy) hy₂ hm, hem⟩, fun _ => .inr ⟨y, c, m, hy₁, hy₂, hpy, hm, hem⟩⟩
      · obtain ⟨m, hm, hem⟩ := ihout hx₁
        have hx₂ : x ∈ D₂ := hx.resolve_left hx₁
        have hpx' : Enters r D₁ p x p := .edge hpx
        exact ⟨fun hp => ⟨m, .step (h.enter hp hx₁ hpx') hx₂ hm, hem⟩, fun _ => .inr ⟨x, p, m, hx₁, hx₂, hpx', hm, hem⟩⟩

theorem join {m : α} (h : Contracts r D₁ r₁) (hm : Enters r₁ D₂ m s p) (hem : Enters r D₁ e s m) :
    Enters r (D₁ ∪ D₂) e s p := by
  induction hm with
  | edge _ => exact hem.mono Set.subset_union_left
  | @step p x hpx hx _ ih =>
      obtain ⟨-, -, c, hc⟩ := (h p x).mp hpx
      exact (hc.mono Set.subset_union_left).trans (.inr hx) ih

/-- Taking out one set and then another takes out both. -/
theorem trans (h₁ : Contracts r D₁ r₁) (h₂ : Contracts r₁ D₂ r₂) : Contracts r (D₁ ∪ D₂) r₂ := by
  intro p s
  rw [h₂ p s, Set.mem_union, Set.mem_union, not_or, not_or]
  constructor
  · rintro ⟨hp₂, hs₂, m, hm⟩
    obtain ⟨-, hs₁, e, he⟩ := (h₁ m s).mp hm.last
    refine ⟨⟨?_, hp₂⟩, ⟨hs₁, hs₂⟩, e, h₁.join hm he⟩
    cases hm with
    | edge hps => exact ((h₁ p s).mp hps).1
    | step hpx _ _ => exact ((h₁ p _).mp hpx).1
  · rintro ⟨⟨hp₁, hp₂⟩, ⟨hs₁, hs₂⟩, e, he⟩
    obtain ⟨m, hm, -⟩ := (h₁.split hs₁ he).1 hp₁
    exact ⟨hp₂, hs₂, m, hm⟩

end Contracts

/-! ## Where an edge leads -/

/-- Following the edges from `x` through the vertices of `D` leads to `y`, outside of `D`. -/
def Onward (r : α → α → Prop) (D : Set α) (x y : α) : Prop :=
  y ∉ D ∧ (x = y ∨ x ∈ D ∧ ∃ e, Enters r D e y x)

theorem Onward.trans {y z : α} (h : Contracts r D₁ r₁) (hxy : Onward r D₁ x y) (hyz : Onward r₁ D₂ y z) :
    Onward r (D₁ ∪ D₂) x z := by
  obtain ⟨hy₁, hxy⟩ := hxy
  obtain ⟨hz₂, rfl | ⟨hy₂, m, hm⟩⟩ := hyz
  · refine ⟨fun hy => hy.elim hy₁ hz₂, ?_⟩
    rcases hxy with rfl | ⟨hx, e, he⟩
    · exact .inl rfl
    · exact .inr ⟨.inl hx, e, he.mono Set.subset_union_left⟩
  · obtain ⟨-, hz₁, e, he⟩ := (h m z).mp hm.last
    have hjoin := h.join hm he
    refine ⟨fun hz => hz.elim hz₁ hz₂, ?_⟩
    rcases hxy with rfl | ⟨hx, c, hc⟩
    · exact .inr ⟨.inr hy₂, e, hjoin⟩
    · exact .inr ⟨.inl hx, e, (hc.mono Set.subset_union_left).trans (.inr hy₂) hjoin⟩

/-! ## What can be seen -/

section
variable {visible : α → Bool} {w : List α}

/-- `w` is what can be seen of a path from a vertex. -/
inductive Trace (r : α → α → Prop) (visible : α → Bool) : α → List α → Prop
  | stop (a : α) : Trace r visible a ([a].filter visible)
  | step {a b : α} {w : List α} : r a b → Trace r visible b w → Trace r visible a ([a].filter visible ++ w)

theorem Trace.enters (hD : ∀ x ∈ D, visible x = false) (he : Enters r D e s p) (hw : Trace r visible s w) :
    Trace r visible p ([p].filter visible ++ w) := by
  induction he with
  | edge h => exact .step h hw
  | @step p x hpx hx _ ih =>
      rw [List.filter_singleton, hD x hx] at ih
      exact .step hpx ih

theorem Trace.expand (h : Contracts r D r₁) (hD : ∀ x ∈ D, visible x = false) (hw : Trace r₁ visible a w) :
    Trace r visible a w := by
  induction hw with
  | stop a => exact .stop a
  | @step a b w hab _ ih =>
      obtain ⟨-, -, e, he⟩ := (h a b).mp hab
      exact ih.enters hD he

/-- A path that begins in `D` shows nothing, or leaves `D`. -/
theorem Trace.contract_aux (h : Contracts r D r₁) (hD : ∀ x ∈ D, visible x = false) (hw : Trace r visible a w) :
    (a ∉ D → Trace r₁ visible a w) ∧
    (a ∈ D → w = [] ∨ ∃ e b, b ∉ D ∧ Enters r D e b a ∧ Trace r₁ visible b w) := by
  induction hw with
  | stop a =>
      refine ⟨fun _ => .stop a, fun ha => .inl ?_⟩
      rw [List.filter_singleton, hD a ha]
      rfl
  | @step a b w hab _ ih =>
      obtain ⟨ihout, ihin⟩ := ih
      by_cases hb : b ∈ D
      · rcases ihin hb with rfl | ⟨e, c, hc, he, hw⟩
        · rw [List.append_nil]
          refine ⟨fun _ => .stop a, fun ha => .inl ?_⟩
          rw [List.filter_singleton, hD a ha]
          rfl
        · refine ⟨fun ha => .step (h.enter ha hc (.step hab hb he)) hw, fun ha => .inr ⟨e, c, hc, .step hab hb he, ?_⟩⟩
          rw [List.filter_singleton, hD a ha]
          exact hw
      · refine ⟨fun ha => .step (h.enter ha hb (.edge hab)) (ihout hb), fun ha => .inr ⟨a, b, hb, .edge hab, ?_⟩⟩
        rw [List.filter_singleton, hD a ha]
        exact ihout hb

/-- What can be seen on the paths does not change. -/
theorem Contracts.trace_iff (h : Contracts r D r₁) (hD : ∀ x ∈ D, visible x = false) (ha : a ∉ D) :
    Trace r₁ visible a w ↔ Trace r visible a w :=
  ⟨fun hw => hw.expand h hD, fun hw => (hw.contract_aux h hD).1 ha⟩

end

end CompilerLab.Lib
