import Mathlib.Data.List.Induction
import Mathlib.Data.List.Pairwise
import Mathlib.Data.Set.Insert
import Mathlib.Logic.Function.Iterate
import Mathlib.Order.Basic

/-!
# Parallel moves in sequence

A list of moves is meant to happen at once: every destination receives what its source held before. The file says
exactly when running the moves one after another, in the order of the list, does that.
-/

namespace CompilerLab.Lib

variable {L V : Type*} [DecidableEq L]

/-- Run moves `(destination, source)` one after another. -/
def runMoves (ms : List (L × L)) (σ : L → V) : L → V :=
  ms.foldl (fun σ m => Function.update σ m.1 (σ m.2)) σ

@[simp] theorem runMoves_nil (σ : L → V) : runMoves [] σ = σ := rfl

@[simp] theorem runMoves_cons (m : L × L) (ms : List (L × L)) (σ : L → V) :
    runMoves (m :: ms) σ = runMoves ms (Function.update σ m.1 (σ m.2)) := rfl

theorem runMoves_append (ms ns : List (L × L)) (σ : L → V) :
    runMoves (ms ++ ns) σ = runMoves ns (runMoves ms σ) := List.foldl_append

/-- Every destination ends with what its source held at the start, whatever was held. -/
def IsParallel (V : Type*) (ms : List (L × L)) : Prop :=
  ∀ σ : L → V, ∀ m ∈ ms, runMoves ms σ m.1 = σ m.2

/-- The moves of equal destinations agree, and no move overwrites what a later one reads. -/
def IsSequential (ms : List (L × L)) : Prop :=
  (∀ a ∈ ms, ∀ b ∈ ms, a.1 = b.1 → a.2 = b.2) ∧ ms.Pairwise fun a b => a.1 ≠ a.2 → a.1 ≠ b.2

instance (ms : List (L × L)) : Decidable (IsSequential ms) := inferInstanceAs (Decidable (_ ∧ _))

/-! ## Moves on contents -/

/-- Moves commute with a change of what is held. -/
theorem runMoves_comp {W : Type*} (ms : List (L × L)) (σ : L → V) (f : V → W) :
    runMoves ms (f ∘ σ) = f ∘ runMoves ms σ := by
  induction ms generalizing σ with
  | nil => rfl
  | cons m ms ih => rw [runMoves_cons, runMoves_cons, ← ih, Function.comp_update]; rfl

/-- Where each location's content comes from. -/
theorem runMoves_eq_comp (ms : List (L × L)) (σ : L → V) : runMoves ms σ = σ ∘ runMoves ms id := by
  rw [← runMoves_comp, Function.comp_id]

/-- It is enough to follow the locations themselves. -/
theorem isParallel_iff [Nontrivial V] (ms : List (L × L)) :
    IsParallel V ms ↔ ∀ m ∈ ms, runMoves ms id m.1 = m.2 := by
  constructor
  · intro h m hm
    by_contra hne
    obtain ⟨v, w, hvw⟩ := exists_pair_ne V
    have := h (fun l => if l = m.2 then v else w) m hm
    rw [runMoves_eq_comp, Function.comp_apply, if_neg hne, if_pos rfl] at this
    exact hvw this.symm
  · intro h σ m hm
    rw [runMoves_eq_comp, Function.comp_apply, h m hm]

/-- A move to its own source does nothing. -/
theorem runMoves_filter (ms : List (L × L)) (σ : L → V) :
    runMoves (ms.filter fun m => m.1 ≠ m.2) σ = runMoves ms σ := by
  induction ms generalizing σ with
  | nil => rfl
  | cons m ms ih =>
      by_cases h : m.1 = m.2
      · rw [List.filter_cons_of_neg (by simpa using h), runMoves_cons, ih, ← h, Function.update_eq_self]
      · rw [List.filter_cons_of_pos (by simpa using h), runMoves_cons, runMoves_cons, ih]

theorem runMoves_of_kept {ms : List (L × L)} {l : L} (h : ∀ m ∈ ms, m.1 = l → m.2 = l) (σ : L → V) :
    runMoves ms σ l = σ l := by
  induction ms generalizing σ with
  | nil => rfl
  | cons m ms ih =>
      rw [runMoves_cons, ih fun n hn => h n (List.mem_cons_of_mem _ hn), Function.update_apply]
      split
      · next hl => rw [h m List.mem_cons_self hl.symm]
      · rfl

/-! ## Sequential moves are parallel -/

theorem IsSequential.of_append_singleton {ms : List (L × L)} {m : L × L} (h : IsSequential (ms ++ [m])) :
    IsSequential ms ∧ (∀ a ∈ ms, a.1 = m.1 → a.2 = m.2) ∧ ∀ a ∈ ms, a.1 = m.2 → a.2 = m.2 := by
  obtain ⟨hf, hp⟩ := h
  rw [List.pairwise_append] at hp
  refine ⟨⟨fun a ha b hb => hf a (by simp [ha]) b (by simp [hb]), hp.1⟩,
    fun a ha => hf a (by simp [ha]) m (by simp), fun a ha heq => ?_⟩
  by_contra hne
  exact hp.2.2 a ha m (by simp) (fun h => hne (h ▸ heq)) heq

theorem IsSequential.runMoves_id {ms : List (L × L)} (h : IsSequential ms) : ∀ m ∈ ms, runMoves ms id m.1 = m.2 := by
  induction ms using List.reverseRecOn with
  | nil => simp
  | append_singleton ms m ih =>
      obtain ⟨hms, hdest, hread⟩ := h.of_append_singleton
      have src : runMoves ms id m.2 = m.2 := runMoves_of_kept hread id
      intro a ha
      rw [runMoves_append, runMoves_cons, runMoves_nil, src, Function.update_apply]
      split
      · next heq =>
          rcases List.mem_append.1 ha with ha | ha
          · exact (hdest a ha heq).symm
          · rw [List.mem_singleton.1 ha]
      · next hne =>
          rcases List.mem_append.1 ha with ha | ha
          · exact ih hms a ha
          · exact absurd (congrArg Prod.fst (List.mem_singleton.1 ha)) hne

/-! ## Parallel moves are sequential -/

/-- A content no location of a closed set holds does not come back into the set. -/
theorem runMoves_lost {ms : List (L × L)} {C : Set L} {v : V} (closed : ∀ m ∈ ms, m.1 ∈ C → m.2 ∈ C) {σ : L → V}
    (lost : ∀ l ∈ C, σ l ≠ v) : ∀ l ∈ C, runMoves ms σ l ≠ v := by
  induction ms generalizing σ with
  | nil => exact lost
  | cons m ms ih =>
      refine ih (fun n hn => closed n (List.mem_cons_of_mem _ hn)) fun l hl => ?_
      dsimp only
      rw [Function.update_apply]
      split
      · next heq => exact lost m.2 (closed m List.mem_cons_self (heq ▸ hl))
      · exact lost l hl

/-- Where the first of some elements of a list stands. -/
theorem exists_first {α : Type*} {p : α → Prop} {l : List α} (h : ∃ a ∈ l, p a) :
    ∃ l₁ a l₂, l = l₁ ++ a :: l₂ ∧ p a ∧ ∀ b ∈ l₁, ¬ p b := by
  induction l with
  | nil => obtain ⟨a, ha, -⟩ := h; cases ha
  | cons x l ih =>
      by_cases hx : p x
      · exact ⟨[], x, l, rfl, hx, by simp⟩
      · have : ∃ a ∈ l, p a := by
          obtain ⟨a, ha, hp⟩ := h
          rcases List.mem_cons.1 ha with rfl | ha
          · exact absurd hp hx
          · exact ⟨a, ha, hp⟩
        obtain ⟨l₁, a, l₂, rfl, hpa, hno⟩ := ih this
        exact ⟨x :: l₁, a, l₂, rfl, hpa, fun b hb => by
          rcases List.mem_cons.1 hb with rfl | hb
          · exact hx
          · exact hno b hb⟩

/-- The location a destination is moved from, itself when it is no destination. -/
noncomputable def source (ms : List (L × L)) (l : L) : L :=
  open Classical in if h : ∃ m ∈ ms, m.1 = l then h.choose.2 else l

theorem source_eq {ms : List (L × L)} (hf : ∀ a ∈ ms, ∀ b ∈ ms, a.1 = b.1 → a.2 = b.2) {m : L × L} (hm : m ∈ ms) :
    source ms m.1 = m.2 := by
  have h : ∃ n ∈ ms, n.1 = m.1 := ⟨m, hm, rfl⟩
  rw [source, dif_pos h]
  exact hf _ h.choose_spec.1 m hm h.choose_spec.2

/-- The moves that lead to `l`, and the sources of these, and so on, as locations. -/
def origins (ms : List (L × L)) (l : L) : Set L := {x | ∃ n, (source ms)^[n] l = x}

theorem origins_closed {ms : List (L × L)} {l x : L} (h : x ∈ origins ms l) : source ms x ∈ origins ms l := by
  obtain ⟨n, rfl⟩ := h
  exact ⟨n + 1, Function.iterate_succ_apply' ..⟩

/-- The first move into a set of origins loses the content of its destination for the whole set. -/
theorem lost_after_first {ms l₁ l₂ : List (L × L)} {m : L × L} {C : Set L} (heq : ms = l₁ ++ m :: l₂)
    (closed : ∀ m ∈ ms, m.1 ∈ C → m.2 ∈ C) (hm : m.1 ∈ C) (hne : m.1 ≠ m.2)
    (first : ∀ n ∈ l₁, ¬ (n.1 ∈ C ∧ n.1 ≠ n.2)) : ∀ l ∈ C, runMoves (l₁ ++ [m]) id l ≠ m.1 := by
  have kept l (hl : l ∈ C) : runMoves l₁ id l = l := by
    refine runMoves_of_kept (fun n hn heq => ?_) id
    by_contra hn2
    exact first n hn ⟨heq ▸ hl, fun h => hn2 (h ▸ heq)⟩
  intro l hl
  have hm2 : m.2 ∈ C := closed m (by simp [heq]) hm
  rw [runMoves_append, runMoves_cons, runMoves_nil, kept m.2 hm2, Function.update_apply]
  split
  · exact hne.symm
  · next h => rw [kept l hl]; exact h

theorem mem_after_first {α : Type*} {l₁ l₂ : List α} {m a b : α} (h : [a, b].Sublist (l₁ ++ m :: l₂)) (ha : a ∉ l₁) :
    b ∈ l₂ := by
  obtain ⟨s₁, s₂, heq, h₁, h₂⟩ := List.sublist_append_iff.1 h
  cases s₁ with
  | nil =>
      rw [List.nil_append] at heq
      rw [← heq] at h₂
      exact h₂.tail.subset (by simp)
  | cons x s₁ =>
      rw [List.cons_append, List.cons.injEq] at heq
      exact absurd (h₁.subset (heq.1 ▸ List.mem_cons_self)) ha

theorem isSequential_of_runMoves_id {ms : List (L × L)} (h : ∀ m ∈ ms, runMoves ms id m.1 = m.2) :
    IsSequential ms := by
  have functional : ∀ a ∈ ms, ∀ b ∈ ms, a.1 = b.1 → a.2 = b.2 := by
    intro a ha b hb heq
    rw [← h a ha, ← h b hb, heq]
  refine ⟨functional, ?_⟩
  rw [List.pairwise_iff_forall_sublist]
  intro a b hab hne heq
  have ha : a ∈ ms := hab.subset (by simp)
  have hb : b ∈ ms := hab.subset (by simp)
  -- every location the content of `a.1` can come back from
  let C := origins ms a.1
  have haC : a.1 ∈ C := ⟨0, rfl⟩
  have closed : ∀ m ∈ ms, m.1 ∈ C → m.2 ∈ C := fun m hm hC => source_eq functional hm ▸ origins_closed hC
  obtain ⟨l₁, m, l₂, hsplit, ⟨hmC, hmne⟩, first⟩ :=
    exists_first (p := fun n => n.1 ∈ C ∧ n.1 ≠ n.2) ⟨a, ha, haC, hne⟩
  have hm : m ∈ ms := by simp [hsplit]
  have lost := lost_after_first hsplit closed hmC hmne first
  have closed₂ : ∀ n ∈ l₂, n.1 ∈ C → n.2 ∈ C := fun n hn => closed n (by simp [hsplit, hn])
  have final l (hl : l ∈ C) : runMoves ms id l ≠ m.1 := by
    rw [hsplit, List.append_cons, runMoves_append]
    exact runMoves_lost closed₂ lost l hl
  obtain ⟨n, hn⟩ := hmC
  cases n with
  | succ n =>
      -- the location before it among the origins should have received the lost content
      have hp : (source ms)^[n] a.1 ∈ C := ⟨n, rfl⟩
      rw [Function.iterate_succ_apply'] at hn
      by_cases hdest : ∃ q ∈ ms, q.1 = (source ms)^[n] a.1
      · obtain ⟨q, hq, hq1⟩ := hdest
        rw [← hq1, source_eq functional hq] at hn
        exact final q.1 (hq1 ▸ hp) ((h q hq).trans hn)
      · rw [source, dif_neg hdest] at hn
        exact hdest ⟨m, hm, hn.symm⟩
  | zero =>
      -- `a.1` itself is lost first, and `b` reads it later
      have hma : a.1 = m.1 := hn
      obtain ⟨p, q, rfl⟩ := List.append_of_mem (mem_after_first (hsplit ▸ hab) fun ha => first a ha ⟨haC, hne⟩)
      have hbm : b.2 = m.1 := heq.symm.trans hma
      have closedp : ∀ n ∈ p, n.1 ∈ C → n.2 ∈ C := fun n hn => closed₂ n (by simp [hn])
      have closedq : ∀ n ∈ q, n.1 ∈ insert b.1 C → n.2 ∈ insert b.1 C := by
        rintro n hn (hnb | hnC)
        · exact .inr (functional n (by simp [hsplit, hn]) b hb hnb ▸ heq ▸ haC)
        · exact .inr (closed₂ n (by simp [hn]) hnC)
      have lostp := runMoves_lost closedp lost
      have lostb : ∀ l ∈ insert b.1 C, runMoves (l₁ ++ [m] ++ p ++ [b]) id l ≠ m.1 := by
        intro l hl
        rw [runMoves_append, runMoves_cons, runMoves_nil, runMoves_append, Function.update_apply]
        split
        · exact lostp b.2 (heq ▸ haC)
        · next h => exact lostp l (hl.resolve_left h)
      have hfinal := runMoves_lost closedq lostb b.1 (.inl rfl)
      rw [← runMoves_append] at hfinal
      refine hfinal ?_
      rw [show l₁ ++ [m] ++ p ++ [b] ++ q = ms by simp [hsplit], h b hb, hbm]

theorem isParallel_iff_isSequential [Nontrivial V] (ms : List (L × L)) : IsParallel V ms ↔ IsSequential ms := by
  rw [isParallel_iff]
  exact ⟨isSequential_of_runMoves_id, IsSequential.runMoves_id⟩

end CompilerLab.Lib
