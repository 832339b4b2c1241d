import Mathlib.Data.List.Induction
import Mathlib.Data.List.Nodup
import Mathlib.Tactic.Common

/-!
# Doubly linked lists

A list laid out in memory as cells with `next` and `prev` links. Membership in the list and the two links of every
element are all there is to it; inserting and removing a cell are described by what they write to the links.
-/

namespace CompilerLab.Lib

variable {α : Type*}

/-- The cells of `l` are linked in the order of `l`. -/
structure Chained (next prev : α → Option α) (l : List α) : Prop where
  nodup : l.Nodup
  links : ∀ l₁ i l₂, l = l₁ ++ i :: l₂ → next i = l₂.head? ∧ prev i = l₁.getLast?

namespace Chained

variable {next prev next' prev' : α → Option α} {l l₁ l₂ : List α} {i t : α}

theorem nil : Chained next prev [] := ⟨.nil, by simp⟩

theorem singleton (hn : next t = none) (hp : prev t = none) : Chained next prev [t] := by
  refine ⟨List.nodup_singleton t, fun l₁ i l₂ h => ?_⟩
  cases l₁ with
  | nil =>
      obtain ⟨rfl, rfl⟩ := List.cons.inj h
      exact ⟨hn, hp⟩
  | cons x l₁ => exact absurd (congrArg List.length h) (by simp)

theorem next_eq (h : Chained next prev (l₁ ++ i :: l₂)) : next i = l₂.head? := (h.links l₁ i l₂ rfl).1

theorem prev_eq (h : Chained next prev (l₁ ++ i :: l₂)) : prev i = l₁.getLast? := (h.links l₁ i l₂ rfl).2

theorem congr (h : Chained next prev l) (hl : ∀ i ∈ l, next' i = next i ∧ prev' i = prev i) :
    Chained next' prev' l := by
  refine ⟨h.nodup, fun l₁ i l₂ heq => ?_⟩
  obtain ⟨h₁, h₂⟩ := hl i (by simp [heq])
  exact ⟨h₁.trans (h.links l₁ i l₂ heq).1, h₂.trans (h.links l₁ i l₂ heq).2⟩

/-- A link out of the list stays in the list. -/
theorem mem_of_next (h : Chained next prev l) {j : α} (hi : i ∈ l) (hn : next i = some j) : j ∈ l := by
  obtain ⟨l₁, l₂, rfl⟩ := List.append_of_mem hi
  rw [h.next_eq] at hn
  exact List.mem_append_right _ (List.mem_cons_of_mem _ (List.mem_of_mem_head? hn))

theorem mem_of_prev (h : Chained next prev l) {j : α} (hi : i ∈ l) (hp : prev i = some j) : j ∈ l := by
  obtain ⟨l₁, l₂, rfl⟩ := List.append_of_mem hi
  rw [h.prev_eq] at hp
  exact List.mem_append_left _ (List.mem_of_getLast? hp)

/-- The links of the cells after `p`, one cell after another. -/
def linked (next prev : α → Option α) (p : Option α) : List α → Prop
  | [] => True
  | i :: l => next i = l.head? ∧ prev i = p ∧ linked next prev (some i) l

theorem linked_iff {p : Option α} : linked next prev p l ↔
    ∀ l₁ i l₂, l = l₁ ++ i :: l₂ → next i = l₂.head? ∧ prev i = (l₁.getLast?.or p) := by
  induction l generalizing p with
  | nil => simp [linked]
  | cons x l ih =>
      rw [linked, ih]
      constructor
      · rintro ⟨hn, hp, h⟩ l₁ i l₂ heq
        cases l₁ with
        | nil =>
            obtain ⟨rfl, rfl⟩ := List.cons.inj heq
            exact ⟨hn, by simpa using hp⟩
        | cons y l₁ =>
            obtain ⟨rfl, rfl⟩ := List.cons.inj heq
            have := h l₁ i l₂ rfl
            refine ⟨this.1, this.2.trans ?_⟩
            rw [List.getLast?_cons]
            cases l₁.getLast? <;> rfl
      · intro h
        obtain ⟨hn, hp⟩ := h [] x l rfl
        refine ⟨hn, by simpa using hp, fun l₁ i l₂ heq => ?_⟩
        obtain ⟨hn', hp'⟩ := h (x :: l₁) i l₂ (by rw [heq]; rfl)
        refine ⟨hn', hp'.trans ?_⟩
        rw [List.getLast?_cons]
        cases l₁.getLast? <;> rfl

theorem iff_linked : Chained next prev l ↔ l.Nodup ∧ linked next prev none l := by
  rw [linked_iff]
  simp only [Option.or_none]
  exact ⟨fun h => ⟨h.nodup, h.links⟩, fun h => ⟨h.1, h.2⟩⟩

instance decidableLinked [DecidableEq α] (p : Option α) : (l : List α) → Decidable (linked next prev p l)
  | [] => .isTrue trivial
  | i :: l =>
      have := decidableLinked (some i) l
      inferInstanceAs (Decidable (_ ∧ _ ∧ _))

instance [DecidableEq α] : Decidable (Chained next prev l) := decidable_of_iff _ iff_linked.symm

/-- In a list without duplicates, what stands on one side is not the end of the other side. -/
theorem getLast_ne (h : (l₁ ++ l₂).Nodup) (hi : i ∈ l₂) : l₁.getLast? ≠ some i := fun hl =>
  List.disjoint_of_nodup_append h (List.mem_of_getLast? hl) hi

theorem head_ne (h : (l₁ ++ l₂).Nodup) (hi : i ∈ l₁) : l₂.head? ≠ some i := fun hl =>
  List.disjoint_of_nodup_append h hi (List.mem_of_head? hl)

section
variable [DecidableEq α]

/-- Writing a new cell between two neighbours. -/
theorem insert (h : Chained next prev (l₁ ++ l₂)) (ht : t ∉ l₁ ++ l₂)
    (hnext : ∀ i ∈ l₁ ++ t :: l₂,
      next' i = if i = t then l₂.head? else if l₁.getLast? = some i then some t else next i)
    (hprev : ∀ i ∈ l₁ ++ t :: l₂,
      prev' i = if i = t then l₁.getLast? else if l₂.head? = some i then some t else prev i) :
    Chained next' prev' (l₁ ++ t :: l₂) := by
  have nodup : (l₁ ++ t :: l₂).Nodup := List.nodup_middle.2 (List.nodup_cons.2 ⟨ht, h.nodup⟩)
  refine ⟨nodup, fun a i c heq => ?_⟩
  have hi : i ∈ l₁ ++ t :: l₂ := by simp [heq]
  rw [hnext i hi, hprev i hi]
  rcases List.append_eq_append_iff.1 heq with ⟨d, rfl, hd⟩ | ⟨d, rfl, hd⟩
  · cases d with
    | nil =>
        obtain ⟨rfl, rfl⟩ := List.cons.inj hd
        simp
    | cons x d =>
        -- the cell is to the right of `t`
        obtain ⟨rfl, rfl⟩ := List.cons.inj hd
        have hne : i ≠ t := by rintro rfl; simp at ht
        have hl := getLast_ne h.nodup (i := i) (by simp)
        have links := h.links (l₁ ++ d) i c (by simp)
        have hd' : (d ++ i :: c).Nodup := h.nodup.of_append_right
        cases d with
        | nil => simp_all
        | cons x d =>
            have hx : x ≠ i := by rintro rfl; simp at hd'
            simp_all [List.getLast?_append, List.getLast?_cons]
  · cases d with
    | nil =>
        obtain ⟨rfl, rfl⟩ := List.cons.inj hd
        simp
    | cons x d =>
        -- the cell is to the left of `t`
        obtain ⟨rfl, rfl⟩ := List.cons.inj hd
        have hne : i ≠ t := by rintro rfl; simp at ht
        have hl := head_ne h.nodup (i := i) (by simp)
        have links := h.links a i (d ++ l₂) (by simp)
        have hd' : (i :: d).Nodup := h.nodup.of_append_left.of_append_right
        cases d using List.reverseRecOn with
        | nil => simp_all
        | append_singleton d x =>
            have hx : x ≠ i := by rintro rfl; simp at hd'
            simp_all [List.getLast?_append, List.getLast?_cons, List.head?_append]

/-- Taking a cell out and linking its neighbours. -/
theorem remove (h : Chained next prev (l₁ ++ t :: l₂))
    (hnext : ∀ i ∈ l₁ ++ l₂, next' i = if l₁.getLast? = some i then l₂.head? else next i)
    (hprev : ∀ i ∈ l₁ ++ l₂, prev' i = if l₂.head? = some i then l₁.getLast? else prev i) :
    Chained next' prev' (l₁ ++ l₂) := by
  have nodup : (l₁ ++ l₂).Nodup := (List.nodup_middle.1 h.nodup).of_cons
  refine ⟨nodup, fun a i c heq => ?_⟩
  have hi : i ∈ l₁ ++ l₂ := by simp [heq]
  rw [hnext i hi, hprev i hi]
  have right {d : List α} (h₂ : l₂ = d ++ i :: c) (ha : a = l₁ ++ d) :
      (if l₁.getLast? = some i then l₂.head? else next i) = c.head? ∧
        (if l₂.head? = some i then l₁.getLast? else prev i) = a.getLast? := by
    subst h₂ ha
    have hl := getLast_ne nodup (i := i) (by simp)
    have links := h.links (l₁ ++ t :: d) i c (by simp)
    have hd' : (d ++ i :: c).Nodup := nodup.of_append_right
    cases d with
    | nil => simp_all
    | cons x d =>
        have hx : x ≠ i := by rintro rfl; simp at hd'
        simp_all [List.getLast?_append, List.getLast?_cons]
  rcases List.append_eq_append_iff.1 heq with ⟨d, ha, h₂⟩ | ⟨d, rfl, hd⟩
  · exact right h₂ ha
  · cases d with
    | nil => exact right (d := []) hd.symm (by simp)
    | cons x d =>
        obtain ⟨rfl, rfl⟩ := List.cons.inj hd
        have hl := head_ne nodup (i := i) (by simp)
        have links := h.links a i (d ++ t :: l₂) (by simp)
        have hd' : (i :: d).Nodup := nodup.of_append_left.of_append_right
        rw [if_neg hl, links.1, links.2]
        refine ⟨?_, rfl⟩
        cases d using List.reverseRecOn with
        | nil => simp
        | append_singleton d x =>
            have hx : x ≠ i := by rintro rfl; simp at hd'
            rw [if_neg (by simpa [List.getLast?_cons] using hx)]
            simp [List.head?_append]

/-- The front part of a list that is cut in two. -/
theorem front (h : Chained next prev (l₁ ++ l₂)) (hnext : ∀ i ∈ l₁, next' i = if l₁.getLast? = some i then none else next i)
    (hprev : ∀ i ∈ l₁, prev' i = prev i) : Chained next' prev' l₁ := by
  refine ⟨h.nodup.of_append_left, fun a i c heq => ?_⟩
  have hi : i ∈ l₁ := by simp [heq]
  have links := h.links a i (c ++ l₂) (by simp [heq])
  have hnodup : (a ++ i :: c).Nodup := heq ▸ h.nodup.of_append_left
  rw [hnext i hi, hprev i hi, links.1, links.2, heq]
  refine ⟨?_, rfl⟩
  cases c using List.reverseRecOn with
  | nil => simp
  | append_singleton c x =>
      have hx : x ≠ i := by rintro rfl; simp [List.nodup_append] at hnodup
      rw [if_neg (by simpa [List.getLast?_append, List.getLast?_cons] using hx)]
      simp [List.head?_append]

/-- The back part of a list that is cut in two. -/
theorem back (h : Chained next prev (l₁ ++ l₂)) (hnext : ∀ i ∈ l₂, next' i = next i)
    (hprev : ∀ i ∈ l₂, prev' i = if l₂.head? = some i then none else prev i) : Chained next' prev' l₂ := by
  refine ⟨h.nodup.of_append_right, fun a i c heq => ?_⟩
  have hi : i ∈ l₂ := by simp [heq]
  have links := h.links (l₁ ++ a) i c (by simp [heq])
  have hnodup : (a ++ i :: c).Nodup := heq ▸ h.nodup.of_append_right
  rw [hnext i hi, hprev i hi, links.1, links.2, heq]
  refine ⟨rfl, ?_⟩
  cases a with
  | nil => simp
  | cons x a =>
      have hx : x ≠ i := by rintro rfl; simp at hnodup
      rw [if_neg (by simpa using hx)]
      simp [List.getLast?_append, List.getLast?_cons]

end

end Chained

end CompilerLab.Lib
