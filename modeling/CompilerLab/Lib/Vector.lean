import Mathlib.Data.List.Count
import Mathlib.Data.List.Perm.Basic
import Mathlib.Tactic.Common

/-!
# Vectors edited in place

Two idioms on a vector with duplicates: overwriting the first occurrence of a value (`List.replace`), and removing
it by moving the last element into its place (`swapErase`). Both are described by what they do to the number of
occurrences of each value, which is all that callers treating the vector as a bag need.
-/

namespace CompilerLab.Lib

variable {α : Type*} [DecidableEq α]

/-- `*find(x) = back(); pop_back()`. Without an `x` the list is unchanged. -/
def swapErase (l : List α) (x : α) : List α :=
  match l.getLast? with
  | none => []
  | some b => if x ∈ l then (l.replace x b).dropLast else l

omit [DecidableEq α] in
theorem eq_singleton_of_mem {l : List α} {a : α} (h : a ∈ l) (hl : l.length ≤ 1) : l = [a] := by
  obtain ⟨b, rfl⟩ := List.length_eq_one_iff.1 (Nat.le_antisymm hl (List.length_pos_of_mem h))
  rw [List.mem_singleton.1 h]

/-! ## Overwriting the first occurrence -/

omit [DecidableEq α] in
theorem count_replace [BEq α] [LawfulBEq α] {l : List α} {x y : α} (h : x ∈ l) (a : α) :
    (l.replace x y).count a + (if x == a then 1 else 0) = l.count a + (if y == a then 1 else 0) := by
  induction l with
  | nil => cases h
  | cons b l ih =>
      by_cases hb : x = b
      · subst hb
        simp only [List.replace_cons, beq_self_eq_true, List.count_cons]
        omega
      · have hl : x ∈ l := by simpa [hb] using h
        have hb' : (x == b) = false := by simpa using hb
        have := ih hl
        simp only [List.replace_cons, hb', List.count_cons]
        omega

omit [DecidableEq α] in
/-- Overwriting a value does not show through a function that does not tell it from the new one. -/
theorem map_replace_of_eq [BEq α] [LawfulBEq α] {β : Type*} {f : α → β} {x y : α} (hf : f x = f y) (l : List α) :
    (l.replace x y).map f = l.map f := by
  induction l with
  | nil => rfl
  | cons a l ih =>
      rw [List.replace_cons]
      split
      next h => rw [List.map_cons, List.map_cons, ← hf, eq_of_beq h]
      next => rw [List.map_cons, List.map_cons, ih]

theorem replace_perm {l : List α} {x y : α} (h : x ∈ l) : (l.replace x y).Perm (y :: l.erase x) := by
  rw [List.perm_iff_count]
  intro a
  have hcount := count_replace (y := y) h a
  rw [List.count_cons, List.count_erase]
  have hx : x = a → 0 < l.count a := fun hxa => hxa ▸ List.count_pos_iff.mpr h
  simp only [beq_iff_eq] at hcount ⊢
  split_ifs at hcount ⊢ <;> simp_all
  omega

theorem idxOf_replace_new {l : List α} {x y : α} (hy : y ∉ l) : (l.replace x y).idxOf y = l.idxOf x := by
  induction l with
  | nil => rfl
  | cons b l ih =>
      rw [List.mem_cons, not_or] at hy
      rw [List.replace_cons]
      by_cases hb : x = b
      · subst hb
        simp
      · have hbx : (x == b) = false := by simpa using hb
        rw [hbx, List.idxOf_cons_ne _ (Ne.symm hy.1), List.idxOf_cons_ne _ (Ne.symm hb), ih hy.2]

theorem idxOf_replace_ne {l : List α} {x y a : α} (hx : a ≠ x) (hy : a ≠ y) : (l.replace x y).idxOf a = l.idxOf a := by
  induction l with
  | nil => rfl
  | cons b l ih =>
      rw [List.replace_cons]
      by_cases hb : x = b
      · subst hb
        rw [beq_self_eq_true, List.idxOf_cons_ne _ (Ne.symm hy), List.idxOf_cons_ne _ (Ne.symm hx)]
      · have hbx : (x == b) = false := by simpa using hb
        rw [hbx, List.idxOf_cons, List.idxOf_cons, ih]

omit [DecidableEq α] in
theorem getElem?_replace [BEq α] [LawfulBEq α] {x y : α} (l : List α) (k : Nat) :
    (l.replace x y)[k]? = l[k]? ∨ l[k]? = some x ∧ (l.replace x y)[k]? = some y := by
  induction l generalizing k with
  | nil => exact .inl rfl
  | cons a l ih =>
      rw [List.replace_cons]
      by_cases hxa : x = a
      · subst hxa
        cases k <;> simp
      · have hne : (x == a) = false := beq_false_of_ne hxa
        rw [hne]
        cases k with
        | zero => exact .inl rfl
        | succ k => exact ih k

omit [DecidableEq α] in
theorem replace_self [BEq α] [LawfulBEq α] (l : List α) (x : α) : l.replace x x = l := by
  induction l with
  | nil => rfl
  | cons a l ih =>
      rw [List.replace_cons]
      by_cases hxa : x = a
      · subst hxa
        simp
      · have hne : (x == a) = false := beq_false_of_ne hxa
        rw [hne, ih]

theorem mem_replace {l : List α} {x y a : α} (h : a ∈ l.replace x y) : a ∈ l ∨ a = y := by
  induction l with
  | nil => simp at h
  | cons b l ih =>
      rw [List.replace_cons] at h
      split at h
      · rcases List.mem_cons.mp h with rfl | h
        · exact Or.inr rfl
        · exact Or.inl (List.mem_cons_of_mem _ h)
      · rcases List.mem_cons.mp h with rfl | h
        · exact Or.inl List.mem_cons_self
        · exact (ih h).imp (List.mem_cons_of_mem _) id

/-- Overwriting the image of the only element that maps to `x`. -/
theorem map_replace {β : Type*} [DecidableEq β] {l : List β} {f : β → α} {b : β} {x y : α} (hl : l.Nodup)
    (hmem : b ∈ l) (hf : ∀ a ∈ l, a ≠ b → f a ≠ x) (hb : f b = x) :
    (l.map f).replace x y = l.map fun a => if a = b then y else f a := by
  induction l with
  | nil => cases hmem
  | cons a l ih =>
      obtain ⟨hal, hl⟩ := List.nodup_cons.1 hl
      rw [List.map_cons, List.replace_cons, List.map_cons]
      by_cases hab : a = b
      · subst hab
        have rest : l.map (fun c => if c = a then y else f c) = l.map f :=
          List.map_congr_left fun c hc => if_neg (by rintro rfl; exact hal hc)
        rw [hb, rest, if_pos rfl, beq_self_eq_true]
      · have hne := hf a List.mem_cons_self hab
        have hmem' := (List.mem_cons.1 hmem).resolve_left (Ne.symm hab)
        rw [ih hl hmem' (fun c hc => hf c (List.mem_cons_of_mem _ hc)), if_neg hab, beq_false_of_ne hne.symm]

theorem idxOf_map {β : Type*} [DecidableEq β] {l : List β} {f : β → α} {b : β} {x : α}
    (hf : ∀ a ∈ l, a ≠ b → f a ≠ x) (hb : f b = x) : (l.map f).idxOf x = l.idxOf b := by
  induction l with
  | nil => rfl
  | cons a l ih =>
      have ih := ih fun c hc => hf c (List.mem_cons_of_mem _ hc)
      by_cases hab : a = b
      · subst hab
        simp [hb]
      · have := hf a List.mem_cons_self hab
        simp [hab, this, ih]

/-! ## Removing by moving the last element -/

theorem swapErase_of_mem {l : List α} {x : α} (h : x ∈ l) (hne : l ≠ []) :
    swapErase l x = (l.replace x (l.getLast hne)).dropLast := by
  simp [swapErase, List.getLast?_eq_some_getLast hne, h]

theorem dropLast_concat_replace {l : List α} {x b : α} (h : x ∈ l ++ [b]) :
    ((l ++ [b]).replace x b).dropLast ++ [b] = (l ++ [b]).replace x b := by
  induction l with
  | nil =>
      simp only [List.nil_append, List.replace_cons]
      cases x == b <;> rfl
  | cons c l ih =>
      rw [List.cons_append, List.replace_cons]
      split
      · rw [← List.cons_append, List.dropLast_concat]
      · rename_i hc
        have hx : x ∈ l ++ [b] := by
          rcases List.mem_cons.mp h with rfl | h
          · simp at hc
          · exact h
        have hne : (l ++ [b]).replace x b ≠ [] := by
          intro he
          have := congrArg List.length he
          simp at this
        rw [List.dropLast_cons_of_ne_nil hne, List.cons_append, ih hx]

/-- Removing by moving the last element takes away exactly one occurrence. -/
theorem count_swapErase {l : List α} {x : α} (h : x ∈ l) (a : α) :
    (swapErase l x).count a + (if x = a then 1 else 0) = l.count a := by
  obtain ⟨l', b, rfl⟩ : ∃ l' b, l = l' ++ [b] :=
    ⟨l.dropLast, l.getLast (List.ne_nil_of_mem h), (List.dropLast_append_getLast _).symm⟩
  rw [swapErase_of_mem h (by simp), List.getLast_append_singleton]
  have hr := count_replace (y := b) h a
  rw [← dropLast_concat_replace h, List.count_append] at hr
  simp only [List.count_singleton, beq_iff_eq] at hr
  split at hr <;> split at hr <;> simp_all

theorem swapErase_perm {l : List α} {x : α} (h : x ∈ l) : (swapErase l x).Perm (l.erase x) := by
  rw [List.perm_iff_count]
  intro a
  have := count_swapErase h a
  rw [List.count_erase]
  split_ifs at this ⊢ <;> simp_all
  omega

theorem mem_swapErase {l : List α} {x a : α} (h : a ∈ swapErase l x) : a ∈ l := by
  by_cases hx : x ∈ l
  · have := count_swapErase hx a
    have := List.count_pos_iff.mpr h
    exact List.count_pos_iff.mp (by omega)
  · unfold swapErase at h
    split at h
    · cases h
    · simpa [hx] using h

theorem length_swapErase {l : List α} {x : α} (h : x ∈ l) : (swapErase l x).length = l.length - 1 := by
  have hne := List.ne_nil_of_mem h
  simp [swapErase_of_mem h hne]

end CompilerLab.Lib
