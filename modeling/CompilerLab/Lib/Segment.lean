import Mathlib.Data.List.Basic

/-!
# Stretches of a list

Elements that stand in a list from a position on, with the one behind them.
-/

namespace CompilerLab.Lib

variable {α : Type*} {list xs ys : List α} {x next : α} {p : Nat}

/-- `xs` stands in the list from `p` on, and `next` behind it. -/
def Stands (list : List α) (p : Nat) (xs : List α) (next : α) : Prop := ∃ rest, list.drop p = xs ++ next :: rest

namespace Stands

theorem behind (h : Stands list p [] next) : list[p]? = some next := by
  obtain ⟨rest, h⟩ := h
  rw [← Nat.add_zero p, ← List.getElem?_drop, h]
  rfl

theorem head (h : Stands list p (x :: xs) next) : list[p]? = some x := by
  obtain ⟨rest, h⟩ := h
  rw [← Nat.add_zero p, ← List.getElem?_drop, h]
  rfl

theorem append (h : Stands list p (xs ++ ys) next) : Stands list (p + xs.length) ys next := by
  obtain ⟨rest, h⟩ := h
  exact ⟨rest, by rw [← List.drop_drop, h, List.append_assoc, List.drop_left]⟩

theorem tail (h : Stands list p (x :: xs) next) : Stands list (p + 1) xs next := @append _ _ [x] _ _ _ h

theorem first (h : Stands list p (xs ++ x :: ys) next) : Stands list p xs x := by
  obtain ⟨rest, h⟩ := h
  exact ⟨ys ++ next :: rest, by rw [h, List.append_assoc, List.cons_append]⟩

theorem last (h : Stands list p xs next) : list[p + xs.length]? = some next := by
  rw [← List.append_nil xs] at h
  exact h.append.behind

theorem whole (xs : List α) (next : α) : Stands (xs ++ [next]) 0 xs next := ⟨[], rfl⟩

end Stands

end CompilerLab.Lib
