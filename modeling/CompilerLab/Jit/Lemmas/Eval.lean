import CompilerLab.Jit.Eval
import CompilerLab.Lib.OptionFold

/-!
# Computing values

A value does not depend on the fuel that was enough for it, and the operands of an instruction with a value have values
for less fuel.
-/

namespace CompilerLab.Jit.Graph

open CompilerLab.Lib

variable {g g' : Graph} {e : Outside} {i j n m : Nat} {v u : Value} {w : Word}

theorem eval_succ (h : g.eval e n i = some v) : g.eval e (n + 1) i = some v := by
  induction n generalizing i v with
  | zero => cases h
  | succ n ih =>
      rw [eval] at h ⊢
      by_cases hl : g.Linked i
      · rw [if_pos hl] at h ⊢
        split_ifs at h ⊢ with hleaf
        · exact h
        · simp only [Option.bind_eq_bind, Option.bind_eq_some_iff, mapM_eq_some_iff] at h ⊢
          obtain ⟨args, hargs, h⟩ := h
          refine ⟨args, hargs.imp fun a x hx => ?_, h⟩
          obtain ⟨j, rfl, hx⟩ := hx
          exact ⟨j, rfl, ih hx⟩
      · rw [if_neg hl] at h
        cases h

theorem eval_mono (h : g.eval e n i = some v) (hnm : n ≤ m) : g.eval e m i = some v := by
  induction hnm with
  | refl => exact h
  | step _ ih => exact eval_succ ih

theorem Computes.unique (h : g.Computes e i v) (h' : g.Computes e i u) : v = u := by
  obtain ⟨n, hn⟩ := h
  obtain ⟨m, hm⟩ := h'
  rcases Nat.le_total n m with hnm | hnm
  · exact Option.some.inj ((eval_mono hn hnm).symm.trans hm)
  · exact Option.some.inj (hn.symm.trans (eval_mono hm hnm))

/-- What an instruction with a value looks like: it is linked, and its value comes from outside or from its operands. -/
theorem eval_cases (h : g.eval e n i = some v) : g.Linked i ∧ ∃ k, n = k + 1 ∧
    ((g.instr i).isLeaf = true ∧ v = ((g.instr i).type, (g.instr i).type.norm (e.leaf i)) ∨
      (g.instr i).isLeaf = false ∧ ∃ args w,
        List.Forall₂ (fun a x => ∃ j, a = some j ∧ g.eval e k j = some x) (g.instr i).inputs args ∧
        (g.instr i).result (e.other i) args = some w ∧ v = ((g.instr i).type, (g.instr i).type.norm w)) := by
  cases n with
  | zero => cases h
  | succ k =>
      rw [eval] at h
      by_cases hl : g.Linked i
      · refine ⟨hl, k, rfl, ?_⟩
        rw [if_pos hl] at h
        split_ifs at h with hleaf
        · exact .inl ⟨hleaf, (Option.some.inj h).symm⟩
        · simp only [Option.bind_eq_bind, Option.bind_eq_some_iff, mapM_eq_some_iff, Option.pure_def,
            Option.some.injEq] at h
          obtain ⟨args, hargs, w, hw, rfl⟩ := h
          exact .inr ⟨Bool.eq_false_of_not_eq_true hleaf, args, w, hargs, hw, rfl⟩
      · rw [if_neg hl] at h
        cases h

theorem Computes.linked (h : g.Computes e i v) : g.Linked i :=
  (eval_cases h.choose_spec).1

theorem Computes.type (h : g.Computes e i v) : v.1 = (g.instr i).type := by
  obtain ⟨-, -, -, ⟨-, rfl⟩ | ⟨-, -, -, -, -, rfl⟩⟩ := eval_cases h.choose_spec <;> rfl

theorem computes_leaf (hl : g.Linked i) (hleaf : (g.instr i).isLeaf = true) :
    g.Computes e i ((g.instr i).type, (g.instr i).type.norm (e.leaf i)) :=
  ⟨1, by rw [eval, if_pos hl, if_pos hleaf]⟩

/-- Operands that compute their values do so for some common fuel. -/
theorem forall₂_eval {l : List (Option Nat)} {args : List Value}
    (h : List.Forall₂ (fun a x => ∃ j, a = some j ∧ g.Computes e j x) l args) :
    ∃ n, List.Forall₂ (fun a x => ∃ j, a = some j ∧ g.eval e n j = some x) l args := by
  induction h with
  | nil => exact ⟨0, .nil⟩
  | cons hx _ ih =>
      obtain ⟨j, rfl, n, hn⟩ := hx
      obtain ⟨m, hm⟩ := ih
      refine ⟨max n m, .cons ⟨j, rfl, eval_mono hn (Nat.le_max_left n m)⟩ (hm.imp fun a x hx => ?_)⟩
      obtain ⟨j, rfl, hx⟩ := hx
      exact ⟨j, rfl, eval_mono hx (Nat.le_max_right n m)⟩

theorem computes_of_operands {args : List Value} (hl : g.Linked i) (hleaf : (g.instr i).isLeaf = false)
    (hargs : List.Forall₂ (fun a x => ∃ j, a = some j ∧ g.Computes e j x) (g.instr i).inputs args)
    (hw : (g.instr i).result (e.other i) args = some w) :
    g.Computes e i ((g.instr i).type, (g.instr i).type.norm w) := by
  obtain ⟨n, hn⟩ := forall₂_eval hargs
  refine ⟨n + 1, ?_⟩
  rw [eval, if_pos hl, if_neg (by rw [hleaf]; exact Bool.false_ne_true)]
  simp only [mapM_eq_some_iff.2 (hn.imp fun a x hx => Option.bind_eq_some_iff.2 hx), hw, Option.bind_eq_bind,
    Option.bind_some, Option.pure_def]

/-- A value that is found is found first for some least fuel: nothing on the way needs it again. -/
theorem eval_least (h : g.eval e n i = some v) : ∃ m ≤ n, g.eval e m i = some v ∧ ∀ k < m, g.eval e k i = none := by
  induction n with
  | zero => cases h
  | succ n ih =>
      cases hn : g.eval e n i with
      | none =>
          refine ⟨n + 1, Nat.le_refl _, h, fun k hk => Option.eq_none_iff_forall_ne_some.2 fun x hx => ?_⟩
          rw [eval_mono hx (Nat.le_of_lt_succ hk)] at hn
          cases hn
      | some u =>
          have hu : u = v := Option.some.inj ((eval_succ hn).symm.trans h)
          obtain ⟨m, hm, hv, hk⟩ := ih (hu ▸ hn)
          exact ⟨m, Nat.le_succ_of_le hm, hv, hk⟩

end CompilerLab.Jit.Graph
