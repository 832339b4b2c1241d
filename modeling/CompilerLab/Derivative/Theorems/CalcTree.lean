import CompilerLab.Derivative.CalcTree

/-!
# Results on evaluation

An operation is evaluated as it is built. A tree that is a single number or variable has the value zero.
-/

namespace CompilerLab.Derivative

open TreeNode

variable {α : Type*}

section
variable [Zero α] (CalcOneOp : α → α → Operations → α) {o : Operations} {l r t : TreeNode α}

/-- The tree has been evaluated. -/
def Evaluates (t : TreeNode α) (val : α) : Prop := calcTree CalcOneOp t val = some (t.valueAt CalcOneOp val)

/-- An operation is evaluated: its operands are operations, for which it calls itself, or leaves, which it looks into. -/
theorem evaluates_op (val : α) (h : t.isOp = true) : Evaluates CalcOneOp t val := by
  induction t with
  | null => cases h
  | num dbl => cases h
  | var name => cases h
  | op o l r ihl ihr =>
      rw [Evaluates, valueAt]
      cases l with
      | op ol ll lr =>
          have hl := ihl rfl
          rw [Evaluates] at hl
          cases r with
          | op or rl rr =>
              have hr := ihr rfl
              rw [Evaluates] at hr
              simp [calcTree, hl, hr]
          | _ => simp [calcTree, hl, valueAt]
      | _ =>
          cases r with
          | op or rl rr =>
              have hr := ihr rfl
              rw [Evaluates] at hr
              simp [calcTree, hr, valueAt]
          | _ => simp [calcTree, valueAt]

/-- `CalcTree` returns the structural value of a tree exactly when the tree is an operation, or a number or a variable whose
value is zero. -/
theorem calcTree_eq_iff (t : TreeNode α) (val : α) :
    calcTree CalcOneOp t val = some (t.valueAt CalcOneOp val) ↔
      t.isOp = true ∨ t ≠ null ∧ t.valueAt CalcOneOp val = 0 := by
  cases t with
  | null => exact ⟨nofun, fun h => h.elim nofun fun h => absurd rfl h.1⟩
  | num dbl =>
      constructor
      · intro h
        exact .inr ⟨nofun, (Option.some.inj h).symm⟩
      · rintro (h | ⟨-, h⟩)
        · cases h
        · rw [h]
          rfl
  | var name =>
      constructor
      · intro h
        exact .inr ⟨nofun, (Option.some.inj h).symm⟩
      · rintro (h | ⟨-, h⟩)
        · cases h
        · rw [h]
          rfl
  | op o l r => exact ⟨fun _ => .inl rfl, fun h => evaluates_op CalcOneOp val rfl⟩

/-- The number one, which is the derivative of a variable, is evaluated to zero. -/
theorem one_not_evaluated :
    calcTree (fun a _ _ => a) (num 1 : TreeNode Int) 0 ≠ some ((num 1 : TreeNode Int).valueAt (fun a _ _ => a) 0) := by
  decide

end

/-! ## The series -/

section
variable [Ring α] (CalcOneOp : α → α → Operations → α) {t : TreeNode α}

/-- What is printed are the values at zero of the tree and its derivatives exactly when each of them is an operation or has the
value zero. -/
theorem printMacloren_iff {steps : Nat} {ds : List (TreeNode α)} (h : derivatives steps t = some ds) :
    printMacloren CalcOneOp steps t = some (ds.map (·.valueAt CalcOneOp 0)) ↔
      ∀ d ∈ ds, d.isOp = true ∨ d ≠ null ∧ d.valueAt CalcOneOp 0 = 0 := by
  induction steps generalizing t ds with
  | zero =>
      cases h
      exact ⟨fun _ _ hd => absurd hd List.not_mem_nil, fun _ => rfl⟩
  | succ steps ih =>
      simp only [derivatives, Option.bind_eq_bind, Option.bind_eq_some_iff, Option.pure_def, Option.some.injEq] at h
      obtain ⟨next, hnext, rest, hrest, rfl⟩ := h
      rw [List.forall_mem_cons, ← calcTree_eq_iff, ← ih hrest, printMacloren, hnext]
      cases hv : calcTree CalcOneOp t 0 with
      | none => simp
      | some value =>
          cases hrun : printMacloren CalcOneOp steps next with
          | none => simp [hrun]
          | some values => simp [hrun]

end

/-! ## Exact arithmetic -/

section
variable {𝕜 : Type*} [NontriviallyNormedField 𝕜] (E : Lib.Elementary 𝕜)

theorem valueAt_exact (t : TreeNode 𝕜) (val : 𝕜) : t.valueAt (calcOneOp E) val = t.value E val := by
  induction t with
  | null => rfl
  | num dbl => rfl
  | var name => rfl
  | op o l r ihl ihr => rw [valueAt, value, ihl, ihr]

/-- With the exact operations `CalcTree` is the function that the derivative is compared with. -/
theorem calcTree_exact {t : TreeNode 𝕜} (h : t ≠ null) (val : 𝕜) :
    calcTree (calcOneOp E) t val = some (t.calcTree E val) := by
  cases t with
  | null => exact absurd rfl h
  | num dbl => rfl
  | var name => rfl
  | op o l r =>
      rw [evaluates_op (calcOneOp E) val rfl, valueAt_exact]
      rfl

end

end CompilerLab.Derivative
