import CompilerLab.Derivative.Tree

/-!
# Results on derivatives

The rules are those of calculus. The rule for powers covers numbers as exponents; for any other exponent the switch runs
into the case of an unknown operation.
-/

namespace CompilerLab.Derivative

open CompilerLab.Lib

/-- The operations the parser makes of two operands. -/
def Operations.isBinary (o : Operations) : Prop := o = .ADD ∨ o = .SUB ∨ o = .MUL ∨ o = .DIV ∨ o = .POW

/-- The operations the parser makes of an argument in brackets. -/
def Operations.isFunction (o : Operations) : Prop := o = .SIN ∨ o = .COS ∨ o = .LN

namespace TreeNode

section
variable {α : Type*} {e l r d : TreeNode α} {o : Operations}

/-- The trees of the parser in which no operand is missing. -/
inductive IsExpr : TreeNode α → Prop
  | num (dbl : α) : IsExpr (num dbl)
  | var (name : List Char) : IsExpr (var name)
  | binary {o : Operations} {l r : TreeNode α} (ho : o.isBinary) (hl : IsExpr l) (hr : IsExpr r) : IsExpr (op o l r)
  | function {o : Operations} {r : TreeNode α} (ho : o.isFunction) (hr : IsExpr r) : IsExpr (op o null r)

/-- Each exponent is a number. -/
def NumberExponents : TreeNode α → Prop
  | op o l r => (o = .POW → ∃ dbl, r = num dbl) ∧ l.NumberExponents ∧ r.NumberExponents
  | _ => True

theorem IsExpr.copyNode (h : IsExpr e) : e.copyNode = some e := by
  cases h <;> rfl

theorem not_isExpr_null : ¬ IsExpr (null : TreeNode α) := nofun

theorem isExpr_binary (ho : o.isBinary) : IsExpr (op o l r) ↔ IsExpr l ∧ IsExpr r := by
  constructor
  · intro h
    cases h with
    | binary _ hl hr => exact ⟨hl, hr⟩
    | function ho' hr =>
        rcases ho' with rfl | rfl | rfl <;> simp [Operations.isBinary] at ho
  · exact fun ⟨hl, hr⟩ => .binary ho hl hr

@[simp] theorem isExpr_ADD : IsExpr (ADD l r) ↔ IsExpr l ∧ IsExpr r := isExpr_binary (by simp [Operations.isBinary])
@[simp] theorem isExpr_SUB : IsExpr (SUB l r) ↔ IsExpr l ∧ IsExpr r := isExpr_binary (by simp [Operations.isBinary])
@[simp] theorem isExpr_MUL : IsExpr (MUL l r) ↔ IsExpr l ∧ IsExpr r := isExpr_binary (by simp [Operations.isBinary])
@[simp] theorem isExpr_DIV : IsExpr (DIV l r) ↔ IsExpr l ∧ IsExpr r := isExpr_binary (by simp [Operations.isBinary])
@[simp] theorem isExpr_POW : IsExpr (POW l r) ↔ IsExpr l ∧ IsExpr r := isExpr_binary (by simp [Operations.isBinary])
@[simp] theorem isExpr_GET_DIGIT {dbl : α} : IsExpr (GET_DIGIT dbl) := .num dbl

/-! ## Missing operands -/

/-- A derivative with all operands is one of a tree whose exponents are numbers. -/
theorem IsExpr.numberExponents [Ring α] (h : IsExpr e) (hd : e.getDerivative = some d) (hd' : IsExpr d) :
    e.NumberExponents := by
  induction h generalizing d with
  | num _ => trivial
  | var _ => trivial
  | @binary o l r ho hl hr ihl ihr =>
      rcases ho with rfl | rfl | rfl | rfl | rfl
      case inr.inr.inr.inr =>
        cases hr with
        | num dbl =>
            simp only [getDerivative, hl.copyNode, Option.bind_eq_bind, Option.bind_some, Option.bind_eq_some_iff,
              Option.pure_def, Option.some.injEq] at hd
            obtain ⟨dl, hdl, rfl⟩ := hd
            exact ⟨fun _ => ⟨dbl, rfl⟩, ihl hdl (isExpr_MUL.1 hd').2, trivial⟩
        | var _ =>
            cases hd
            exact absurd hd' not_isExpr_null
        | binary _ _ _ =>
            cases hd
            exact absurd hd' not_isExpr_null
        | function _ _ =>
            cases hd
            exact absurd hd' not_isExpr_null
      all_goals
        simp only [getDerivative, hl.copyNode, hr.copyNode, Option.bind_eq_bind, Option.bind_some, Option.bind_eq_some_iff,
          Option.pure_def, Option.some.injEq] at hd
        obtain ⟨dl, hdl, dr, hdr, rfl⟩ := hd
        simp only [isExpr_ADD, isExpr_SUB, isExpr_MUL, isExpr_DIV] at hd'
      · exact ⟨nofun, ihl hdl hd'.1, ihr hdr hd'.2⟩
      · exact ⟨nofun, ihl hdl hd'.1, ihr hdr hd'.2⟩
      · exact ⟨nofun, ihl hdl hd'.1.1, ihr hdr hd'.2.2⟩
      · exact ⟨nofun, ihl hdl hd'.1.1.1, ihr hdr hd'.1.2.2⟩
  | @function o r ho hr ih =>
      rcases ho with rfl | rfl | rfl <;>
        simp only [getDerivative, hr.copyNode, Option.bind_eq_bind, Option.bind_some, Option.bind_eq_some_iff,
          Option.pure_def, Option.some.injEq] at hd <;>
        obtain ⟨dr, hdr, rfl⟩ := hd <;>
        exact ⟨nofun, trivial, ih hdr (isExpr_MUL.1 hd').2⟩

end

/-! ## The rules -/

section
variable {𝕜 : Type*} [NontriviallyNormedField 𝕜] (E : Elementary 𝕜) {e : TreeNode 𝕜}

/-- The operations are differentiable at the values of their operands. -/
def DefinedAt : TreeNode 𝕜 → 𝕜 → Prop
  | op o l r, x => DefinedAt l x ∧ DefinedAt r x ∧
      match o with
      | .DIV => value E r x ≠ 0
      | .LN => value E r x ∈ E.lnDomain
      | .POW => (value E l x, value E r x) ∈ E.powDomain
      | _ => True
  | _, _ => True

/-- `d` has no operand missing, and its value is the derivative of the value of `e`. -/
def Differentiates (e d : TreeNode 𝕜) : Prop :=
  IsExpr d ∧ ∀ x, DefinedAt E e x → HasDerivAt (value E e) (value E d x) x

theorem IsExpr.differentiates (h : IsExpr e) (hn : e.NumberExponents) :
    ∃ d, e.getDerivative = some d ∧ Differentiates E e d := by
  induction h with
  | num dbl => exact ⟨TreeNode.num 0, rfl, .num 0, fun x _ => hasDerivAt_const x dbl⟩
  | var name => exact ⟨TreeNode.num 1, rfl, .num 1, fun x _ => hasDerivAt_id x⟩
  | @binary o l r ho hl hr ihl ihr =>
      obtain ⟨hpow, hnl, hnr⟩ := hn
      obtain ⟨dl, hdl, hl', hvl⟩ := ihl hnl
      obtain ⟨dr, hdr, hr', hvr⟩ := ihr hnr
      rcases ho with rfl | rfl | rfl | rfl | rfl
      · refine ⟨ADD dl dr, by simp [getDerivative, hdl, hdr], by simp [hl', hr'], fun x hx => ?_⟩
        exact (hvl x hx.1).add (hvr x hx.2.1)
      · refine ⟨SUB dl dr, by simp [getDerivative, hdl, hdr], by simp [hl', hr'], fun x hx => ?_⟩
        exact (hvl x hx.1).sub (hvr x hx.2.1)
      · refine ⟨ADD (MUL dl r) (MUL l dr), by simp [getDerivative, hdl, hdr, hl.copyNode, hr.copyNode],
          by simp [hl', hr', hl, hr], fun x hx => ?_⟩
        exact (hvl x hx.1).mul (hvr x hx.2.1)
      · refine ⟨DIV (SUB (MUL dl r) (MUL l dr)) (MUL r r), by simp [getDerivative, hdl, hdr, hl.copyNode, hr.copyNode],
          by simp [hl', hr', hl, hr], fun x hx => ?_⟩
        refine ((hvl x hx.1).div (hvr x hx.2.1) hx.2.2).congr_deriv ?_
        rw [pow_two]
        rfl
      · obtain ⟨dbl, rfl⟩ := hpow rfl
        refine ⟨MUL (MUL (GET_DIGIT dbl) (POW l (GET_DIGIT (dbl - 1)))) dl,
          by simp [getDerivative, hdl, hl.copyNode], by simp [hl', hl], fun x hx => ?_⟩
        exact E.pow_comp (hvl x hx.1) hx.2.2
  | @function o r ho hr ih =>
      obtain ⟨-, -, hnr⟩ := hn
      obtain ⟨dr, hdr, hr', hvr⟩ := ih hnr
      rcases ho with rfl | rfl | rfl
      · refine ⟨MUL (COS null r) dr, by simp [getDerivative, hdr, hr.copyNode],
          isExpr_MUL.2 ⟨.function (.inr (.inl rfl)) hr, hr'⟩, fun x hx => ?_⟩
        exact E.sin_comp (hvr x hx.2.1)
      · refine ⟨MUL (MUL (GET_DIGIT (-1)) (SIN null r)) dr, by simp [getDerivative, hdr, hr.copyNode],
          by simp [hr', IsExpr.function (.inl rfl) hr, SIN], fun x hx => ?_⟩
        refine (E.cos_comp (hvr x hx.2.1)).congr_deriv ?_
        rw [← neg_one_mul]
        rfl
      · refine ⟨MUL (DIV (GET_DIGIT 1) r) dr, by simp [getDerivative, hdr, hr.copyNode], by simp [hr', hr], fun x hx => ?_⟩
        exact E.ln_comp (hvr x hx.2.1) hx.2.2

end

end TreeNode

end CompilerLab.Derivative
