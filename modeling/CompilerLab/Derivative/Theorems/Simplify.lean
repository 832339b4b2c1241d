import CompilerLab.Derivative.Lemmas.Simplify

/-!
# Results on the simplifier

One call leaves no node to which a rule applies, since a node is looked at when its children have been simplified. A node that
becomes a leaf frees its children, also those another node still has: `CopyNode` copies a node without its children. The value
stays when the numbers that pass for zero or one are zero or one.
-/

namespace CompilerLab.Derivative

open TreeNode (null num var op leaf root simplify height)

variable {α : Type*} {A : Arith α} {h h' : Memory α} {p : Nat} {q : Option Nat} {t : TreeNode α} {depth n : Nat}

/-! ## The fixpoint -/

/-- No rule applies at any node. -/
def TreeNode.Normal (A : Arith α) : TreeNode α → Prop
  | op o l r => l.Normal A ∧ r.Normal A ∧ ∀ left ∈ l.root, ∀ right ∈ r.root, rewrite A o left right = none
  | _ => True

theorem normal_leaf {value : Values α} (hv : value.isOp = false) : (leaf value).Normal A := by
  cases value with
  | dbl_val d => trivial
  | var_name name => trivial
  | op_val o => cases hv

/-- After one call no rule applies. -/
theorem simplify_normal (t : TreeNode α) : (simplify A t).1.Normal A := by
  induction t with
  | null => trivial
  | num d => trivial
  | var name => trivial
  | op o l r ihl ihr =>
      rcases simplify_op A o l r with ⟨left, right, value, -, -, hrw, hs⟩ | ⟨hnone, hs, -⟩
      · rw [hs]
        exact normal_leaf (rewrite_isOp hrw).2.2
      · rw [hs]
        exact ⟨ihl, ihr, hnone⟩

/-- A tree to which no rule applies is left as it is, and no change is reported. -/
theorem simplify_of_normal (ht : t.Normal A) : simplify A t = (t, 0) := by
  induction t with
  | null => rfl
  | num d => rfl
  | var name => rfl
  | op o l r ihl ihr =>
      obtain ⟨hl, hr, hnone⟩ := ht
      have hsl := ihl hl
      have hsr := ihr hr
      rcases simplify_op A o l r with ⟨left, right, value, hleft, hright, hrw, -⟩ | ⟨-, hs, hcount⟩
      · rw [hsl] at hleft
        rw [hsr] at hright
        rw [hnone left hleft right hright] at hrw
        cases hrw
      · rw [hsl, hsr] at hs hcount
        exact Prod.ext hs (Nat.le_zero.1 hcount)

theorem height_leaf {value : Values α} (hv : value.isOp = false) : (leaf value).height = 1 := by
  cases value with
  | dbl_val d => rfl
  | var_name name => rfl
  | op_val o => cases hv

theorem height_simplify_le (t : TreeNode α) : (simplify A t).1.height ≤ t.height := by
  induction t with
  | null => exact le_refl _
  | num d => exact le_refl _
  | var name => exact le_refl _
  | op o l r ihl ihr =>
      rcases simplify_op A o l r with ⟨left, right, value, -, -, hrw, hs⟩ | ⟨-, hs, -⟩
      · rw [hs, height_leaf (rewrite_isOp hrw).2.2]
        exact Nat.le_add_left 1 _
      · rw [hs, height, height]
        exact Nat.add_le_add_right (max_le_max ihl ihr) 1

/-- A call on a tree to which no rule applies changes nothing. -/
theorem simplifyTree_of_normal (ht : Represents h q t) (hn : t.Normal A) (hd : t.height ≤ depth) :
    q.elim (some (h, 0)) (simplifyTree A depth h) = some (h, 0) := by
  induction t generalizing q depth with
  | null =>
      cases ht
      rfl
  | num d =>
      cases ht with
      | num hp =>
          cases depth with
          | zero => cases hd
          | succ depth => exact simplifyTree_leaf hp
  | var name =>
      cases ht with
      | var hp =>
          cases depth with
          | zero => cases hd
          | succ depth => exact simplifyTree_leaf hp
  | op o l r ihl ihr =>
      cases ht with
      | @op p _ ql qr _ _ hp hl hr =>
          cases depth with
          | zero => cases hd
          | succ depth =>
              obtain ⟨hnl, hnr, hnone⟩ := hn
              rw [height, Nat.add_le_add_iff_right, max_le_iff] at hd
              simp only [Option.elim_some, simplifyTree, simplifyNode, hp, ihl hl hnl hd.1, ihr hr hnr hd.2,
                Option.bind_eq_bind, Option.bind_some]
              cases ql with
              | none => rfl
              | some a =>
                  cases qr with
                  | none => rfl
                  | some b =>
                      obtain ⟨nodeₗ, hna, hrootₗ⟩ := hl.root_eq
                      obtain ⟨nodeᵣ, hnb, hrootᵣ⟩ := hr.root_eq
                      simp only [hna, hnb, Option.bind_some, hnone _ hrootₗ _ hrootᵣ]
                      rfl

/-- `_SimplifyTree`, which calls `SimplifyTree` on the node at `p` until it returns zero, comes to an end: every call leaves a
tree, and no rule applies to the last one. -/
inductive Settles (A : Arith α) (depth p : Nat) : Memory α → Prop
  | last {h h' : Memory α} {t : TreeNode α} (hrun : simplifyTree A depth h p = some (h', 0))
      (ht : Represents h' (some p) t) (hn : t.Normal A) : Settles A depth p h
  | again {h h' : Memory α} {t : TreeNode α} {n : Nat} (hrun : simplifyTree A depth h p = some (h', n)) (hn : n ≠ 0)
      (ht : Represents h' (some p) t) (hnext : Settles A depth p h') : Settles A depth p h

/-- The integers. -/
def Arith.integers : Arith Int where
  zero := 0
  one := 1
  add := (· + ·)
  mul := (· * ·)
  isZero num := num == 0
  isEqual num1 num2 := num1 == num2
  bits _ := 0
  bits_ne_one _ := rfl

/-- The sine of the sum of two numbers. -/
def sinOfSum : Memory Int
  | 0 => some ⟨.op_val .SIN, none, some 1⟩
  | 1 => some ⟨.op_val .ADD, some 2, some 3⟩
  | 2 => some ⟨.dbl_val 1, none, none⟩
  | 3 => some ⟨.dbl_val 2, none, none⟩
  | _ => none

/-- The derivative of `x / (1 * x)`, in which the three copies of the denominator have one pair of children. -/
def copiedProducts : Memory Int
  | 0 => some ⟨.op_val .DIV, some 1, some 2⟩
  | 1 => some ⟨.op_val .SUB, some 3, some 4⟩
  | 2 => some ⟨.op_val .MUL, some 5, some 6⟩
  | 3 => some ⟨.op_val .MUL, some 7, some 8⟩
  | 4 => some ⟨.op_val .MUL, some 9, some 10⟩
  | 5 => some ⟨.op_val .MUL, some 11, some 12⟩
  | 6 => some ⟨.op_val .MUL, some 11, some 12⟩
  | 7 => some ⟨.dbl_val 1, none, none⟩
  | 8 => some ⟨.op_val .MUL, some 11, some 12⟩
  | 9 => some ⟨.var_name ['x'], none, none⟩
  | 10 => some ⟨.dbl_val 1, none, none⟩
  | 11 => some ⟨.dbl_val 1, none, none⟩
  | 12 => some ⟨.var_name ['x'], none, none⟩
  | _ => none

section
variable {𝕜 : Type*} [Field 𝕜]

/-- What the operations mean; those other than addition and multiplication may be any partial functions. -/
structure Meaning (𝕜 : Type*) [Field 𝕜] where
  apply : Operations → 𝕜 → 𝕜 → Option 𝕜
  ADD : ∀ a b, apply .ADD a b = some (a + b)
  MUL : ∀ a b, apply .MUL a b = some (a * b)

/-- The value of a tree at an assignment of the variables, where it is defined; a missing operand counts as zero. -/
def TreeNode.eval (M : Meaning 𝕜) (ρ : List Char → 𝕜) : TreeNode 𝕜 → Option 𝕜
  | null => some 0
  | num d => some d
  | var name => some (ρ name)
  | op o l r => do M.apply o (← l.eval M ρ) (← r.eval M ρ)

theorem leaf_eval (M : Meaning 𝕜) (ρ : List Char → 𝕜) {v : Values 𝕜} (hop : v.isOp = false) : ∃ x, (leaf v).eval M ρ = some x := by
  cases v with
  | dbl_val d => exact ⟨d, rfl⟩
  | var_name name => exact ⟨ρ name, rfl⟩
  | op_val o => cases hop

variable [LinearOrder 𝕜]

/-- `ACCURACY`. -/
def ACCURACY : 𝕜 := 1 / 1000000

/-- Exact arithmetic, with `isZero` and `isEqual` as they are. -/
def Arith.exact (bits : Values 𝕜 → 𝕜) (hbits : ∀ name, ¬ |bits (.var_name name) - 1| < ACCURACY) : Arith 𝕜 where
  zero := 0
  one := 1
  add := (· + ·)
  mul := (· * ·)
  isZero num := |num| ≤ ACCURACY
  isEqual num1 num2 := |num1 - num2| < ACCURACY
  bits := bits
  bits_ne_one name := decide_eq_false (hbits name)

/-- The number is zero or one if it passes for it. -/
def Sharp (d : 𝕜) : Prop := (|d| ≤ ACCURACY → d = 0) ∧ (|d - 1| < ACCURACY → d = 1)

/-- Each multiplication finds only sharp numbers among its operands when it is looked at. -/
def TreeNode.SharpAt (A : Arith 𝕜) : TreeNode 𝕜 → Prop
  | op o l r => l.SharpAt A ∧ r.SharpAt A ∧
      (o = .MUL → ∀ d, (simplify A l).1 = num d ∨ (simplify A r).1 = num d → Sharp d)
  | _ => True

variable (M : Meaning 𝕜) (ρ : List Char → 𝕜) {bits : Values 𝕜 → 𝕜}
  {hbits : ∀ name, ¬ |bits (.var_name name) - 1| < ACCURACY} {o : Operations} {left right value : Values 𝕜}

theorem numberCases_eval (hr : numberCases (Arith.exact bits hbits) o left right = some value) :
    (op o (leaf left) (leaf right)).eval M ρ = (leaf value).eval M ρ := by
  unfold numberCases at hr
  split at hr
  · split at hr
    · cases hr
      exact M.ADD _ _
    · cases hr
      exact M.MUL _ _
    · cases hr
  · cases hr

/-- A number that passes for zero is zero. -/
theorem isZero_exact {v : Values 𝕜} (hv : (Arith.exact bits hbits).isZero ((Arith.exact bits hbits).dbl v) && v.isNum)
    (hsharp : ∀ d, v = .dbl_val d → Sharp d) : v = .dbl_val 0 := by
  rw [Bool.and_eq_true] at hv
  cases v with
  | dbl_val d =>
      have hd : d = 0 := (hsharp d rfl).1 (of_decide_eq_true hv.1)
      rw [hd]
  | var_name name => cases hv.2
  | op_val o => cases hv.2

/-- What passes for one is the number one. -/
theorem isEqual_exact {v : Values 𝕜} (hop : v.isOp = false)
    (hv : (Arith.exact bits hbits).isEqual ((Arith.exact bits hbits).dbl v) (Arith.exact bits hbits).one)
    (hsharp : ∀ d, v = .dbl_val d → Sharp d) : v = .dbl_val 1 := by
  cases v with
  | dbl_val d =>
      have hd : d = 1 := (hsharp d rfl).2 (of_decide_eq_true hv)
      rw [hd]
  | var_name name => exact absurd (of_decide_eq_true hv) (hbits name)
  | op_val o => cases hop

theorem mulCases_eval (hl : left.isOp = false) (hr : right.isOp = false)
    (hm : mulCases (Arith.exact bits hbits) left right = some value)
    (hsharp : ∀ d, left = .dbl_val d ∨ right = .dbl_val d → Sharp d) :
    (op .MUL (leaf left) (leaf right)).eval M ρ = (leaf value).eval M ρ := by
  obtain ⟨x, hx⟩ := leaf_eval M ρ hl
  obtain ⟨y, hy⟩ := leaf_eval M ρ hr
  have hmul : (op .MUL (leaf left) (leaf right)).eval M ρ = some (x * y) := by
    rw [TreeNode.eval, hx, hy]
    exact M.MUL x y
  rw [hmul]
  unfold mulCases at hm
  split at hm
  · next hzero =>
      obtain rfl := isZero_exact hzero fun d hd => hsharp d (.inl hd)
      cases hx
      cases hm
      rw [zero_mul]
      rfl
  · split at hm
    · next hzero =>
        obtain rfl := isZero_exact hzero fun d hd => hsharp d (.inr hd)
        cases hy
        cases hm
        rw [mul_zero]
        rfl
    · split at hm
      · next hone =>
          obtain rfl := isEqual_exact hr hone fun d hd => hsharp d (.inr hd)
          cases hy
          have hvalue : value = left := by
            cases left with
            | dbl_val d => cases hm; rfl
            | var_name name => cases hm; rfl
            | op_val o => cases hl
          rw [mul_one, hvalue, hx]
      · split at hm
        · next hone =>
            obtain rfl := isEqual_exact hl hone fun d hd => hsharp d (.inl hd)
            cases hx
            have hvalue : value = right := by
              cases right with
              | dbl_val d => cases hm; rfl
              | var_name name => cases hm; rfl
              | op_val o => cases hr
            rw [one_mul, hvalue, hy]
        · cases hm

theorem rewrite_eval (hr : rewrite (Arith.exact bits hbits) o left right = some value)
    (hsharp : o = .MUL → ∀ d, left = .dbl_val d ∨ right = .dbl_val d → Sharp d) :
    (op o (leaf left) (leaf right)).eval M ρ = (leaf value).eval M ρ := by
  obtain ⟨hleft, hright, -⟩ := rewrite_isOp hr
  unfold rewrite at hr
  rw [hleft, hright, if_neg (by decide)] at hr
  split at hr
  · next ho =>
      subst ho
      cases hm : mulCases (Arith.exact bits hbits) left right with
      | some v =>
          rw [hm] at hr
          cases hr
          exact mulCases_eval M ρ hleft hright hm (hsharp rfl)
      | none =>
          rw [hm] at hr
          exact numberCases_eval M ρ hr
  · exact numberCases_eval M ρ hr

theorem simplify_eval {t : TreeNode 𝕜} (hs : t.SharpAt (Arith.exact bits hbits)) :
    (simplify (Arith.exact bits hbits) t).1.eval M ρ = t.eval M ρ := by
  induction t with
  | null => rfl
  | num d => rfl
  | var name => rfl
  | op o l r ihl ihr =>
      obtain ⟨hsl, hsr, hmul⟩ := hs
      have hop : (op o l r).eval M ρ =
          (op o (simplify (Arith.exact bits hbits) l).1 (simplify (Arith.exact bits hbits) r).1).eval M ρ := by
        rw [TreeNode.eval, TreeNode.eval, ihl hsl, ihr hsr]
      rw [hop]
      rcases simplify_op (Arith.exact bits hbits) o l r with ⟨left, right, value, hl, hr, hrw, hs⟩ | ⟨-, hs, -⟩
      · obtain ⟨hleft, hright, -⟩ := rewrite_isOp hrw
        rw [hs, eq_leaf hl hleft, eq_leaf hr hright]
        refine (rewrite_eval M ρ hrw fun ho d hd => hmul ho d ?_).symm
        rcases hd with rfl | rfl
        · exact .inl (eq_leaf hl rfl)
        · exact .inr (eq_leaf hr rfl)
      · rw [hs]

/-- A call of `SimplifyTree` comes to an end, and the value of the tree is what it was. -/
def KeepsValue (A : Arith 𝕜) (depth : Nat) (h : Memory 𝕜) (p : Nat) (t : TreeNode 𝕜) : Prop :=
  ∃ h' n t', simplifyTree A depth h p = some (h', n) ∧ Represents h' (some p) t' ∧
    ∀ (M : Meaning 𝕜) (ρ : List Char → 𝕜), t'.eval M ρ = t.eval M ρ

end

/-! ## Products with a number -/

/-- The product of a number and a variable. -/
def timesX (d : ℚ) : Memory ℚ
  | 0 => some ⟨.op_val .MUL, some 1, some 2⟩
  | 1 => some ⟨.dbl_val d, none, none⟩
  | 2 => some ⟨.var_name ['x'], none, none⟩
  | _ => none

theorem timesX_represents (d : ℚ) : Represents (timesX d) (some 0) (op .MUL (num d) (var ['x'])) :=
  .op rfl (.num rfl) (.var rfl)

/-- Rational numbers, with addresses read as zero. -/
def Arith.rational : Arith ℚ := Arith.exact (fun _ => 0) fun _ => by norm_num [ACCURACY]

theorem timesX_child {d : ℚ} {a b : Nat} (hab : Child (timesX d) a b) : a = 0 := by
  obtain ⟨node, hnode, hb⟩ := hab
  unfold timesX at hnode
  split at hnode
  · rfl
  · cases hnode
    rcases hb with hb | hb <;> cases hb
  · cases hnode
    rcases hb with hb | hb <;> cases hb
  · cases hnode

theorem timesX_unshared (d : ℚ) : Unshared Arith.rational (timesX d) 0 := by
  rintro a value - ⟨o, l, r, tl, tr, left, right, ha, -⟩
  obtain rfl : a = 0 := timesX_child ⟨_, ha, .inl rfl⟩
  refine ⟨fun node hnode => ?_, fun b _ hb c _ hbc => hb (timesX_child hbc)⟩
  cases hnode
  decide

/-- Only addition and multiplication have a meaning. -/
def Meaning.sums : Meaning ℚ where
  apply o a b := if o = .ADD then some (a + b) else if o = .MUL then some (a * b) else none
  ADD _ _ := rfl
  MUL _ _ := rfl

end CompilerLab.Derivative
