import CompilerLab.Jit.BranchElimination
import CompilerLab.Jit.Lemmas.Edges
import CompilerLab.Jit.Lemmas.Words

/-!
# What branch elimination decides

The pass decides a comparison of equal operands from its condition code, and a comparison of constants from the order of
the stored words. The decision is compared with the branch taken at run time.
-/

namespace CompilerLab.Jit

/-! ## The comparison of constants -/

/-- Comparing the words decides as comparing the values of type `t` does. -/
def CompareKept (cc : CondCode) (t : OperandType) (a b : Word) : Prop :=
  match cc with
  | .EQ | .NE => t.EqualityKept a b
  | .LT | .GE => t.OrderKept a b
  | .LE | .GT => False

instance (cc t a b) : Decidable (CompareKept cc t a b) := by
  unfold CompareKept
  split <;> infer_instance

theorem compareKept_iff {cc : CondCode} {t : OperandType} {a b : Word} :
    CompareKept cc t a b ↔ compare cc a b = some (cc.holds t (t.trunc a) (t.trunc b)) := by
  cases cc with
  | EQ => simp [CompareKept, compare, CondCode.holds, OperandType.equalityKept_iff]
  | NE => simp [CompareKept, compare, CondCode.holds, OperandType.equalityKept_iff]
  | LT => simp [CompareKept, compare, CondCode.holds, OperandType.orderKept_iff]
  | GE =>
      simp only [CompareKept, compare, CondCode.holds, OperandType.orderKept_iff, Option.some.injEq, decide_eq_decide,
        ← BitVec.not_lt, ← Int.not_lt, not_iff_not]
  | LE => simp [CompareKept, compare]
  | GT => simp [CompareKept, compare]

namespace Graph

variable {g g' : Graph} {b t f : Nat} {cmp x y : Nat}

/-- The pass decides the comparison: its operands are one instruction, or constants. -/
def Foldable (g : Graph) (x y : Nat) : Prop := x = y ∨ (g.instr x).isConst ∧ (g.instr y).isConst

theorem evaluateComparison_self (hi : (g.instr cmp).inputs = [some x, some x]) :
    g.evaluateComparison cmp = some (.ofBool ((g.instr cmp).ccode = .GE ∨ (g.instr cmp).ccode = .EQ)) := by
  simp [evaluateComparison, hi]

theorem evaluateComparison_const (hi : (g.instr cmp).inputs = [some x, some y]) (hne : x ≠ y)
    (hx : (g.instr x).isConst) (hy : (g.instr y).isConst) : g.evaluateComparison cmp =
      (compare (g.instr cmp).ccode (g.instr x).value (g.instr y).value).map CmpResult.ofBool := by
  simp only [evaluateComparison, hi, List.getElem?_cons_zero, List.getElem?_cons_succ, Option.bind_eq_bind,
    Option.bind_some, Option.some.injEq, hne, if_false, hx, hy, and_self, if_true]
  cases compare (g.instr cmp).ccode (g.instr x).value (g.instr y).value <;> rfl

/-! ## The removed edge -/

theorem removeEdge_succs (h : g.BranchAt b cmp x y t f) {r : Bool} (hr : g.removeEdge cmp r = some g') :
    (g'.block b).succs = [if r then t else f] := by
  obtain ⟨jcmp, -, -, -, hparent, hnext⟩ := h.jump
  simp only [removeEdge, hnext, hparent, h.destination, Option.bind_eq_bind, Option.bind_some,
    Option.bind_eq_some_iff, ASSERT_eq_some, exists_const] at hr
  obtain ⟨-, -, -, g₁, h₁, g₂, h₂, h₃⟩ := hr
  have keep := (((unlinkInstruction_instrsOnly h₁).trans (unlinkInstruction_instrsOnly h₂)).sameEdges b).1
  have ne := h.ne
  rw [(disconnectBasicBlocks_disconnects h₃).succs, if_pos rfl, keep, h.succs]
  cases r <;> simp [ne]

theorem propagateConstInCond_succs (h : g.BranchAt b cmp x y t f) {r : CmpResult}
    (he : g.evaluateComparison cmp = some r) (hne : r ≠ .UNDEFINED) {s : Bool} {s' : Graph × Bool}
    (hs : propagateConstInCond (g, s) b = some s') : (s'.1.block b).succs = [if r.toBool then t else f] := by
  simp only [propagateConstInCond, h.endsWithConditionalJump, he, hne, Option.bind_eq_bind, Option.bind_some,
    ne_eq, not_false_eq_true, if_true, Option.bind_eq_some_iff, Option.pure_def, Option.some.injEq] at hs
  obtain ⟨g', hg', rfl⟩ := hs
  exact removeEdge_succs h hg'

/-! ## The decision -/

/-- The pass comes to a decision on the branch of `b`, and whatever the operands are at run time, the successor it
decides for is the one control goes to, and the only one the pass leaves. -/
def DecidesAsRunTime (g : Graph) (b : Nat) (cmp : Nat) : Prop :=
  ∃ r, g.evaluateComparison cmp = some r ∧ r ≠ .UNDEFINED ∧ ∀ env, g.Consistent env →
    g.destination b r.toBool = g.selectedSucc env b ∧
    ∀ s s', propagateConstInCond (g, s) b = some s' → some (s'.1.block b).succs = (g.selectedSucc env b).map ([·])

/-- When the decision is right: equal operands are not compared by LE; words of constants are in the relation of their
values, and not compared by LE or GT. -/
def DecidedRight (g : Graph) (cmp x y : Nat) : Prop :=
  if x = y then (g.instr cmp).ccode ≠ .LE
  else CompareKept (g.instr cmp).ccode (g.instr cmp).type (g.instr x).value (g.instr y).value

instance (g cmp x y) : Decidable (DecidedRight g cmp x y) := by
  unfold DecidedRight
  infer_instance

/-- A decision is right when it is the outcome of the comparison on every consistent environment. -/
theorem decidesAsRunTime_iff (h : g.BranchAt b cmp x y t f) : g.DecidesAsRunTime b cmp ↔
    ∃ r : Bool, g.evaluateComparison cmp = some (.ofBool r) ∧
      ∀ env, g.Consistent env → r = g.outcome cmp (env x) (env y) := by
  have inj : ∀ r s : Bool, (if r then t else f) = (if s then t else f) → r = s := by
    have ne := h.ne
    intro r s hrs
    cases r <;> cases s <;> simp_all [ne.symm]
  constructor
  · rintro ⟨r, he, hne, hr⟩
    have hof : CmpResult.ofBool r.toBool = r := by cases r <;> simp_all [CmpResult.ofBool, CmpResult.toBool]
    refine ⟨r.toBool, by rw [he, hof], fun env henv => inj _ _ ?_⟩
    have := (hr env henv).1
    rwa [h.destination, h.selectedSucc, Option.some.injEq] at this
  · rintro ⟨r, he, hr⟩
    refine ⟨_, he, CmpResult.ofBool_ne r, fun env henv => ?_⟩
    have hd : g.destination b (CmpResult.ofBool r).toBool = g.selectedSucc env b := by
      rw [CmpResult.toBool_ofBool, h.destination, h.selectedSucc, ← hr env henv]
    refine ⟨hd, fun s s' hs => ?_⟩
    rw [propagateConstInCond_succs h he (CmpResult.ofBool_ne r) hs, ← hd, h.destination]
    rfl

theorem consistent_value (g : Graph) : g.Consistent fun i => (g.instr i).value := fun _ _ => rfl

/-- `if (x cc x) return x; else return x;` for an argument `x`. -/
def selfComparison (cc : CondCode) : Graph := ofLists
  [{ opcode := .ARG, type := .I32, parent := some 0, users := [1, 1, 3, 4] },
   { opcode := .CMP, type := .I32, ccode := cc, next := some 2, parent := some 1,
     properties := INPUT_SIDE_EFFECTS, inputs := [some 0, some 0] },
   { opcode := .JCMP, type := .I64, prev := some 1, parent := some 1, properties := CF_SIDE_EFFECTS },
   { opcode := .RET, type := .I32, parent := some 2, properties := .CF ||| .INPUT ||| .SIDE_EFFECTS,
     inputs := [some 0] },
   { opcode := .RET, type := .I32, parent := some 3, properties := .CF ||| .INPUT ||| .SIDE_EFFECTS,
     inputs := [some 0] }]
  [{ id := 0, succs := [1], instrsCount := 1, firstInst := some 0, lastInst := some 0 },
   { id := 1, preds := [0], succs := [2, 3], instrsCount := 2, firstInst := some 1, lastInst := some 2 },
   { id := 2, preds := [1], instrsCount := 1, firstInst := some 3, lastInst := some 3 },
   { id := 3, preds := [1], instrsCount := 1, firstInst := some 4, lastInst := some 4 }] []

theorem selfComparison_branchAt (cc : CondCode) : (selfComparison cc).BranchAt 1 1 0 0 2 3 where
  jump := ⟨2, rfl, rfl, rfl, rfl, rfl⟩
  cmp_opcode := rfl
  inputs := rfl
  succs := rfl
  ne := by decide

end Graph

end CompilerLab.Jit
