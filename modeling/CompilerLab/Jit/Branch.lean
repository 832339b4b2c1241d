import CompilerLab.Jit.GraphOps

/-!
# Conditional branches at run time

A block that ends with CMP and JCMP goes to its first successor when the comparison holds and to its second otherwise.
The operands are compared at the type of the CMP, signed types as signed numbers.
-/

namespace CompilerLab.Jit

/-- The comparison a condition code stands for. -/
def CondCode.holds (cc : CondCode) (t : OperandType) (x y : BitVec t.width) : Bool :=
  match cc with
  | .EQ => x = y
  | .NE => x ≠ y
  | .LT => t.toInt x < t.toInt y
  | .LE => t.toInt x ≤ t.toInt y
  | .GE => t.toInt y ≤ t.toInt x
  | .GT => t.toInt y < t.toInt x

theorem CondCode.holds_self (cc : CondCode) (t : OperandType) (x : BitVec t.width) :
    cc.holds t x x = decide (cc = .EQ ∨ cc = .LE ∨ cc = .GE) := by
  cases cc <;> simp [CondCode.holds]

/-- The words instructions have at run time. -/
abbrev Env := Nat → Word

namespace Graph

/-- Constants have the value they carry. -/
def Consistent (g : Graph) (env : Env) : Prop := ∀ i, (g.instr i).isConst → env i = (g.instr i).value

/-- The outcome of executing `cmp` on the operands `x` and `y`. -/
def outcome (g : Graph) (cmp : Nat) (x y : Word) : Bool :=
  let c := g.instr cmp
  c.ccode.holds c.type (c.type.trunc x) (c.type.trunc y)

/-- `GetDestination` of the JCMP that ends block `b`. -/
def destination (g : Graph) (b : Nat) (cmpRes : Bool) : Option Nat :=
  (g.block b).succs[if cmpRes then 0 else 1]?

/-- The successor control goes to at the end of a block with a conditional branch. -/
def selectedSucc (g : Graph) (env : Env) (b : Nat) : Option Nat := do
  let cmp ← (← g.endsWithConditionalJump b)
  let x ← g.getInput cmp 0
  let y ← g.getInput cmp 1
  g.destination b (g.outcome cmp (env x) (env y))

/-- Block `b` ends with `cmp` on `x` and `y` followed by its jump, and has the successors `t` and `f`. -/
structure BranchAt (g : Graph) (b : Nat) (cmp x y : Nat) (t f : Nat) : Prop where
  jump : ∃ jcmp, (g.block b).lastInst = some jcmp ∧ (g.instr jcmp).opcode = .JCMP ∧
    (g.instr jcmp).prev = some cmp ∧ (g.instr jcmp).parent = some b ∧ (g.instr cmp).next = some jcmp
  cmp_opcode : (g.instr cmp).opcode = .CMP
  inputs : (g.instr cmp).inputs = [some x, some y]
  succs : (g.block b).succs = [t, f]
  ne : t ≠ f

namespace BranchAt

variable {g : Graph} {b : Nat} {cmp x y : Nat} {t f : Nat}

theorem endsWithConditionalJump (h : g.BranchAt b cmp x y t f) : g.endsWithConditionalJump b = some (some cmp) := by
  obtain ⟨jcmp, hl, hj, hp, -, -⟩ := h.jump
  simp [Graph.endsWithConditionalJump, hl, hj, hp, h.succs, ASSERT_of, h.cmp_opcode]

theorem destination (h : g.BranchAt b cmp x y t f) (r : Bool) :
    g.destination b r = some (if r then t else f) := by
  cases r <;> simp [Graph.destination, h.succs]

theorem selectedSucc (h : g.BranchAt b cmp x y t f) (env : Env) :
    g.selectedSucc env b = some (if g.outcome cmp (env x) (env y) then t else f) := by
  simp [Graph.selectedSucc, h.endsWithConditionalJump, getInput, h.inputs, h.destination]

/-- The branch depends on its two instructions, the end of its block and the successors. -/
theorem transfer {g' : Graph} {x' y' : Nat} {t' f' : Nat} (h : g.BranchAt b cmp x y t f)
    (last : (g'.block b).lastInst = (g.block b).lastInst)
    (jump : ∀ j, (g.block b).lastInst = some j → (g'.instr j).opcode = (g.instr j).opcode ∧
      (g'.instr j).prev = (g.instr j).prev ∧ (g'.instr j).parent = (g.instr j).parent)
    (compare : (g'.instr cmp).opcode = (g.instr cmp).opcode ∧ (g'.instr cmp).next = (g.instr cmp).next)
    (inputs : (g'.instr cmp).inputs = [some x', some y']) (succs : (g'.block b).succs = [t', f']) (ne : t' ≠ f') :
    g'.BranchAt b cmp x' y' t' f' where
  jump := by
    obtain ⟨j, hl, ho, hp, hb, hn⟩ := h.jump
    obtain ⟨ho', hp', hb'⟩ := jump j hl
    exact ⟨j, last.trans hl, ho'.trans ho, hp'.trans hp, hb'.trans hb, compare.2.trans hn⟩
  cmp_opcode := compare.1.trans h.cmp_opcode
  inputs := inputs
  succs := succs
  ne := ne

end BranchAt

theorem inverseConditionalBranch_eq_some {g g' : Graph} {b : Nat} :
    g.inverseConditionalBranch b = some g' ↔ ∃ cmp, g.endsWithConditionalJump b = some (some cmp) ∧
      ((g.inverse cmp).modifyBlock b fun x =>
        { x with
          succs := match x.succs with
            | t :: f :: l => f :: t :: l
            | l => l }) = g' := by
  simp only [inverseConditionalBranch, Option.bind_eq_bind, Option.bind_eq_some_iff, Option.pure_def,
    Option.some.injEq]
  constructor
  · rintro ⟨_, h, cmp, rfl, h'⟩
    exact ⟨cmp, h, h'⟩
  · rintro ⟨cmp, h, h'⟩
    exact ⟨_, h, cmp, rfl, h'⟩

theorem endsWithConditionalJump_eq_some {g : Graph} {b : Nat} {cmp : Nat}
    (h : g.endsWithConditionalJump b = some (some cmp)) :
    ∃ j, (g.block b).lastInst = some j ∧ (g.instr j).opcode = .JCMP ∧ (g.instr j).prev = some cmp ∧
      (g.instr cmp).opcode = .CMP := by
  unfold endsWithConditionalJump at h
  split at h
  · cases h
  · next j hj =>
      split at h
      · cases h
      · next ho =>
          simp only [Option.bind_eq_bind, Option.bind_eq_some_iff, ASSERT_eq_some, exists_const, Option.pure_def,
            Option.some.injEq] at h
          obtain ⟨-, cmp', hp, hc, rfl⟩ := h
          exact ⟨j, hj, not_not.1 ho, hp, hc⟩

end Graph

end CompilerLab.Jit
