import CompilerLab.Asm.Processor
import CompilerLab.Asm.Lemmas.Lines

/-!
# Decoded commands

What the processor reads of a command, and what the command means. The code of the processor depends on the bytes of a command only
through what is decoded.
-/

namespace CompilerLab.Asm

/-- A command with its operand: for push and pop the immediate value, the register and whether they are an address. -/
inductive Instr where
  | plain (cmd : Commands)
  | arg (cmd : Commands) (imm : Option Elem) (reg : Option Int) (mem : Bool)
  | jump (cmd : Commands) (target : Elem)
  deriving DecidableEq, Repr

/-- The command at the beginning of the code. -/
def decode (code : Int → Byte) : Option Instr :=
  (Commands.ofByte (code 0 &&& CMD_BITMASK)).map fun cmd =>
    if cmd.IsPushPop then
      .arg cmd (if hasBit (code 0) ARG_IMMED then some (peek code 1) else none)
        (if hasBit (code 0) ARG_REG then some (code MULTI_BYTE_OFFSET).toInt else none) (hasBit (code 0) ARG_MEM)
    else if cmd.IsJump then .jump cmd (peek code 1)
    else .plain cmd

namespace Instr

/-- How many bytes a command takes. -/
def size : Instr → Nat
  | plain _ => 1
  | arg .. => 10
  | jump .. => 10

section Exec

variable (d : Doubles) (ip : Int) (s : Processor)

/-- The operand of a push or a pop: a place and its value, or only a value. -/
def operand (imm : Option Elem) (reg : Option Int) (mem : Bool) : Option (Option Ptr × Elem) := do
  let (p, x) ← match imm, reg with
    | some x, some r => (index 10 r).map fun i => (none, d.add x (s.Regs i))
    | some x, none => some (none, x)
    | none, some r => (index 10 r).map fun i => (some (.reg i), s.Regs i)
    | none, none => some (none, 0)
  if mem then (index 3000 (d.toInt x)).map fun i => (some (.ram i), x) else some (p, x)

/-- The position before the target of a jump. -/
def before (target : Elem) : Int := d.toInt (d.sub target (d.ofInt 1))

/-- A jump that is taken when the condition holds of the two topmost elements. -/
def branch (target : Elem) (cond : Elem → Elem → Bool) : Option Outcome :=
  match s.stack with
  | x :: y :: stack => some (false, if cond x y then before d target else ip + 9, { s with stack })
  | _ => none

/-- What a command does; the instruction pointer is increased afterwards. -/
def exec : Instr → Option Outcome
  | plain cmd => perform d (fun _ => 0) ip s cmd
  | arg .PUSH imm reg mem => do
      let (p, x) ← operand d s imm reg mem
      return (false, ip + 9, s.StackPush (p.elim x s.deref))
  | arg _ imm reg mem => do
      match ← operand d s imm reg mem with
      | (some p, _) =>
          match s.stack with
          | x :: stack => some (false, ip + 9, { s with stack }.assign p x)
          | [] => none
      | (none, _) => some (false, ip + 9, s)
  | jump .JB target => branch d ip s target d.lt
  | jump .JBE target => branch d ip s target d.le
  | jump .JA target => branch d ip s target fun x y => d.lt y x
  | jump .JAE target => branch d ip s target fun x y => d.le y x
  | jump .JE target => branch d ip s target d.eq
  | jump .JNE target => branch d ip s target fun x y => !d.eq x y
  | jump .CALL target => some (false, before d target, s.StackPush (d.ofInt (ip + 9)))
  | jump _ target => some (false, before d target, s)

end Exec

end Instr

variable {d : Doubles} {code : Int → Byte} {ip ip' : Int} {s s' : Processor} {cmd : Commands} {i : Instr}

theorem GetArg_eq : GetArg d code s (code 0) = Instr.operand d s
    (if hasBit (code 0) ARG_IMMED then some (peek code 1) else none)
    (if hasBit (code 0) ARG_REG then some (code MULTI_BYTE_OFFSET).toInt else none) (hasBit (code 0) ARG_MEM) := by
  unfold GetArg GetReg Instr.operand regPtr
  cases hasBit (code 0) ARG_IMMED <;> cases hasBit (code 0) ARG_REG <;> cases hasBit (code 0) ARG_MEM <;> rfl

theorem jumpIf_eq (cond : Elem → Elem → Bool) : jumpIf d code ip s cond = Instr.branch d ip s (peek code 1) cond := by
  unfold jumpIf Instr.branch Processor.StackPop
  rcases s with ⟨regs, ram, stack, input, output⟩
  cases stack with
  | nil => rfl
  | cons x stack =>
      cases stack with
      | nil => rfl
      | cons y stack => rfl

theorem push_eq : push d code ip s = Instr.exec d ip s (.arg .PUSH
    (if hasBit (code 0) ARG_IMMED then some (peek code 1) else none)
    (if hasBit (code 0) ARG_REG then some (code MULTI_BYTE_OFFSET).toInt else none) (hasBit (code 0) ARG_MEM)) := by
  rw [push, GetArg_eq, Instr.exec]
  congr 1
  funext p
  rcases p with ⟨p, x⟩
  cases p <;> rfl

theorem pop_eq : pop d code ip s = Instr.exec d ip s (.arg .POP
    (if hasBit (code 0) ARG_IMMED then some (peek code 1) else none)
    (if hasBit (code 0) ARG_REG then some (code MULTI_BYTE_OFFSET).toInt else none) (hasBit (code 0) ARG_MEM)) := by
  rw [pop, GetArg_eq, Instr.exec]
  · congr 1
    funext p
    rcases p with ⟨p, x⟩
    cases p with
    | none => rfl
    | some p =>
        unfold Processor.StackPop
        cases s.stack <;> rfl
  · simp

/-- The processor does what the decoded command means. -/
theorem ProcessCommand_eq (h : decode code = some i) : ProcessCommand d code ip s = i.exec d ip s := by
  unfold decode at h
  obtain ⟨cmd, hcmd, hi⟩ := Option.map_eq_some_iff.mp h
  rw [ProcessCommand, hcmd]
  subst hi
  cases cmd with
  | PUSH => exact push_eq
  | POP => exact pop_eq
  | JB => exact jumpIf_eq d.lt
  | JBE => exact jumpIf_eq d.le
  | JA => exact jumpIf_eq fun x y => d.lt y x
  | JAE => exact jumpIf_eq fun x y => d.le y x
  | JE => exact jumpIf_eq d.eq
  | JNE => exact jumpIf_eq fun x y => !d.eq x y
  | _ => rfl

/-! ## The next command -/

theorem binary_next {op : Elem → Elem → Elem} (h : binary ip s op = some (false, ip', s')) : ip' = ip := by
  obtain ⟨p, -, h₁⟩ := Option.bind_eq_some_iff.mp h
  obtain ⟨q, -, h₂⟩ := Option.bind_eq_some_iff.mp h₁
  cases h₂
  rfl

theorem unary_next {op : Elem → Elem} (h : unary ip s op = some (false, ip', s')) : ip' = ip := by
  obtain ⟨p, -, h₁⟩ := Option.bind_eq_some_iff.mp h
  cases h₁
  rfl

theorem perform_next (hp : ¬ cmd.IsPushPop) (hj : ¬ cmd.IsJump) (hr : cmd ≠ .RET)
    (h : perform d code ip s cmd = some (false, ip', s')) : ip' = ip := by
  cases cmd with
  | HLT => cases h
  | MUL => exact binary_next h
  | ADD => exact binary_next h
  | SUB => exact binary_next h
  | DIV => exact binary_next h
  | OUT =>
      obtain ⟨p, -, h₁⟩ := Option.bind_eq_some_iff.mp h
      cases h₁
      rfl
  | DMP =>
      cases h
      rfl
  | IN =>
      rw [perform] at h
      split at h
      · cases h
        rfl
      · cases h
  | RET => exact absurd rfl hr
  | SQR => exact unary_next h
  | SIN => exact unary_next h
  | COS => exact unary_next h
  | ABS => exact unary_next h
  | ROUND => exact unary_next h
  | END =>
      cases h
      rfl
  | PUSH => exact absurd (by decide) hp
  | POP => exact absurd (by decide) hp
  | _ => exact absurd (by decide) hj

theorem branch_next {target : Elem} {cond : Elem → Elem → Bool}
    (h : Instr.branch d ip s target cond = some (false, ip', s')) : ip' = Instr.before d target ∨ ip' = ip + 9 := by
  unfold Instr.branch at h
  split at h
  · obtain ⟨-, hip⟩ := Prod.mk.inj (Option.some.inj h)
    obtain ⟨hip, -⟩ := Prod.mk.inj hip
    rw [← hip]
    split
    · exact .inl rfl
    · exact .inr rfl
  · cases h

theorem arg_next {imm : Option Elem} {reg : Option Int} {mem : Bool}
    (h : Instr.exec d ip s (.arg cmd imm reg mem) = some (false, ip', s')) : ip' = ip + 9 := by
  by_cases hcmd : cmd = .PUSH
  · subst hcmd
    obtain ⟨p, -, h₁⟩ := Option.bind_eq_some_iff.mp h
    cases h₁
    rfl
  · rw [Instr.exec] at h
    · obtain ⟨⟨p, x⟩, -, h₁⟩ := Option.bind_eq_some_iff.mp h
      cases p with
      | none =>
          cases h₁
          rfl
      | some p =>
          dsimp only at h₁
          split at h₁
          · cases h₁
            rfl
          · cases h₁
    · exact hcmd

/-- The processor goes on after the bytes of a command, unless it jumps or returns. -/
theorem ProcessCommand_next (hi : decode code = some i) (h : ProcessCommand d code ip s = some (false, ip', s')) :
    ip' + 1 = ip + i.size ∨ (∃ cmd target, i = .jump cmd target ∧ ip' = Instr.before d target) ∨ i = .plain .RET := by
  rw [ProcessCommand_eq hi] at h
  unfold decode at hi
  obtain ⟨cmd, -, hdecoded⟩ := Option.map_eq_some_iff.mp hi
  by_cases hp : cmd.IsPushPop
  · rw [if_pos hp] at hdecoded
    subst hdecoded
    rw [arg_next h, Instr.size]
    exact .inl (by push_cast; omega)
  · rw [if_neg hp] at hdecoded
    by_cases hj : cmd.IsJump
    · rw [if_pos hj] at hdecoded
      subst hdecoded
      have hcases : ip' = Instr.before d (peek code 1) ∨ ip' = ip + 9 := by
        cases cmd with
        | JB => exact branch_next h
        | JBE => exact branch_next h
        | JA => exact branch_next h
        | JAE => exact branch_next h
        | JE => exact branch_next h
        | JNE => exact branch_next h
        | _ =>
            cases h
            exact .inl rfl
      rcases hcases with hbefore | hnext
      · exact .inr (.inl ⟨cmd, _, rfl, hbefore⟩)
      · rw [hnext, Instr.size]
        exact .inl (by push_cast; omega)
    · rw [if_neg hj] at hdecoded
      subst hdecoded
      by_cases hr : cmd = .RET
      · exact .inr (.inr (by rw [hr]))
      · rw [perform_next hp hj hr h, Instr.size]
        exact .inl (by push_cast; omega)

end CompilerLab.Asm
