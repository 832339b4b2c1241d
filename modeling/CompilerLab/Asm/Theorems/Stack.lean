import CompilerLab.Asm.Integers
import CompilerLab.Asm.Stack

/-!
# The bounds of the stack

A command stays inside of the stack when there are as many elements as it pops and the array has room for what it pushes. The array
has two elements, and nothing makes it larger.
-/

namespace CompilerLab.Asm.Machine

variable {d : Doubles} {code cmds : Int → Byte} {ip cmds_amount : Int} {s s' : Machine} {x y : Elem} {cmd : Commands}

/-! ## One access -/

theorem StackPop_of (h : 0 < s.MainStack.size) : s.StackPop = .ok (s.MainStack.data (s.MainStack.size - 1),
    { s with MainStack := { s.MainStack with size := s.MainStack.size - 1 } }) := by
  have hi : 0 ≤ s.MainStack.size - 1 := by omega
  rw [StackPop, Stack.StackPop, if_pos hi]
  rfl

theorem StackPop_empty (h : s.MainStack.size ≤ 0) : s.StackPop = .error .read := by
  have hi : ¬ 0 ≤ s.MainStack.size - 1 := by omega
  rw [StackPop, Stack.StackPop, if_neg hi]
  rfl

theorem StackPush_of (h : s.MainStack.size < s.MainStack.capacity) : s.StackPush x = .ok { s with MainStack :=
    { s.MainStack with
      data := Function.update s.MainStack.data s.MainStack.size x, size := s.MainStack.size + 1 } } := by
  rw [StackPush, Stack.StackPush, if_pos h]
  rfl

theorem StackPush_full (h : s.MainStack.capacity ≤ s.MainStack.size) : s.StackPush x = .error .write := by
  rw [StackPush, Stack.StackPush, if_neg (not_lt.mpr h)]
  rfl

/-! ## One command -/

/-- The elements a command pops. A `pop` without a place for its element does not pop, and a `ret` on the empty stack stops. -/
def pops (d : Doubles) (code : Int → Byte) (s : Machine) : Commands → Int
  | .POP =>
      match s.getArg d code with
      | .ok (some _, _) => 1
      | _ => 0
  | .MUL | .ADD | .SUB | .DIV | .JB | .JBE | .JA | .JAE | .JE | .JNE => 2
  | .OUT | .SQR | .SIN | .COS | .ABS | .ROUND => 1
  | .RET => if s.MainStack.size = 0 then 0 else 1
  | .HLT | .PUSH | .DMP | .JMP | .IN | .CALL | .END => 0

/-- The elements a command pushes; `push` and `in` need their number first. -/
def pushes (d : Doubles) (code : Int → Byte) (s : Machine) : Commands → Int
  | .PUSH =>
      match s.getArg d code with
      | .ok _ => 1
      | .error _ => 0
  | .IN => if s.input = [] then 0 else 1
  | .MUL | .ADD | .SUB | .DIV | .SQR | .SIN | .COS | .ABS | .ROUND | .CALL => 1
  | .HLT | .POP | .OUT | .DMP | .JMP | .JB | .JBE | .JA | .JAE | .JE | .JNE | .RET | .END => 0

theorem pushes_nonneg (d : Doubles) (code : Int → Byte) (s : Machine) (cmd : Commands) : 0 ≤ pushes d code s cmd := by
  cases cmd with
  | PUSH =>
      rw [pushes]
      split <;> decide
  | IN =>
      rw [pushes]
      split <;> decide
  | _ => simp [pushes]

/-- There are the elements the command pops, and room for those it pushes. -/
def Fits (d : Doubles) (code : Int → Byte) (s : Machine) (cmd : Commands) : Prop :=
  pops d code s cmd ≤ s.MainStack.size ∧
    s.MainStack.size - pops d code s cmd + pushes d code s cmd ≤ s.MainStack.capacity

/-- No element of the stack is read or written outside of it. -/
def InBounds {α : Type} (r : Except Fault α) : Prop := r ≠ .error .read ∧ r ≠ .error .write

/-- The array of two elements is as long as the stack. -/
structure Valid (s : Machine) : Prop where
  size_nonneg : 0 ≤ s.MainStack.size
  size_le : s.MainStack.size ≤ s.MainStack.capacity
  capacity : s.MainStack.capacity = 2

theorem inBounds_ok {α : Type} (a : α) : InBounds (.ok a) := ⟨nofun, nofun⟩

theorem not_inBounds_read {α : Type} : ¬ InBounds (.error .read : Except Fault α) := fun h => h.1 rfl

theorem not_inBounds_write {α : Type} : ¬ InBounds (.error .write : Except Fault α) := fun h => h.2 rfl

/-- What a command that is finished leaves: the registers and the rest may have changed, the stack has what was popped and pushed. -/
def Leaves (s : Machine) (n : Int) (r : Except Fault (Bool × Int × Machine)) : Prop :=
  ∀ e i s', r = .ok (e, i, s') → s'.MainStack.size = s.MainStack.size + n ∧
    s'.MainStack.capacity = s.MainStack.capacity

theorem ok_bind {ε α β : Type} (a : α) (f : α → Except ε β) : ((.ok a : Except ε α) >>= f) = f a := rfl

theorem error_bind {ε α β : Type} (e : ε) (f : α → Except ε β) : ((.error e : Except ε α) >>= f) = .error e := rfl

theorem leaves_error (n : Int) (e : Fault) : Leaves s n (.error e) := nofun

theorem leaves_ok {n ip : Int} {e : Bool} (hsize : s'.MainStack.size = s.MainStack.size + n)
    (hcap : s'.MainStack.capacity = s.MainStack.capacity) : Leaves s n (.ok (e, ip, s')) := by
  intro e' i t h
  cases h
  exact ⟨hsize, hcap⟩

/-- What there is to say about a command: when it stays in bounds, and how the stack grows when it is finished. -/
def Behaves (s : Machine) (pops pushes : Int) (r : Except Fault (Bool × Int × Machine)) : Prop :=
  (InBounds r ↔ pops ≤ s.MainStack.size ∧ s.MainStack.size - pops + pushes ≤ s.MainStack.capacity) ∧
    Leaves s (pushes - pops) r

theorem binary_behaves (hv : s.Valid) (op : Elem → Elem → Elem) : Behaves s 2 1 (binary ip s op) := by
  obtain ⟨hnonneg, hle, -⟩ := hv
  rw [binary]
  by_cases h₁ : 0 < s.MainStack.size
  · rw [StackPop_of h₁, ok_bind]
    dsimp only
    by_cases h₂ : 1 < s.MainStack.size
    · rw [StackPop_of (by dsimp only; omega), ok_bind]
      dsimp only
      rw [StackPush_of (by dsimp only; omega), ok_bind]
      refine ⟨⟨fun _ => by omega, fun _ => inBounds_ok _⟩, leaves_ok ?_ rfl⟩
      dsimp only
      omega
    · rw [StackPop_empty (by dsimp only; omega), error_bind]
      exact ⟨⟨fun h => absurd h not_inBounds_read, fun h => by omega⟩, leaves_error _ _⟩
  · rw [StackPop_empty (by omega), error_bind]
    exact ⟨⟨fun h => absurd h not_inBounds_read, fun h => by omega⟩, leaves_error _ _⟩

theorem jumpIf_behaves (hv : s.Valid) (cond : Elem → Elem → Bool) : Behaves s 2 0 (jumpIf d code ip s cond) := by
  obtain ⟨hnonneg, hle, -⟩ := hv
  rw [jumpIf]
  by_cases h₁ : 0 < s.MainStack.size
  · rw [StackPop_of h₁, ok_bind]
    dsimp only
    by_cases h₂ : 1 < s.MainStack.size
    · rw [StackPop_of (by dsimp only; omega), ok_bind]
      refine ⟨⟨fun _ => by omega, fun _ => inBounds_ok _⟩, leaves_ok ?_ rfl⟩
      dsimp only
      omega
    · rw [StackPop_empty (by dsimp only; omega), error_bind]
      exact ⟨⟨fun h => absurd h not_inBounds_read, fun h => by omega⟩, leaves_error _ _⟩
  · rw [StackPop_empty (by omega), error_bind]
    exact ⟨⟨fun h => absurd h not_inBounds_read, fun h => by omega⟩, leaves_error _ _⟩

theorem unary_behaves (hv : s.Valid) (op : Elem → Elem) : Behaves s 1 1 (unary ip s op) := by
  obtain ⟨hnonneg, hle, -⟩ := hv
  rw [unary]
  by_cases h₁ : 0 < s.MainStack.size
  · rw [StackPop_of h₁, ok_bind]
    dsimp only
    rw [StackPush_of (by dsimp only; omega), ok_bind]
    refine ⟨⟨fun _ => by omega, fun _ => inBounds_ok _⟩, leaves_ok ?_ rfl⟩
    dsimp only
    omega
  · rw [StackPop_empty (by omega), error_bind]
    exact ⟨⟨fun h => absurd h not_inBounds_read, fun h => by omega⟩, leaves_error _ _⟩

/-- A command that only pushes. -/
theorem pushing_behaves {i : Int} (hv : s.Valid) (hs : s'.MainStack = s.MainStack) :
    Behaves s 0 1 (do let t ← s'.StackPush x; return (false, i, t)) := by
  obtain ⟨hnonneg, hle, -⟩ := hv
  by_cases h : s.MainStack.size < s.MainStack.capacity
  · rw [StackPush_of (by rw [hs]; exact h), ok_bind]
    refine ⟨⟨fun _ => by omega, fun _ => inBounds_ok _⟩, leaves_ok ?_ ?_⟩
    · rw [hs]
      rfl
    · rw [hs]
  · rw [StackPush_full (by rw [hs]; omega), error_bind]
    exact ⟨⟨fun h => absurd h not_inBounds_write, fun h => by omega⟩, leaves_error _ _⟩

/-- A command that only pops, and goes on with the element. -/
theorem popping_behaves {f : Elem → Machine → Bool × Int × Machine} (hv : s.Valid)
    (hf : ∀ x t, (f x t).2.2.MainStack = t.MainStack) : Behaves s 1 0 (do let (x, t) ← s.StackPop; return f x t) := by
  obtain ⟨hnonneg, hle, -⟩ := hv
  by_cases h : 0 < s.MainStack.size
  · rw [StackPop_of h, ok_bind]
    refine ⟨⟨fun _ => by omega, fun _ => inBounds_ok _⟩, leaves_ok ?_ ?_⟩
    · rw [hf]
      dsimp only
      omega
    · rw [hf]
  · rw [StackPop_empty (by omega), error_bind]
    exact ⟨⟨fun h => absurd h not_inBounds_read, fun h => by omega⟩, leaves_error _ _⟩

/-- A command that leaves the stack alone. -/
theorem still_behaves {e : Bool} {i : Int} (hv : s.Valid) (hs : s'.MainStack = s.MainStack) :
    Behaves s 0 0 (.ok (e, i, s')) := by
  obtain ⟨hnonneg, hle, -⟩ := hv
  refine ⟨⟨fun _ => by omega, fun _ => inBounds_ok _⟩, leaves_ok ?_ ?_⟩
  · rw [hs]
    omega
  · rw [hs]

theorem failing_behaves {e : Fault} (hv : s.Valid) (hr : e ≠ .read) (hw : e ≠ .write) : Behaves s 0 0 (.error e) := by
  obtain ⟨hnonneg, hle, -⟩ := hv
  refine ⟨⟨fun _ => by omega, fun _ => ⟨fun h => hr ?_, fun h => hw ?_⟩⟩, leaves_error _ _⟩
  · cases h
    rfl
  · cases h
    rfl

theorem getArg_memory {e : Fault} (h : s.getArg d code = .error e) : e = .memory := by
  rw [getArg] at h
  split at h
  · cases h
  · cases h
    rfl

theorem assign_MainStack (p : Ptr) : (s.assign p x).MainStack = s.MainStack := by cases p <;> rfl

theorem perform_behaves (hv : s.Valid) (cmd : Commands) :
    Behaves s (pops d code s cmd) (pushes d code s cmd) (perform d code ip s cmd) := by
  cases cmd with
  | PUSH =>
      rw [perform, push, pops, pushes]
      cases harg : s.getArg d code with
      | error e =>
          obtain rfl := getArg_memory harg
          exact failing_behaves hv nofun nofun
      | ok a => exact pushing_behaves hv rfl
  | POP =>
      rw [perform, pop, pops, pushes]
      cases harg : s.getArg d code with
      | error e =>
          obtain rfl := getArg_memory harg
          exact failing_behaves hv nofun nofun
      | ok a =>
          obtain ⟨arg, v⟩ := a
          cases arg with
          | none => exact still_behaves hv rfl
          | some p =>
              exact popping_behaves (f := fun x t => (false, ip + MULTI_BYTE_OFFSET, t.assign p x)) hv
                fun x t => assign_MainStack p
  | IN =>
      rw [perform, pops, pushes]
      cases hin : s.input with
      | nil => exact failing_behaves hv nofun nofun
      | cons x input => exact pushing_behaves hv rfl
  | RET =>
      rw [perform, pops, pushes]
      split
      · exact still_behaves hv rfl
      · exact popping_behaves (f := fun x t => (false, d.toInt x, t)) hv fun _ _ => rfl
  | OUT => exact popping_behaves (f := fun x t => (false, ip, { t with output := t.output ++ [x] })) hv fun _ _ => rfl
  | CALL => exact pushing_behaves hv rfl
  | HLT | DMP | JMP | END => exact still_behaves hv rfl
  | MUL | ADD | SUB | DIV => exact binary_behaves hv _
  | JB => exact jumpIf_behaves hv d.lt
  | JBE => exact jumpIf_behaves hv d.le
  | JA => exact jumpIf_behaves hv fun x y => d.lt y x
  | JAE => exact jumpIf_behaves hv fun x y => d.le y x
  | JE => exact jumpIf_behaves hv d.eq
  | JNE => exact jumpIf_behaves hv fun x y => !d.eq x y
  | SQR | SIN | COS | ABS | ROUND => exact unary_behaves hv _

/-! ## A run -/

/-- The command at the instruction pointer fits, if it is one. -/
def FitsAt (d : Doubles) (cmds : Int → Byte) (p : Int × Machine) : Prop :=
  ∀ cmd, Commands.ofByte (cmds (p.1 + 0) &&& CMD_BITMASK) = some cmd → Fits d (fun k => cmds (p.1 + k)) p.2 cmd

theorem executeRound_eq : executeRound d cmds ip s = (ProcessCommand d (fun k => cmds (ip + k)) ip s).map
    fun r => (r.1, if r.1 then r.2.1 else r.2.1 + 1, r.2.2) := by
  rw [executeRound]
  cases ProcessCommand d (fun k => cmds (ip + k)) ip s with
  | error e => rfl
  | ok r => rfl

theorem inBounds_map {α β : Type} {r : Except Fault α} (f : α → β) : InBounds (r.map f) ↔ InBounds r := by
  cases r with
  | ok a => exact ⟨fun _ => inBounds_ok a, fun _ => inBounds_ok (f a)⟩
  | error e =>
      constructor
      · rintro ⟨hr, hw⟩
        exact ⟨fun h => hr (by cases h; rfl), fun h => hw (by cases h; rfl)⟩
      · rintro ⟨hr, hw⟩
        exact ⟨fun h => hr (by cases h; rfl), fun h => hw (by cases h; rfl)⟩

theorem executeRound_inBounds_iff (hv : s.Valid) : InBounds (executeRound d cmds ip s) ↔ FitsAt d cmds (ip, s) := by
  rw [executeRound_eq, inBounds_map, ProcessCommand, FitsAt]
  cases hcmd : Commands.ofByte (cmds (ip + 0) &&& CMD_BITMASK) with
  | none => exact ⟨fun _ => nofun, fun _ => inBounds_ok _⟩
  | some cmd =>
      obtain ⟨hb, -⟩ : Behaves s _ _ (perform d (fun k => cmds (ip + k)) ip s cmd) := perform_behaves hv cmd
      refine ⟨fun h cmd' hcmd' => ?_, fun h => hb.mpr (h cmd rfl)⟩
      obtain rfl := Option.some.inj hcmd'
      exact hb.mp h

theorem Valid.step {p q : Int × Machine} (hv : p.2.Valid) (h : Step d cmds cmds_amount p q) : q.2.Valid := by
  obtain ⟨ip, s⟩ := p
  obtain ⟨ip', s'⟩ := q
  obtain ⟨-, hround⟩ := h
  have hfits : FitsAt d cmds (ip, s) := by
    rw [← executeRound_inBounds_iff hv, hround]
    exact inBounds_ok _
  rw [executeRound_eq, ProcessCommand] at hround
  cases hcmd : Commands.ofByte (cmds (ip + 0) &&& CMD_BITMASK) with
  | none =>
      rw [hcmd] at hround
      cases hround
  | some cmd =>
      rw [hcmd] at hround
      obtain ⟨hpops, hroom⟩ := hfits cmd hcmd
      cases hrun : perform d (fun k => cmds (ip + k)) ip s cmd with
      | error e =>
          simp only [hrun] at hround
          cases hround
      | ok r =>
          obtain ⟨e, i, t⟩ := r
          simp only [hrun] at hround
          obtain ⟨hsize, hcap⟩ := (perform_behaves hv cmd).2 e i t hrun
          have hnonneg := pushes_nonneg d (fun k => cmds (ip + k)) s cmd
          have ht : t = s' := congrArg (·.2.2) (Except.ok.inj hround)
          dsimp only
          rw [← ht]
          obtain ⟨h₀, h₁, h₂⟩ := hv
          dsimp only at hsize hcap h₀ h₁ h₂ hpops hroom
          exact ⟨by omega, by omega, by omega⟩

theorem Valid.reaches {p q : Int × Machine} (hv : p.2.Valid) (h : Reaches d cmds cmds_amount p q) : q.2.Valid := by
  induction h with
  | refl => exact hv
  | tail _ hstep ih => exact ih.step hstep

theorem IsStart.valid {p : Int × Machine} (h : IsStart p) : p.2.Valid := by
  rw [IsStart] at h
  refine ⟨?_, ?_, ?_⟩ <;> rw [h.2] <;> decide

/-- `push 0` three times. -/
def threePushes : Int → Byte := fun k => if k = 8 ∨ k = 18 ∨ k = 28 then Commands.PUSH.byte ||| ARG_IMMED else 0

/-- The machine after `n` of the commands. -/
def pushed (n : Nat) : Machine where
  MainStack := { data := fun _ => 0, size := n, capacity := 2 }
  Regs := fun _ => 0
  Ram := fun _ => 0
  input := []
  output := []

theorem pushed_start : IsStart (8, pushed 0) := ⟨rfl, rfl⟩

theorem pushed_update {i : Int} {code : Int → Byte} (h : peek code 1 = 0) :
    Function.update (fun _ => 0) i (peek code 1) = fun _ : Int => (0 : Elem) := by
  rw [h]
  exact Function.update_eq_self i _

theorem pushed_reaches : Reaches Doubles.integers threePushes 38 (8, pushed 0) (28, pushed 2) := by
  have h₁ : executeRound Doubles.integers threePushes 8 (pushed 0) = .ok (false, 18, { pushed 1 with
      MainStack := { (pushed 1).MainStack with
        data := Function.update (fun _ => 0) 0 (peek (fun k => threePushes (8 + k)) 1) } }) := rfl
  have h₂ : executeRound Doubles.integers threePushes 18 (pushed 1) = .ok (false, 28, { pushed 2 with
      MainStack := { (pushed 2).MainStack with
        data := Function.update (fun _ => 0) 1 (peek (fun k => threePushes (18 + k)) 1) } }) := rfl
  rw [pushed_update (by decide)] at h₁ h₂
  have s₁ : Step Doubles.integers threePushes 38 (8, pushed 0) (18, pushed 1) := ⟨by decide, h₁⟩
  have s₂ : Step Doubles.integers threePushes 38 (18, pushed 1) (28, pushed 2) := ⟨by decide, h₂⟩
  exact .tail (.tail .refl s₁) s₂

theorem toList_pop {self : Stack} (h : 0 < self.size) :
    self.toList = self.data (self.size - 1) :: { self with size := self.size - 1 }.toList := by
  obtain ⟨n, hn⟩ : ∃ n : Nat, self.size = n + 1 := ⟨(self.size - 1).toNat, by omega⟩
  simp only [Stack.toList, hn, Int.add_sub_cancel]
  rw [show ((n : Int) + 1).toNat = n + 1 by omega, Int.toNat_natCast, List.range_succ_eq_map, List.map_cons, List.map_map]
  refine congrArg₂ List.cons (by simp) (List.map_congr_left fun k _ => ?_)
  have hk : (n : Int) - (k + 1 : Nat) = n - 1 - k := by omega
  exact congrArg self.data hk

theorem toList_push {self : Stack} (h : 0 ≤ self.size) :
    { self with data := Function.update self.data self.size x, size := self.size + 1 }.toList = x :: self.toList := by
  rw [toList_pop (by dsimp only; omega)]
  simp only [Int.add_sub_cancel, Function.update_self]
  refine congrArg (x :: ·) (List.map_congr_left fun k hk => ?_)
  have hlt := List.mem_range.mp hk
  exact Function.update_of_ne (by dsimp only at hlt ⊢; omega) _ _

theorem StackPop_cpu (h : s.StackPop = .ok (x, s')) :
    s.cpu.StackPop = some (x, s'.cpu) ∧ s'.MainStack.size = s.MainStack.size - 1 ∧ 0 < s.MainStack.size := by
  by_cases hsize : 0 < s.MainStack.size
  · rw [StackPop_of hsize] at h
    obtain ⟨rfl, rfl⟩ := Prod.mk.inj (Except.ok.inj h)
    refine ⟨?_, rfl, hsize⟩
    rw [Processor.StackPop, cpu, toList_pop hsize]
    rfl
  · rw [StackPop_empty (by omega)] at h
    cases h

theorem StackPush_cpu (hnonneg : 0 ≤ s.MainStack.size) (h : s.StackPush x = .ok s') : s'.cpu = s.cpu.StackPush x := by
  by_cases hsize : s.MainStack.size < s.MainStack.capacity
  · rw [StackPush_of hsize] at h
    obtain rfl := Except.ok.inj h
    rw [cpu, Processor.StackPush, cpu, toList_push hnonneg]
  · rw [StackPush_full (by omega)] at h
    cases h

theorem bind_ok {ε α β : Type} {m : Except ε α} {f : α → Except ε β} {b : β} (h : (m >>= f) = .ok b) :
    ∃ a, m = .ok a ∧ f a = .ok b := by
  cases m with
  | ok a => exact ⟨a, rfl, h⟩
  | error e => cases h

section
variable {e : Bool} {i : Int}

theorem binary_cpu {op : Elem → Elem → Elem} (h : binary ip s op = .ok (e, i, s')) :
    Asm.binary ip s.cpu op = some (e, i, s'.cpu) := by
  rw [binary] at h
  obtain ⟨⟨x, s₁⟩, hx, h⟩ := bind_ok h
  obtain ⟨⟨y, s₂⟩, hy, h⟩ := bind_ok h
  obtain ⟨s₃, hpush, h⟩ := bind_ok h
  cases h
  obtain ⟨hx, -, -⟩ := StackPop_cpu hx
  obtain ⟨hy, hsize, hpos⟩ := StackPop_cpu hy
  rw [Asm.binary, hx]
  simp only [Option.bind_eq_bind, Option.bind_some]
  rw [hy, StackPush_cpu (by omega) hpush]
  rfl

theorem unary_cpu {op : Elem → Elem} (h : unary ip s op = .ok (e, i, s')) : Asm.unary ip s.cpu op = some (e, i, s'.cpu) := by
  rw [unary] at h
  obtain ⟨⟨x, s₁⟩, hx, h⟩ := bind_ok h
  obtain ⟨s₂, hpush, h⟩ := bind_ok h
  cases h
  obtain ⟨hx, hsize, hpos⟩ := StackPop_cpu hx
  rw [Asm.unary, hx, StackPush_cpu (by omega) hpush]
  rfl

theorem jumpIf_cpu {cond : Elem → Elem → Bool} (h : jumpIf d code ip s cond = .ok (e, i, s')) :
    Asm.jumpIf d code ip s.cpu cond = some (e, i, s'.cpu) := by
  rw [jumpIf] at h
  obtain ⟨⟨x, s₁⟩, hx, h⟩ := bind_ok h
  obtain ⟨⟨y, s₂⟩, hy, h⟩ := bind_ok h
  cases h
  obtain ⟨hx, -, -⟩ := StackPop_cpu hx
  obtain ⟨hy, -, -⟩ := StackPop_cpu hy
  rw [Asm.jumpIf, hx]
  simp only [Option.bind_eq_bind, Option.bind_some]
  rw [hy]
  rfl

theorem getArg_cpu {a : Option Ptr × Elem} (h : s.getArg d code = .ok a) : GetArg d code s.cpu (code 0) = some a := by
  rw [getArg] at h
  split at h
  next b hb =>
    cases h
    exact hb
  next => cases h

theorem push_cpu (hnonneg : 0 ≤ s.MainStack.size) (h : push d code ip s = .ok (e, i, s')) :
    Asm.push d code ip s.cpu = some (e, i, s'.cpu) := by
  rw [push] at h
  obtain ⟨⟨arg, value⟩, harg, h⟩ := bind_ok h
  obtain ⟨s₁, hpush, h⟩ := bind_ok h
  cases h
  rw [Asm.push, getArg_cpu harg, StackPush_cpu hnonneg hpush]
  rfl

theorem assign_cpu (p : Ptr) : (s.assign p x).cpu = s.cpu.assign p x := by cases p <;> rfl

theorem pop_cpu (h : pop d code ip s = .ok (e, i, s')) : Asm.pop d code ip s.cpu = some (e, i, s'.cpu) := by
  rw [pop] at h
  obtain ⟨⟨arg, value⟩, harg, h⟩ := bind_ok h
  rw [Asm.pop, getArg_cpu harg]
  cases arg with
  | none =>
      cases h
      rfl
  | some p =>
      obtain ⟨⟨x, s₁⟩, hx, h⟩ := bind_ok h
      cases h
      simp only [Option.bind_eq_bind, Option.bind_some, (StackPop_cpu hx).1, assign_cpu]
      rfl

theorem perform_cpu (hnonneg : 0 ≤ s.MainStack.size) (h : perform d code ip s cmd = .ok (e, i, s')) :
    Asm.perform d code ip s.cpu cmd = some (e, i, s'.cpu) := by
  cases cmd with
  | PUSH => exact push_cpu hnonneg h
  | POP => exact pop_cpu h
  | OUT =>
      obtain ⟨⟨x, s₁⟩, hx, h⟩ := bind_ok h
      cases h
      rw [Asm.perform, (StackPop_cpu hx).1]
      rfl
  | IN =>
      rw [perform] at h
      cases hin : s.input with
      | nil =>
          rw [hin] at h
          cases h
      | cons x input =>
          rw [hin] at h
          obtain ⟨s₁, hpush, h⟩ := bind_ok h
          cases h
          have hinput : s.cpu.input = x :: input := hin
          have hcpu := StackPush_cpu (s := { s with input }) hnonneg hpush
          rw [Asm.perform, hinput, hcpu]
          rfl
  | CALL =>
      obtain ⟨s₁, hpush, h⟩ := bind_ok h
      cases h
      rw [Asm.perform, StackPush_cpu hnonneg hpush]
  | RET =>
      rw [perform] at h
      split at h
      next hzero =>
        cases h
        have hempty : s.cpu.stack = [] := by simp [cpu, Stack.toList, hzero]
        rw [Asm.perform, hempty]
      next =>
        obtain ⟨⟨x, s₁⟩, hx, h⟩ := bind_ok h
        cases h
        have hpop := (StackPop_cpu hx).1
        rw [Processor.StackPop] at hpop
        split at hpop
        next y stack hstack =>
          obtain ⟨rfl, hcpu⟩ := Prod.mk.inj (Option.some.inj hpop)
          rw [Asm.perform, hstack, ← hcpu]
        next => cases hpop
  | HLT | DMP | JMP | END =>
      cases h
      rfl
  | MUL | ADD | SUB | DIV => exact binary_cpu h
  | JB | JBE | JA | JAE | JE | JNE =>
      rw [perform] at h
      exact jumpIf_cpu h
  | SQR | SIN | COS | ABS | ROUND => exact unary_cpu h

/-- In bounds, the machine does what the processor with a list for its stack does. -/
theorem executeRound_cpu (hv : s.Valid) (h : executeRound d cmds ip s = .ok (e, i, s')) :
    Asm.executeRound d cmds ip s.cpu = some (e, i, s'.cpu) := by
  rw [executeRound] at h
  obtain ⟨⟨exit, j, t⟩, hcmd, h⟩ := bind_ok h
  cases h
  suffices hp : Asm.ProcessCommand d (fun k => cmds (ip + k)) ip s.cpu = some (e, j, s'.cpu) by
    rw [Asm.executeRound, hp]
    rfl
  rw [ProcessCommand] at hcmd
  rw [Asm.ProcessCommand]
  cases hbyte : Commands.ofByte (cmds (ip + 0) &&& CMD_BITMASK) with
  | some cmd =>
      rw [hbyte] at hcmd
      exact perform_cpu hv.size_nonneg hcmd
  | none =>
      rw [hbyte] at hcmd
      cases hcmd
      rfl

end

end CompilerLab.Asm.Machine
