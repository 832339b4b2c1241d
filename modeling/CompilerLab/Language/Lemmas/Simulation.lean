import CompilerLab.Language.Code
import CompilerLab.Language.Lemmas.Code

/-!
# Runs of the code of a program

What the processor does from where the code of a part of a program stands in memory.
-/

namespace CompilerLab.Language

open Options TreeNode Asm

variable {m : Image} {pos ip' : Int} {line : Line} {lines lines' : List Line} {s s' : Processor} {i : Instr}

/-! ## Code in memory -/

@[simp] theorem width_nil : width m [] = 0 := rfl

@[simp] theorem width_cons : width m (line :: lines) = bytes (line.instrs m) + width m lines := by
  rw [width, List.flatMap_cons, bytes_append, width]

@[simp] theorem width_append : width m (lines ++ lines') = width m lines + width m lines' := by
  rw [width, List.flatMap_append, bytes_append, width, width]

theorem placed_append : Placed m pos (lines ++ lines') ↔ Placed m pos lines ∧ Placed m (pos + width m lines) lines' := by
  induction lines generalizing pos with
  | nil => simp [Placed]
  | cons line lines ih =>
      rw [List.cons_append, Placed, Placed, ih, width_cons]
      push_cast
      rw [Int.add_assoc]
      tauto

/-- The processor gets from one position and state to others. -/
abbrev Image.Runs (m : Image) : Int × Processor → Int × Processor → Prop := Asm.Runs m.d m.cmds m.cmds_amount

/-- It gets behind the lines. -/
abbrev Passes (m : Image) (pos : Int) (lines : List Line) (s s' : Processor) : Prop :=
  m.Runs (pos, s) (pos + width m lines, s')

theorem Passes.nil : Passes m pos [] s s := by
  rw [Passes, width_nil, Int.natCast_zero, Int.add_zero]

theorem Passes.append {s₁ : Processor} (h : Passes m pos lines s s₁) (h' : Passes m (pos + width m lines) lines' s₁ s') :
    Passes m pos (lines ++ lines') s s' := by
  have hpos : pos + width m lines + width m lines' = pos + width m (lines ++ lines') := by
    rw [width_append]
    push_cast
    omega
  rw [Passes, hpos] at h'
  exact h.trans h'

theorem placed_cons : Placed m pos (line :: lines) ↔ Placed m pos [line] ∧ Placed m (pos + width m [line]) lines := by
  rw [← List.singleton_append, placed_append]

theorem Passes.cons {s₁ : Processor} (h : Passes m pos [line] s s₁) (h' : Passes m (pos + width m [line]) lines s₁ s') :
    Passes m pos (line :: lines) s s' :=
  h.append h'

/-- One command that stands in memory. -/
theorem run_of_loaded {rest : List Instr} (h : Loaded m.cmds pos (i :: rest)) (hpos : pos < m.cmds_amount)
    (hexec : i.exec m.d pos s = some (false, ip', s')) : m.Runs (pos, s) (ip' + 1, s') :=
  .single (.of_exec hpos h.1 hexec)

/-- A line that is one command. -/
theorem Placed.run (h : Placed m pos (line :: lines)) (hi : line.instrs m = [i])
    (hexec : i.exec m.d pos s = some (false, ip', s')) : m.Runs (pos, s) (ip' + 1, s') := by
  obtain ⟨-, hend, hloaded, -⟩ := h
  rw [hi] at hend hloaded
  refine run_of_loaded hloaded ?_ hexec
  have hsize : 0 < i.size := by cases i <;> simp [Instr.size]
  rw [bytes_cons, bytes_nil] at hend
  omega

/-- A line that is one command the processor goes on after. -/
theorem Placed.passes (h : Placed m pos (line :: lines)) (hi : line.instrs m = [i])
    (hexec : i.exec m.d pos s = some (false, pos + (i.size - 1), s')) : Passes m pos [line] s s' := by
  have hrun := h.run hi hexec
  have hpos : pos + ((i.size : Int) - 1) + 1 = pos + width m [line] := by
    rw [width_cons, width_nil, hi, bytes_cons, bytes_nil]
    push_cast
    omega
  rwa [hpos] at hrun

theorem Placed.bounds (h : Placed m pos (line :: lines)) : 0 < pos ∧ pos < 2 ^ 30 := by
  obtain ⟨hpos, hend, -⟩ := h
  have hbounded := m.bounded
  exact ⟨hpos, by omega⟩

/-- Before the target of a jump. -/
theorem Image.before (m : Image) {target : Int} (h : 0 < target) (h' : target < 2 ^ 30) :
    Instr.before m.d (m.d.ofInt target) = target - 1 := by
  rw [Instr.before, m.exact.sub target 1 (by omega) (by omega) (by omega), m.exact.toInt_ofInt _ (by omega) (by omega)]

/-! ## Single lines -/

section
variable {base slot : Nat} {j : Fin 3000} {x y : Elem} {stack : List Elem} {name text : String}

theorem index_of_nat {n : Nat} {j : Fin n} : index n (j : Nat) = some j := by
  rw [index, dif_pos ⟨by omega, by exact_mod_cast j.isLt⟩]
  simp

/-- `[slot+rax]`. -/
theorem operand_ram (hrax : s.Regs 0 = m.d.ofInt base) (hj : (j : Nat) = base + slot) :
    Instr.operand m.d s (some (m.d.ofInt slot)) (some 0) true = some (some (.ram j), m.d.ofInt (j : Nat)) := by
  have hlt := j.isLt
  have hreg : index 10 0 = some 0 := rfl
  have hadd : m.d.add (m.d.ofInt slot) (m.d.ofInt base) = m.d.ofInt (j : Nat) := by
    rw [m.exact.add _ _ (by omega) (by omega) (by omega), hj]
    congr 1
    push_cast
    omega
  have htoInt : m.d.toInt (m.d.ofInt (j : Nat)) = (j : Nat) := m.exact.toInt_ofInt _ (by omega) (by omega)
  simp only [Instr.operand, hreg, Option.map_some, hrax, hadd, Option.bind_eq_bind, Option.bind_some, if_true, htoInt, index_of_nat]

theorem Placed.push_number {bits : BitVec 64} (h : Placed m pos (.push_number bits :: lines)) :
    Passes m pos [.push_number bits] s (s.StackPush (m.number bits)) :=
  h.passes rfl rfl

theorem Placed.push (h : Placed m pos (.variable "push" name slot :: lines)) (hrax : s.Regs 0 = m.d.ofInt base)
    (hj : (j : Nat) = base + slot) : Passes m pos [.variable "push" name slot] s (s.StackPush (s.Ram j)) := by
  refine h.passes rfl ?_
  rw [if_pos rfl, Instr.exec, operand_ram hrax hj]
  rfl

theorem Placed.pop (h : Placed m pos (.variable "pop" name slot :: lines)) (hrax : s.Regs 0 = m.d.ofInt base)
    (hj : (j : Nat) = base + slot) (hstack : s.stack = x :: stack) :
    Passes m pos [.variable "pop" name slot] s { s with stack, Ram := Function.update s.Ram j x } := by
  refine h.passes rfl ?_
  rw [if_neg (by decide), Instr.exec, operand_ram hrax hj]
  · simp only [Option.bind_eq_bind, Option.bind_some, hstack]
    rfl
  · simp

/-- A command without operands. -/
theorem Placed.plain {cmd : Commands} (h : Placed m pos (.instruction text :: lines)) (hi : instructionInstr text = [.plain cmd])
    (hexec : perform m.d (fun _ => 0) pos s cmd = some (false, pos, s')) : Passes m pos [.instruction text] s s' :=
  h.passes hi (by simpa [Instr.exec, Instr.size] using hexec)

theorem Placed.binary {op : Elem → Elem → Elem} {cmd : Commands} (h : Placed m pos (.instruction text :: lines))
    (hi : instructionInstr text = [.plain cmd]) (hcmd : perform m.d (fun _ => 0) pos s cmd = Asm.binary pos s op)
    (hstack : s.stack = x :: y :: stack) : Passes m pos [.instruction text] s { s with stack := op x y :: stack } :=
  h.plain hi (by rw [hcmd]; simp [Asm.binary, Processor.StackPop, Processor.StackPush, hstack])

theorem Placed.unary {op : Elem → Elem} {cmd : Commands} (h : Placed m pos (.instruction text :: lines))
    (hi : instructionInstr text = [.plain cmd]) (hcmd : perform m.d (fun _ => 0) pos s cmd = Asm.unary pos s op)
    (hstack : s.stack = x :: stack) : Passes m pos [.instruction text] s { s with stack := op x :: stack } :=
  h.plain hi (by rw [hcmd]; simp [Asm.unary, Processor.StackPop, Processor.StackPush, hstack])

theorem Placed.in {input : List Elem} (h : Placed m pos (.instruction "in" :: lines)) (hinput : s.input = x :: input) :
    Passes m pos [.instruction "in"] s { s with input, stack := x :: s.stack } := by
  have hi : instructionInstr "in" = [.plain .IN] := rfl
  exact h.plain hi (by simp [perform, hinput])

theorem Placed.out (h : Placed m pos (.instruction "out" :: lines)) (hstack : s.stack = x :: stack) :
    Passes m pos [.instruction "out"] s { s with stack, output := s.output ++ [x] } := by
  have hi : instructionInstr "out" = [.plain .OUT] := rfl
  exact h.plain hi (by simp [perform, Processor.StackPop, hstack])

theorem Placed.push_rcx (h : Placed m pos (.instruction "push rcx" :: lines)) :
    Passes m pos [.instruction "push rcx"] s (s.StackPush (s.Regs 2)) :=
  h.passes rfl rfl

theorem Placed.pop_rcx (h : Placed m pos (.instruction "pop rcx" :: lines)) (hstack : s.stack = x :: stack) :
    Passes m pos [.instruction "pop rcx"] s { s with stack, Regs := Function.update s.Regs 2 x } := by
  refine h.passes (i := .arg .POP none (some 2) false) rfl ?_
  have hreg : index 10 2 = some 2 := rfl
  rw [Instr.exec]
  · simp only [Instr.operand, hreg, Option.map_some, Option.bind_eq_bind, Option.bind_some, hstack]
    rfl
  · simp

/-- Back behind the call. -/
theorem Placed.ret (h : Placed m pos (.instruction "ret" :: lines)) (hstack : s.stack = x :: stack) :
    m.Runs (pos, s) (m.d.toInt x + 1, { s with stack }) :=
  h.run (i := .plain .RET) rfl (by simp [Instr.exec, perform, hstack])

/-! ## Jumps -/

/-- A label that is jumped to is in memory. -/
def Image.HasLabel (m : Image) (name : String) : Prop := 0 < m.labelPos name ∧ m.labelPos name < 2 ^ 30

theorem Placed.label (h : Placed m pos (.label name :: lines)) : m.HasLabel name ∧ m.labelPos name = pos := by
  have hpos : m.labelPos name = pos := h.2.2.2.1 name rfl
  obtain ⟨hlow, hend, -⟩ := h
  have hbounded := m.bounded
  have hwidth : bytes ((Line.label name).instrs m) = 0 := rfl
  rw [hwidth] at hend
  exact ⟨⟨by omega, by omega⟩, hpos⟩

theorem Placed.jmp (h : Placed m pos (.jump "jmp" name :: lines)) (hlabel : m.HasLabel name) : m.Runs (pos, s) (m.labelPos name, s) := by
  have hrun := h.run (i := .jump .JMP (m.d.ofInt (m.labelPos name))) (s := s) rfl rfl
  rwa [m.before hlabel.1 hlabel.2, Int.sub_add_cancel] at hrun

theorem Placed.call (h : Placed m pos (.call name :: lines)) (hlabel : m.HasLabel name) :
    m.Runs (pos, s) (m.labelPos name, s.StackPush (m.d.ofInt (pos + 9))) := by
  have hrun := h.run (i := .jump .CALL (m.d.ofInt (m.labelPos name))) (s := s) rfl rfl
  rwa [m.before hlabel.1 hlabel.2, Int.sub_add_cancel] at hrun

/-- A conditional jump, with the condition of its command. -/
theorem Placed.branch {condition : Elem → Elem → Bool} {cmd : Commands} (h : Placed m pos (.jump text name :: lines))
    (hi : jumpInstr text (m.d.ofInt (m.labelPos name)) = [.jump cmd (m.d.ofInt (m.labelPos name))])
    (hcmd : Instr.exec m.d pos s (.jump cmd (m.d.ofInt (m.labelPos name))) =
      Instr.branch m.d pos s (m.d.ofInt (m.labelPos name)) condition)
    (hlabel : m.HasLabel name) (hstack : s.stack = x :: y :: stack) :
    m.Runs (pos, s) (if condition x y then m.labelPos name else pos + width m [.jump text name], { s with stack }) := by
  have hwidth : width m [.jump text name] = 10 := by
    rw [width_cons, width_nil, Line.instrs, hi]
    rfl
  have hrun := h.run hi (hcmd.trans (by rw [Instr.branch, hstack]))
  by_cases hcondition : condition x y = true
  · rw [if_pos hcondition] at hrun ⊢
    rwa [m.before hlabel.1 hlabel.2, Int.sub_add_cancel] at hrun
  · have hnext : pos + 9 + 1 = pos + (10 : Nat) := by omega
    rw [if_neg hcondition, hwidth]
    rwa [if_neg hcondition, hnext] at hrun

theorem regs_pos : 0 < 10 := by decide

/-- The register of the frame. -/
abbrev rax : Fin 10 := ⟨0, regs_pos⟩

/-- Another value in `rax`. -/
def setRax (s : Processor) (x : Elem) : Processor := { s with Regs := Function.update s.Regs rax x }

@[simp] theorem setRax_rax : (setRax s x).Regs 0 = x := by
  change Function.update s.Regs rax x rax = x
  exact Function.update_self rax x s.Regs

/-- The four lines around a call, of which the third one is addition or subtraction. -/
theorem Placed.shift {amount : Nat} {op : Elem → Elem → Elem} (h : Placed m pos (.shift text amount :: lines))
    (hop : ∀ pos s, perform m.d (fun _ => 0) pos s (if text = "add" then .ADD else .SUB) = Asm.binary pos s op) :
    Passes m pos [.shift text amount] s (setRax s (op (s.Regs 0) (m.d.ofInt amount))) := by
  obtain ⟨-, hend, ⟨hpush, hrax, hcmd, hpop, -⟩, -⟩ := h
  have hwidth : width m [.shift text amount] = 31 := rfl
  have hbytes : bytes ((Line.shift text amount).instrs m) = 31 := rfl
  have hreg : index 10 0 = some 0 := rfl
  rw [hbytes] at hend
  rw [Passes, hwidth]
  simp only [Instr.size] at hrax hcmd hpop
  push_cast at hend hrax hcmd hpop ⊢
  have h₁ : m.Runs (pos, s) (pos + 9 + 1, s.StackPush (m.d.ofInt amount)) :=
    .single (.of_exec (by omega) hpush rfl)
  have h₂ : m.Runs (pos + 10, s.StackPush (m.d.ofInt amount))
      (pos + 10 + 9 + 1, (s.StackPush (m.d.ofInt amount)).StackPush (s.Regs 0)) :=
    .single (.of_exec (by omega) hrax rfl)
  have h₃ : m.Runs (pos + 10 + 10, (s.StackPush (m.d.ofInt amount)).StackPush (s.Regs 0))
      (pos + 10 + 10 + 1, s.StackPush (op (s.Regs 0) (m.d.ofInt amount))) :=
    .single (.of_exec (by omega) hcmd (by rw [Instr.exec, hop]; rfl))
  have h₄ : m.Runs (pos + 10 + 10 + 1, s.StackPush (op (s.Regs 0) (m.d.ofInt amount)))
      (pos + 10 + 10 + 1 + 9 + 1, setRax s (op (s.Regs 0) (m.d.ofInt amount))) :=
    .single (.of_exec (by omega) hpop (by
      rw [Instr.exec]
      · simp only [Instr.operand, hreg, Option.map_some, Option.bind_eq_bind, Option.bind_some]
        rfl
      · simp))
  have hpos : pos + 10 + 10 + 1 + 9 + 1 = pos + 31 := by omega
  rw [Int.add_assoc] at h₁ h₂
  rw [hpos] at h₄
  exact ((h₁.trans h₂).trans h₃).trans h₄

theorem Placed.enter {amount base : Nat} (h : Placed m pos (.shift "add" amount :: lines)) (hrax : s.Regs 0 = m.d.ofInt base)
    (hfits : base + amount < 2 ^ 30) :
    Passes m pos [.shift "add" amount] s (setRax s (m.d.ofInt (base + amount : Nat))) := by
  have hrun := h.shift (s := s) fun _ _ => rfl
  rwa [hrax, m.exact.add _ _ (by omega) (by omega) (by omega)] at hrun

theorem Placed.leave {amount base : Nat} (h : Placed m pos (.shift "sub" amount :: lines))
    (hrax : s.Regs 0 = m.d.ofInt (base + amount : Nat)) (hfits : base + amount < 2 ^ 30) :
    Passes m pos [.shift "sub" amount] s (setRax s (m.d.ofInt base)) := by
  have hrun := h.shift (s := s) fun _ _ => rfl
  have hsub : ((base + amount : Nat) : Int) - amount = base := by omega
  rwa [hrax, m.exact.sub _ _ (by omega) (by omega) (by omega), hsub] at hrun

end

/-! ## Frames -/

/-- The variables with a value are in the frame that begins at `base`. -/
structure Frame (m : Image) (base : Nat) (names : List String) (vars : Vars) (s : Processor) : Prop where
  rax : s.Regs 0 = m.d.ofInt base
  vars : ∀ name x, vars name = some x → name ∈ names ∧ ∃ j : Fin 3000, (j : Nat) = base + names.idxOf name ∧ s.Ram j = x

section
variable {base slot : Nat} {names names' : List String} {vars : Vars} {name : String} {x y : Elem} {stack values : List Elem}

theorem Frame.mono (h : Frame m base names vars s) (hgrows : names <+: names') : Frame m base names' vars s := by
  refine ⟨h.rax, fun name x hx => ?_⟩
  obtain ⟨hmem, j, hj, hram⟩ := h.vars name x hx
  exact ⟨hgrows.subset hmem, j, by rw [idxOf_of_grown hgrows hmem, hj], hram⟩

theorem Frame.of_eq (h : Frame m base names vars s) (hrax : s'.Regs 0 = s.Regs 0) (hram : s'.Ram = s.Ram) :
    Frame m base names vars s' :=
  ⟨hrax.trans h.rax, hram ▸ h.vars⟩

/-- A variable gets a value. -/
theorem Frame.set (h : Frame m base names vars s) (hname : name ∈ names) {j : Fin 3000} (hj : (j : Nat) = base + names.idxOf name) :
    Frame m base names (Function.update vars name (some x)) { s with Ram := Function.update s.Ram j x } := by
  refine ⟨h.rax, fun other y hy => ?_⟩
  by_cases heq : other = name
  · subst heq
    rw [Function.update_self, Option.some.injEq] at hy
    exact ⟨hname, j, hj, by rw [← hy]; exact Function.update_self ..⟩
  · rw [Function.update_of_ne heq] at hy
    obtain ⟨hmem, k, hk, hram⟩ := h.vars other y hy
    refine ⟨hmem, k, hk, ?_⟩
    have hne : k ≠ j := by
      rintro rfl
      exact heq ((List.idxOf_inj hmem).1 (by omega))
    exact (Function.update_of_ne hne ..).trans hram

/-- What is in front of the frame stays. -/
def Keeps (base : Nat) (s s' : Processor) : Prop := ∀ j : Fin 3000, (j : Nat) < base → s'.Ram j = s.Ram j

theorem Keeps.refl : Keeps base s s := fun _ _ => rfl

theorem Keeps.trans {s₁ : Processor} (h : Keeps base s s₁) (h' : Keeps base s₁ s') : Keeps base s s' :=
  fun j hj => (h' j hj).trans (h j hj)

theorem Keeps.mono {base' : Nat} (h : Keeps base' s s') (hbase : base ≤ base') : Keeps base s s' :=
  fun j hj => h j (by omega)

theorem Keeps.set {j : Fin 3000} (hj : base ≤ j) (hram : s'.Ram = Function.update s.Ram j x) : Keeps base s s' := by
  intro k hk
  rw [hram]
  exact Function.update_of_ne (fun heq => by omega) ..

/-- What a call does not touch of the frame. -/
theorem Frame.keeps {base' : Nat} (h : Frame m base names vars s) (hkeeps : Keeps base' s s') (hbase : base + names.length ≤ base')
    (hrax : s'.Regs 0 = m.d.ofInt base) : Frame m base names vars s' := by
  refine ⟨hrax, fun name x hx => ?_⟩
  obtain ⟨hmem, j, hj, hram⟩ := h.vars name x hx
  have hlt := List.idxOf_lt_length_iff.2 hmem
  exact ⟨hmem, j, hj, (hkeeps j (by omega)).trans hram⟩

/-! ## Expressions -/

/-- Two operands, the second one on top, with what stands behind them. -/
theorem operands_pass {first second : List String → List Line} {tree : TreeNode} {last : Line}
    (hplaced : Placed m pos (inOrder first tree second last names)) (hs : Frame m base names vars s)
    (hfirst : ∀ {pos s}, Placed m pos (first names) → Frame m base names vars s → Passes m pos (first names) s (s.StackPush x))
    (hsecond : ∀ {pos s}, Placed m pos (second (tree.namesAfter names)) → Frame m base (tree.namesAfter names) vars s →
      Passes m pos (second (tree.namesAfter names)) s (s.StackPush y)) :
    Passes m pos (first names ++ second (tree.namesAfter names)) s ((s.StackPush x).StackPush y) ∧
      Placed m (pos + width m (first names ++ second (tree.namesAfter names))) [last] := by
  rw [inOrder, ← List.append_assoc, placed_append, placed_append] at hplaced
  obtain ⟨⟨hplaced₁, hplaced₂⟩, hlast⟩ := hplaced
  have hpushed : Frame m base names vars (s.StackPush x) := hs.of_eq rfl rfl
  have hframe := hpushed.mono (isPrefix_namesAfter tree names)
  exact ⟨(hfirst hplaced₁ hs).append (hsecond hplaced₂ hframe), hlast⟩

theorem Passes.inOrder {first second : List String → List Line} {tree : TreeNode} {last : Line}
    (h : Passes m pos (first names ++ second (tree.namesAfter names)) s ((s.StackPush x).StackPush y))
    (hlast : Passes m (pos + width m (first names ++ second (tree.namesAfter names))) [last] ((s.StackPush x).StackPush y) s') :
    Passes m pos (inOrder first tree second last names) s s' := by
  have hall := h.append hlast
  rwa [List.append_assoc] at hall

/-- The code of an expression pushes its value. -/
theorem Expr.passes (e : Expr) (hplaced : Placed m pos (e.code names)) (hs : Frame m base names vars s)
    (heval : e.eval m.d m.number vars = some x) : Passes m pos (e.code names) s (s.StackPush x) := by
  induction e generalizing names pos s x with
  | number bits =>
      cases heval
      exact hplaced.push_number
  | «variable» name =>
      obtain ⟨hmem, j, hj, hram⟩ := hs.vars name x heval
      rw [Expr.code, addName_of_mem hmem] at hplaced ⊢
      have hpush := hplaced.push hs.rax hj
      rwa [hram] at hpush
  | binary op left right ihleft ihright =>
      obtain ⟨x, hx, hrest⟩ := Option.bind_eq_some_iff.1 heval
      obtain ⟨y, hy, hvalue⟩ := Option.bind_eq_some_iff.1 hrest
      cases hvalue
      cases op with
      | ADD =>
          obtain ⟨hrun, hlast⟩ := operands_pass hplaced hs (fun hp hf => ihleft hp hf hx) fun hp hf => ihright hp hf hy
          have hcmd : instructionInstr "add" = [.plain .ADD] := rfl
          have happly : Passes m _ [.instruction "add"] ((s.StackPush x).StackPush y) (s.StackPush (m.d.add y x)) :=
            hlast.binary hcmd rfl rfl
          exact hrun.inOrder happly
      | SUB =>
          obtain ⟨hrun, hlast⟩ := operands_pass hplaced hs (fun hp hf => ihright hp hf hy) fun hp hf => ihleft hp hf hx
          have hcmd : instructionInstr "sub" = [.plain .SUB] := rfl
          have happly : Passes m _ [.instruction "sub"] ((s.StackPush y).StackPush x) (s.StackPush (m.d.sub x y)) :=
            hlast.binary hcmd rfl rfl
          exact hrun.inOrder happly
      | MUL =>
          obtain ⟨hrun, hlast⟩ := operands_pass hplaced hs (fun hp hf => ihleft hp hf hx) fun hp hf => ihright hp hf hy
          have hcmd : instructionInstr "mul" = [.plain .MUL] := rfl
          have happly : Passes m _ [.instruction "mul"] ((s.StackPush x).StackPush y) (s.StackPush (m.d.mul y x)) :=
            hlast.binary hcmd rfl rfl
          exact hrun.inOrder happly
      | DIV =>
          obtain ⟨hrun, hlast⟩ := operands_pass hplaced hs (fun hp hf => ihright hp hf hy) fun hp hf => ihleft hp hf hx
          have hcmd : instructionInstr "div" = [.plain .DIV] := rfl
          have happly : Passes m _ [.instruction "div"] ((s.StackPush y).StackPush x) (s.StackPush (m.d.div x y)) :=
            hlast.binary hcmd rfl rfl
          exact hrun.inOrder happly
  | unary op operand ih =>
      obtain ⟨x, hx, hvalue⟩ := Option.bind_eq_some_iff.1 heval
      cases hvalue
      rw [Expr.code] at hplaced ⊢
      obtain ⟨hoperand, hlast⟩ := placed_append.1 hplaced
      refine (ih hoperand hs hx).append ?_
      cases op with
      | SIN =>
          have hcmd : instructionInstr "sin" = [.plain .SIN] := rfl
          exact hlast.unary hcmd rfl rfl
      | SQRT =>
          have hcmd : instructionInstr "sqr" = [.plain .SQR] := rfl
          exact hlast.unary hcmd rfl rfl

/-- The operands and a jump that is taken when the condition holds of the two topmost values. -/
theorem inOrder_branch {first second : List String → List Line} {tree : TreeNode} {text label : String} {cmd : Commands}
    {condition : Elem → Elem → Bool} {holds : Bool}
    (h : Passes m pos (first names ++ second (tree.namesAfter names)) s ((s.StackPush x).StackPush y) ∧
      Placed m (pos + width m (first names ++ second (tree.namesAfter names))) [.jump text label])
    (hlabel : m.HasLabel label) (hi : jumpInstr text (m.d.ofInt (m.labelPos label)) = [.jump cmd (m.d.ofInt (m.labelPos label))])
    (hcmd : ∀ pos s, Instr.exec m.d pos s (.jump cmd (m.d.ofInt (m.labelPos label))) =
      Instr.branch m.d pos s (m.d.ofInt (m.labelPos label)) condition) (hholds : holds = !condition y x) :
    m.Runs (pos, s) (if holds then pos + width m (inOrder first tree second (.jump text label) names) else m.labelPos label, s) := by
  have hbranch := h.2.branch (s := (s.StackPush x).StackPush y) hi (hcmd _ _) hlabel rfl
  have hrun := h.1.trans hbranch
  have hpos : pos + width m (first names ++ second (tree.namesAfter names)) + width m [.jump text label] =
      pos + width m (inOrder first tree second (.jump text label) names) := by
    simp only [inOrder, width_append]
    push_cast
    omega
  rw [hpos] at hrun
  rw [hholds]
  cases hc : condition y x with
  | true =>
      rw [hc] at hrun
      exact hrun
  | false =>
      rw [hc] at hrun
      exact hrun

/-- The code of a comparison goes on when it holds, and jumps to the label when it does not. -/
theorem Comparison.runs (c : Comparison) {left right : Expr} {label : String} (hplaced : Placed m pos (c.code left right label names))
    (hs : Frame m base names vars s) (hlabel : m.HasLabel label) (hleft : left.eval m.d m.number vars = some x)
    (hright : right.eval m.d m.number vars = some y) :
    m.Runs (pos, s) (if c.holds m.d x y then pos + width m (c.code left right label names) else m.labelPos label, s) := by
  cases c with
  | IS_EE =>
      have h := operands_pass hplaced hs (fun hp hf => left.passes hp hf hleft) fun hp hf => right.passes hp hf hright
      have hi : jumpInstr "jne" (m.d.ofInt (m.labelPos label)) = [.jump .JNE (m.d.ofInt (m.labelPos label))] := rfl
      exact inOrder_branch h hlabel hi (fun _ _ => rfl) (Bool.not_not _).symm
  | IS_NE =>
      have h := operands_pass hplaced hs (fun hp hf => left.passes hp hf hleft) fun hp hf => right.passes hp hf hright
      have hi : jumpInstr "je" (m.d.ofInt (m.labelPos label)) = [.jump .JE (m.d.ofInt (m.labelPos label))] := rfl
      exact inOrder_branch h hlabel hi (fun _ _ => rfl) rfl
  | IS_BT =>
      have h := operands_pass hplaced hs (fun hp hf => right.passes hp hf hright) fun hp hf => left.passes hp hf hleft
      have hi : jumpInstr "jae" (m.d.ofInt (m.labelPos label)) = [.jump .JAE (m.d.ofInt (m.labelPos label))] := rfl
      exact inOrder_branch h hlabel hi (fun _ _ => rfl) rfl

/-! ## Parameters -/

theorem mapM_cons_eq_some {α β : Type} {f : α → Option β} {a : α} {as : List α} {bs : List β} (h : (a :: as).mapM f = some bs) :
    ∃ b rest, f a = some b ∧ as.mapM f = some rest ∧ bs = b :: rest := by
  rw [List.mapM_cons] at h
  obtain ⟨b, hb, h⟩ := Option.bind_eq_some_iff.1 h
  obtain ⟨rest, hrest, h⟩ := Option.bind_eq_some_iff.1 h
  exact ⟨b, rest, hb, hrest, (Option.some.inj h).symm⟩

/-- The values of variables are pushed, the last one ends on top. -/
theorem push_params {params : List String} (hplaced : Placed m pos (paramsCode pushLine params names)) (hs : Frame m base names vars s)
    (hvalues : params.mapM vars = some values) :
    Passes m pos (paramsCode pushLine params names) s { s with stack := values.reverse ++ s.stack } := by
  induction params generalizing names pos s values with
  | nil =>
      rw [List.mapM_nil] at hvalues
      cases hvalues
      exact .nil
  | cons name params ih =>
      obtain ⟨x, rest, hx, hrest, rfl⟩ := mapM_cons_eq_some hvalues
      obtain ⟨hmem, j, hj, hram⟩ := hs.vars name x hx
      rw [paramsCode, addName_of_mem hmem] at hplaced ⊢
      obtain ⟨hplaced₁, hplaced₂⟩ := placed_append.1 hplaced
      have hpush : Passes m pos (pushLine name (names.idxOf name)) s (s.StackPush x) := by
        have h := hplaced₁.push hs.rax hj
        rwa [hram] at h
      have hpushed : Frame m base names vars (s.StackPush x) := hs.of_eq rfl rfl
      have hall := hpush.append (ih hplaced₂ hpushed hrest)
      simpa [Processor.StackPush] using hall

theorem out_params {params : List String} (hplaced : Placed m pos (paramsCode outLines params names)) (hs : Frame m base names vars s)
    (hvalues : params.mapM vars = some values) :
    Passes m pos (paramsCode outLines params names) s { s with output := s.output ++ values } := by
  induction params generalizing names pos s values with
  | nil =>
      rw [List.mapM_nil] at hvalues
      cases hvalues
      rw [List.append_nil]
      exact .nil
  | cons name params ih =>
      obtain ⟨x, rest, hx, hrest, rfl⟩ := mapM_cons_eq_some hvalues
      obtain ⟨hmem, j, hj, hram⟩ := hs.vars name x hx
      rw [paramsCode, addName_of_mem hmem] at hplaced ⊢
      obtain ⟨hplaced₁, hplaced₂⟩ := placed_append.1 hplaced
      have hsplit : Placed m pos (pushLine name (names.idxOf name) ++ [.instruction "out"]) := hplaced₁
      obtain ⟨hpush, hout⟩ := placed_append.1 hsplit
      have h₁ : Passes m pos (pushLine name (names.idxOf name)) s (s.StackPush x) := by
        have h := hpush.push hs.rax hj
        rwa [hram] at h
      have h₂ : Passes m _ [.instruction "out"] (s.StackPush x) { s with output := s.output ++ [x] } := hout.out rfl
      have hwritten : Frame m base names vars { s with output := s.output ++ [x] } := hs.of_eq rfl rfl
      have hall : Passes m pos (outLines name (names.idxOf name) ++ paramsCode outLines params names) s _ :=
        (h₁.append h₂).append (ih hplaced₂ hwritten hrest)
      rwa [List.append_assoc, List.singleton_append] at hall

/-- The console as the processor has it. -/
structure OnConsole (console : Console) (s : Processor) : Prop where
  input : s.input = console.input
  output : s.output = console.output

/-- A place for a variable. -/
theorem exists_place (hfits : base + names.length ≤ 3000) (hname : name ∈ names) :
    ∃ j : Fin 3000, (j : Nat) = base + names.idxOf name := by
  have hlt := List.idxOf_lt_length_iff.2 hname
  exact ⟨⟨base + names.idxOf name, by omega⟩, rfl⟩

/-- The topmost value gets into a variable. -/
theorem pop_variable (hplaced : Placed m pos (popLine name (names.idxOf name))) (hs : Frame m base names vars s) (hname : name ∈ names)
    (hfits : base + names.length ≤ 3000) (hstack : s.stack = x :: stack) :
    ∃ s', Passes m pos (popLine name (names.idxOf name)) s s' ∧ Frame m base names (Function.update vars name (some x)) s' ∧
      Keeps base s s' ∧ s'.stack = stack ∧ s'.input = s.input ∧ s'.output = s.output ∧ s'.Regs = s.Regs := by
  obtain ⟨j, hj⟩ := exists_place hfits hname
  have hframe := @Frame.set m s base names vars name x hs hname j hj
  exact ⟨_, hplaced.pop hs.rax hj hstack, hframe.of_eq rfl rfl, Keeps.set (by omega) rfl, rfl, rfl, rfl, rfl⟩

theorem in_params {params : List String} {vars' : Vars} {console console' : Console}
    (hplaced : Placed m pos (paramsCode inLines params names)) (hs : Frame m base names vars s) (hconsole : OnConsole console s)
    (hfits : base + ((paramsTree params).namesAfter names).length ≤ 3000)
    (hread : readInput params vars console = some (vars', console')) :
    ∃ s', Passes m pos (paramsCode inLines params names) s s' ∧ Frame m base ((paramsTree params).namesAfter names) vars' s' ∧
      Keeps base s s' ∧ s'.stack = s.stack ∧ OnConsole console' s' := by
  induction params generalizing names pos s vars console with
  | nil =>
      cases hread
      exact ⟨s, .nil, hs, .refl, rfl, hconsole⟩
  | cons name params ih =>
      rw [readInput] at hread
      split at hread
      · next x input hinput =>
          rw [paramsCode] at hplaced ⊢
          obtain ⟨hplaced₁, hplaced₂⟩ := placed_append.1 hplaced
          have hsplit : Placed m pos ([.instruction "in"] ++ popLine name ((addName names name).idxOf name)) := hplaced₁
          obtain ⟨hin, hpop⟩ := placed_append.1 hsplit
          have h₁ := hin.in (hconsole.input.trans hinput)
          have hpushed : Frame m base (addName names name) vars { s with input, stack := x :: s.stack } :=
            (hs.mono isPrefix_addName).of_eq rfl rfl
          have hroom : base + (addName names name).length ≤ 3000 :=
            le_trans (Nat.add_le_add_left (isPrefix_namesAfter (paramsTree params) (addName names name)).length_le base) hfits
          obtain ⟨s₁, h₂, hframe, hkeeps, hstack, hinput₁, houtput, -⟩ := pop_variable hpop hpushed mem_addName hroom rfl
          have hconsole : OnConsole { console with input } s₁ := ⟨hinput₁, houtput.trans hconsole.output⟩
          obtain ⟨s₂, h₃, hframe', hkeeps', hstack', hconsole'⟩ := ih hplaced₂ hframe hconsole hfits hread
          refine ⟨s₂, (h₁.append h₂).append h₃, hframe', ?_, hstack'.trans hstack, hconsole'⟩
          exact (hkeeps.trans hkeeps' : Keeps base { s with input, stack := x :: s.stack } s₂)
      · cases hread

/-- The arguments get into the parameters, the topmost one into the first. -/
theorem pop_params {params : List String} (hplaced : Placed m pos (paramsCode popLine params names)) (hs : Frame m base names vars s)
    (hfits : base + ((paramsTree params).namesAfter names).length ≤ 3000) (hlength : params.length = values.length)
    (hstack : s.stack = values ++ stack) :
    ∃ s', Passes m pos (paramsCode popLine params names) s s' ∧
      Frame m base ((paramsTree params).namesAfter names) (bindParams params values vars) s' ∧
      Keeps base s s' ∧ s'.stack = stack ∧ s'.input = s.input ∧ s'.output = s.output ∧ s'.Regs = s.Regs := by
  induction params generalizing names pos s vars values with
  | nil =>
      obtain rfl := List.eq_nil_of_length_eq_zero hlength.symm
      exact ⟨s, .nil, hs, .refl, hstack, rfl, rfl, rfl⟩
  | cons name params ih =>
      obtain ⟨x, values, rfl⟩ := List.exists_cons_of_length_eq_add_one hlength.symm
      rw [paramsCode] at hplaced ⊢
      obtain ⟨hplaced₁, hplaced₂⟩ := placed_append.1 hplaced
      have hroom : base + (addName names name).length ≤ 3000 :=
        le_trans (Nat.add_le_add_left (isPrefix_namesAfter (paramsTree params) (addName names name)).length_le base) hfits
      obtain ⟨s₁, h₁, hframe, hkeeps, hstack₁, hinput, houtput, hregs⟩ := pop_variable hplaced₁ (hs.mono isPrefix_addName) mem_addName hroom hstack
      obtain ⟨s₂, h₂, hframe', hkeeps', hstack₂, hinput', houtput', hregs'⟩ :=
        ih hplaced₂ hframe hfits (Nat.succ.inj hlength) hstack₁
      exact ⟨s₂, h₁.append h₂, hframe', hkeeps.trans hkeeps', hstack₂, hinput'.trans hinput, houtput'.trans houtput,
        hregs'.trans hregs⟩

/-! ## Calls -/

/-- From its label the code of a function does what the call does: it takes the address and the arguments from the stack, leaves the
results there, and goes on behind the call. -/
def Image.Calls (m : Image) (invoke : Invoke) : Prop :=
  ∀ {func_name : String} {args values stack : List Elem} {base : Nat} {console console' : Console} {s : Processor} {x : Elem},
    invoke func_name args base console = some (values, console') → s.Regs rax = m.d.ofInt base →
      s.stack = x :: (args.reverse ++ stack) → OnConsole console s →
        m.HasLabel func_name ∧ ∃ s', m.Runs (m.labelPos func_name, s) (m.d.toInt x + 1, s') ∧ s'.Regs rax = m.d.ofInt base ∧
          Keeps base s s' ∧ s'.stack = values.reverse ++ stack ∧ OnConsole console' s'

variable {invoke : Invoke} {console console' : Console} {results : List Elem} {func_name : String} {args : List String}

theorem call_passes (hcalls : m.Calls invoke) (hplaced : Placed m pos (callCode func_name args names))
    (hs : Frame m base names vars s) (hconsole : OnConsole console s) (hfits : base + names.length ≤ 3000)
    (hvalues : args.mapM vars = some values)
    (hinvoke : invoke func_name values (base + names.length + 1) console = some (results, console')) :
    ∃ s', Passes m pos (callCode func_name args names) s s' ∧ Frame m base names vars s' ∧ Keeps base s s' ∧
      s'.stack = results.reverse ++ s.stack ∧ OnConsole console' s' := by
  obtain ⟨hparams, hrest⟩ := placed_append.1 hplaced
  obtain ⟨henter, hrest⟩ := placed_cons.1 hrest
  obtain ⟨hcall, hleave⟩ := placed_cons.1 hrest
  have h₁ := push_params hparams hs hvalues
  have h₂ := henter.enter (s := { s with stack := values.reverse ++ s.stack }) hs.rax (by omega)
  generalize hs₂ : setRax { s with stack := values.reverse ++ s.stack } (m.d.ofInt (base + (names.length + 1) : Nat)) = s₂ at *
  generalize hpos₂ : pos + width m (paramsCode pushLine args names) + width m [.shift "add" (names.length + 1)] = pos₂ at *
  have hram₂ : s₂.Ram = s.Ram := by
    rw [← hs₂]
    rfl
  have hrax₂ : (s₂.StackPush (m.d.ofInt (pos₂ + 9))).Regs 0 = m.d.ofInt (base + names.length + 1 : Nat) := by
    rw [Processor.StackPush, ← hs₂, Nat.add_assoc]
    simp only [setRax_rax]
  have hstack₂ : s₂.stack = values.reverse ++ s.stack := by
    rw [← hs₂]
    rfl
  have hconsole₂ : OnConsole console s₂ := by
    rw [← hs₂]
    exact ⟨hconsole.input, hconsole.output⟩
  have haddress : (s₂.StackPush (m.d.ofInt (pos₂ + 9))).stack = m.d.ofInt (pos₂ + 9) :: (values.reverse ++ s.stack) := by
    rw [← hstack₂]
    rfl
  obtain ⟨hlabel, s₃, hrun, hrax, hkeeps, hstack, hconsole⟩ := hcalls hinvoke hrax₂ haddress ⟨hconsole₂.input, hconsole₂.output⟩
  have hbounds := hcall.bounds
  have hback : m.d.toInt (m.d.ofInt (pos₂ + 9)) + 1 = pos₂ + width m [.call func_name] := by
    have hwidth : width m [.call func_name] = 10 := rfl
    rw [m.exact.toInt_ofInt _ (by omega) (by omega), hwidth]
    omega
  have h₃ : Passes m pos₂ [.call func_name] s₂ s₃ := by
    rw [hback] at hrun
    exact (hcall.call hlabel).trans hrun
  have hkept : Keeps (base + names.length + 1) s s₃ := fun j hj => (hkeeps j hj).trans (congrFun hram₂ j)
  have h₄ := hleave.leave (s := s₃) hrax (by omega)
  rw [← hpos₂] at h₃ h₄
  refine ⟨setRax s₃ (m.d.ofInt base), h₁.append (h₂.cons (h₃.cons h₄)), ?_, ?_, hstack, ⟨hconsole.input, hconsole.output⟩⟩
  · have hback : Keeps (base + names.length + 1) s (setRax s₃ (m.d.ofInt base)) := hkept
    exact hs.keeps hback (by omega) setRax_rax
  · exact hkept.mono (by omega)

/-! ## Statements -/

/-- Where a statement leads to with the address `x` of the caller on the stack: behind its code, or back to the caller. -/
def Arrives (m : Image) (base : Nat) (names : List String) (start : Processor) (x : Elem) (stack : List Elem) (finish : Int)
    (console : Console) (c : Int × Processor) : Flow → Prop
  | .next vars =>
      c.1 = finish ∧ Frame m base names vars c.2 ∧ Keeps base start c.2 ∧ c.2.stack = x :: stack ∧ OnConsole console c.2
  | .returned values =>
      c.1 = m.d.toInt x + 1 ∧ c.2.Regs rax = m.d.ofInt base ∧ Keeps base start c.2 ∧ c.2.stack = values.reverse ++ stack ∧
        OnConsole console c.2

variable {flow : Flow} {finish finish' : Int} {c : Int × Processor}

/-- A part of a statement, with what is before and behind it; names may be added behind it. -/
theorem Arrives.part {names' : List String} {s₁ : Processor} (h : Arrives m base names s₁ x stack finish console c flow)
    (hkeeps : Keeps base s s₁) (hgrows : names <+: names') (hfinish : finish = finish') :
    Arrives m base names' s x stack finish' console c flow := by
  cases flow with
  | next vars => exact ⟨h.1.trans hfinish, h.2.1.mono hgrows, hkeeps.trans h.2.2.1, h.2.2.2⟩
  | returned values => exact ⟨h.1, h.2.1, hkeeps.trans h.2.2.1, h.2.2.2⟩

theorem Stmt.runs (hcalls : m.Calls invoke) (stmt : Stmt) {n : Nat} (hplaced : Placed m pos (stmt.code names n))
    (hs : Frame m base names vars s) (hconsole : OnConsole console s) (hstack : s.stack = x :: stack)
    (hfits : base + (stmt.tree.namesAfter names).length ≤ 3000)
    (hexec : stmt.exec m.d m.number invoke base names vars console = some (flow, console')) :
    ∃ c, m.Runs (pos, s) c ∧
      Arrives m base (stmt.tree.namesAfter names) s x stack (pos + width m (stmt.code names n)) console' c flow := by
  induction stmt generalizing names n pos s vars console flow console' with
  | skip =>
      cases hexec
      exact ⟨(pos, s), .refl, by simp [Stmt.code], hs, .refl, hstack, hconsole⟩
  | seq first rest ihfirst ihrest =>
      obtain ⟨⟨flow₁, console₁⟩, hfirst, hrest⟩ := Option.bind_eq_some_iff.1 hexec
      obtain ⟨hplaced₁, hplaced₂⟩ := placed_append.1 hplaced
      have hgrows := isPrefix_namesAfter rest.tree (first.tree.namesAfter names)
      have hroom : base + (first.tree.namesAfter names).length ≤ 3000 := le_trans (Nat.add_le_add_left hgrows.length_le base) hfits
      obtain ⟨⟨pos₁, s₁⟩, hrun, harrives⟩ := ihfirst hplaced₁ hs hconsole hstack hroom hfirst
      cases flow₁ with
      | next vars₁ =>
          obtain ⟨rfl, hframe, hkeeps, hstack₁, hconsole⟩ := harrives
          obtain ⟨c, hrun', harrives'⟩ := ihrest hplaced₂ hframe hconsole hstack₁ hfits hrest
          refine ⟨c, hrun.trans hrun', harrives'.part hkeeps (List.prefix_refl _) ?_⟩
          rw [Stmt.code, width_append]
          push_cast
          omega
      | returned values =>
          cases hrest
          exact ⟨_, hrun, harrives⟩
  | set name value =>
      obtain ⟨v, hv, hrest⟩ := Option.bind_eq_some_iff.1 hexec
      cases hrest
      obtain ⟨hplaced₁, hplaced₂⟩ := placed_append.1 hplaced
      have hgrows := isPrefix_namesAfter value.tree (addName names name)
      have hroom : base + (addName names name).length ≤ 3000 := le_trans (Nat.add_le_add_left hgrows.length_le base) hfits
      have h₁ := value.passes hplaced₁ (hs.mono isPrefix_addName) hv
      have hpushed : Frame m base (addName names name) vars (s.StackPush v) := (hs.mono isPrefix_addName).of_eq rfl rfl
      obtain ⟨s₁, h₂, hframe, hkeeps, hstack₁, hinput, houtput, -⟩ := pop_variable hplaced₂ hpushed mem_addName hroom rfl
      refine ⟨_, h₁.append h₂, rfl, hframe.mono hgrows, hkeeps, hstack₁.trans hstack, ?_⟩
      exact ⟨hinput.trans hconsole.input, houtput.trans hconsole.output⟩
  | setCall name func_name args =>
      obtain ⟨values, hvalues, hrest⟩ := Option.bind_eq_some_iff.1 hexec
      obtain ⟨⟨results, console₁⟩, hinvoke, hrest⟩ := Option.bind_eq_some_iff.1 hrest
      obtain ⟨hplaced₁, hplaced₂⟩ := placed_append.1 hplaced
      have hgrows := isPrefix_namesAfter (callTree func_name args) (addName names name)
      have hroom : base + (addName names name).length ≤ 3000 := le_trans (Nat.add_le_add_left hgrows.length_le base) hfits
      obtain ⟨s₁, h₁, hframe₁, hkeeps₁, hstack₁, hconsole₁⟩ :=
        call_passes hcalls hplaced₁ (hs.mono isPrefix_addName) hconsole hroom hvalues hinvoke
      split at hrest
      · next v console₂ heq =>
          cases heq
          cases hrest
          obtain ⟨s₂, h₂, hframe₂, hkeeps₂, hstack₂, hinput, houtput, -⟩ := pop_variable hplaced₂ hframe₁ mem_addName hroom hstack₁
          refine ⟨_, h₁.append h₂, rfl, hframe₂.mono hgrows, hkeeps₁.trans hkeeps₂, hstack₂.trans hstack, ?_⟩
          exact ⟨hinput.trans hconsole₁.input, houtput.trans hconsole₁.output⟩
      · cases hrest
  | call func_name args =>
      obtain ⟨values, hvalues, hrest⟩ := Option.bind_eq_some_iff.1 hexec
      obtain ⟨⟨results, console₁⟩, hinvoke, hrest⟩ := Option.bind_eq_some_iff.1 hrest
      have hgrows := isPrefix_namesAfter (callTree func_name args) names
      have hroom : base + names.length ≤ 3000 := le_trans (Nat.add_le_add_left hgrows.length_le base) hfits
      obtain ⟨s₁, h₁, hframe₁, hkeeps₁, hstack₁, hconsole₁⟩ := call_passes hcalls hplaced hs hconsole hroom hvalues hinvoke
      split at hrest
      · next console₂ heq =>
          cases heq
          cases hrest
          exact ⟨_, h₁, rfl, hframe₁.mono hgrows, hkeeps₁, hstack₁.trans hstack, hconsole₁⟩
      · cases hrest
  | input params =>
      obtain ⟨⟨vars₁, console₁⟩, hread, hrest⟩ := Option.bind_eq_some_iff.1 hexec
      cases hrest
      obtain ⟨s₁, h₁, hframe, hkeeps, hstack₁, hconsole⟩ := in_params hplaced hs hconsole hfits hread
      exact ⟨_, h₁, rfl, hframe, hkeeps, hstack₁.trans hstack, hconsole⟩
  | output params =>
      obtain ⟨values, hvalues, hrest⟩ := Option.bind_eq_some_iff.1 hexec
      cases hrest
      have hframe : Frame m base names vars { s with output := s.output ++ values } := hs.of_eq rfl rfl
      refine ⟨_, out_params hplaced hs hvalues, rfl, hframe.mono (isPrefix_namesAfter _ _), fun _ _ => rfl, hstack, hconsole.input, ?_⟩
      exact congrArg (· ++ values) hconsole.output
  | cond comparison left right if_body else_body ihif ihelse =>
      obtain ⟨v, hv, hrest⟩ := Option.bind_eq_some_iff.1 hexec
      obtain ⟨w, hw, hrest⟩ := Option.bind_eq_some_iff.1 hrest
      have hgrows := isPrefix_namesAfter (OP_NODE comparison.option left.tree right.tree) names
      have hname₁ := isPrefix_namesAfter if_body.tree ((OP_NODE comparison.option left.tree right.tree).namesAfter names)
      have hname₂ := isPrefix_namesAfter else_body.tree
        (if_body.tree.namesAfter ((OP_NODE comparison.option left.tree right.tree).namesAfter names))
      have hfits₂ : base + (else_body.tree.namesAfter
          (if_body.tree.namesAfter ((OP_NODE comparison.option left.tree right.tree).namesAfter names))).length ≤ 3000 := hfits
      have hfits₁ := le_trans (Nat.add_le_add_left hname₂.length_le base) hfits₂
      obtain ⟨hcomparison, hrest₁⟩ := placed_append.1 hplaced
      obtain ⟨hifplaced, hrest₂⟩ := placed_append.1 hrest₁
      obtain ⟨hjmp, hrest₃⟩ := placed_cons.1 hrest₂
      obtain ⟨hiflabel, hrest₄⟩ := placed_cons.1 hrest₃
      obtain ⟨helseplaced, helselabel⟩ := placed_append.1 hrest₄
      have hcompare := comparison.runs hcomparison hs hiflabel.label.1 hv hw
      have hframe := hs.mono hgrows
      have hzero : ∀ name, width m [.label name] = 0 := fun _ => rfl
      have helse := hiflabel.label.2
      have hfinish := helselabel.label.2
      have hwidth : width m ((cond comparison left right if_body else_body).code names n) =
          width m (comparison.code left right (ifLabel n) names) +
            (width m (if_body.code ((OP_NODE comparison.option left.tree right.tree).namesAfter names) (n + 1)) +
              (width m [.jump "jmp" (elseLabel n)] + (width m [.label (ifLabel n)] +
                (width m (else_body.code (if_body.tree.namesAfter ((OP_NODE comparison.option left.tree right.tree).namesAfter names))
                  (n + 1 + if_body.tree.conditionals)) + width m [.label (elseLabel n)])))) := by
        simp only [Stmt.code, width_append, width_cons, width_nil, Nat.add_zero]
      rw [hzero] at hfinish helseplaced hwidth
      rw [hzero] at hwidth
      by_cases hholds : comparison.holds m.d v w = true
      · rw [if_pos hholds] at hcompare hrest
        obtain ⟨⟨pos₁, s₁⟩, hrun, harrives⟩ := ihif hifplaced hframe hconsole hstack hfits₁ hrest
        cases flow with
        | next vars₁ =>
            obtain ⟨rfl, hframe₁, hkeeps, hstack₁, hconsole⟩ := harrives
            have hjump := hjmp.jmp (s := s₁) helselabel.label.1
            refine ⟨_, (hcompare.trans hrun).trans hjump, ?_, hframe₁.mono hname₂, hkeeps, hstack₁, hconsole⟩
            rw [hwidth]
            push_cast at hfinish ⊢
            omega
        | returned values => exact ⟨_, hcompare.trans hrun, harrives⟩
      · rw [if_neg hholds] at hcompare hrest
        rw [← Int.add_zero (m.labelPos (ifLabel n)), helse] at hcompare
        obtain ⟨c, hrun, harrives⟩ := ihelse helseplaced (hframe.mono hname₁) hconsole hstack hfits₂ hrest
        refine ⟨c, hcompare.trans hrun, harrives.part .refl (List.prefix_refl _) ?_⟩
        rw [hwidth]
        push_cast at hfinish ⊢
        omega
  | ret params =>
      obtain ⟨values, hvalues, hrest⟩ := Option.bind_eq_some_iff.1 hexec
      cases hrest
      obtain ⟨hpop, hrest⟩ := placed_cons.1 hplaced
      obtain ⟨hparams, hrest⟩ := placed_append.1 hrest
      obtain ⟨hpush, hret⟩ := placed_cons.1 hrest
      have h₁ := hpop.pop_rcx hstack
      have hframe : Frame m base names vars { s with stack, Regs := Function.update s.Regs 2 x } := hs.of_eq (by simp) rfl
      have h₂ := push_params hparams hframe hvalues
      have h₃ := hpush.push_rcx (s := { s with stack := values.reverse ++ stack, Regs := Function.update s.Regs 2 x })
      simp only [Processor.StackPush, Function.update_self] at h₃
      have h₄ := hret.ret (s := { s with stack := x :: (values.reverse ++ stack), Regs := Function.update s.Regs 2 x }) rfl
      refine ⟨_, h₁.trans (h₂.trans (h₃.trans h₄)), rfl, ?_, fun _ _ => rfl, rfl, hconsole.input, hconsole.output⟩
      exact hframe.rax

end

end CompilerLab.Language
