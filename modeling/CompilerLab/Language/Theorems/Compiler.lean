import CompilerLab.Asm.Lemmas.Integers
import CompilerLab.Language.Lemmas.Simulation

/-!
# Compiled programs run as they should

The processor does with the code of a program what the program means. The first parameter of a function gets the last argument.
-/

namespace CompilerLab.Language

open Options TreeNode Asm

variable {m : Image} {pos : Int} {s : Processor} {base n : Nat} {invoke : Invoke} {console console' : Console} {x : Elem}
  {args values stack : List Elem}

/-! ## Functions -/

theorem Func.runs (hcalls : m.Calls invoke) (f : Func) (hplaced : Placed m pos (f.code n)) (hlength : f.params.length = args.length)
    (hfits : base + f.names.length ≤ 3000) (hrax : s.Regs 0 = m.d.ofInt base) (hstack : s.stack = x :: (args.reverse ++ stack))
    (hconsole : OnConsole console s)
    (hexec : f.body.exec m.d m.number invoke base f.paramNames (bindParams f.params args.reverse fun _ => none) console =
      some (.returned values, console')) :
    ∃ s', m.Runs (pos, s) (m.d.toInt x + 1, s') ∧ s'.Regs 0 = m.d.ofInt base ∧ Keeps base s s' ∧ s'.stack = values.reverse ++ stack ∧
      OnConsole console' s' := by
  have hzero : width m [.label f.name] = 0 := rfl
  obtain ⟨-, hrest⟩ := placed_cons.1 hplaced
  rw [hzero, Int.natCast_zero, Int.add_zero] at hrest
  obtain ⟨hpop, hrest⟩ := placed_cons.1 hrest
  obtain ⟨hparams, hrest⟩ := placed_append.1 hrest
  obtain ⟨hpush, hbody⟩ := placed_cons.1 hrest
  have h₁ := hpop.pop_rcx hstack
  have hroom : base + f.paramNames.length ≤ 3000 :=
    le_trans (Nat.add_le_add_left (isPrefix_namesAfter f.body.tree f.paramNames).length_le base) hfits
  have hframe : Frame m base [] (fun _ => none) { s with stack := args.reverse ++ stack, Regs := Function.update s.Regs 2 x } :=
    ⟨hrax, fun name y hy => by cases hy⟩
  obtain ⟨s₂, h₂, hframe₂, hkeeps₂, hstack₂, hinput, houtput, hregs⟩ :=
    pop_params hparams hframe hroom (by rw [hlength, List.length_reverse]) rfl
  have hrcx : s₂.Regs 2 = x := by
    rw [hregs]
    exact Function.update_self (2 : Fin 10) x s.Regs
  have h₃ := hpush.push_rcx (s := s₂)
  rw [hrcx] at h₃
  have hframe₃ : Frame m base f.paramNames (bindParams f.params args.reverse fun _ => none) (s₂.StackPush x) := hframe₂.of_eq rfl rfl
  have hconsole₃ : OnConsole console (s₂.StackPush x) := ⟨hinput.trans hconsole.input, houtput.trans hconsole.output⟩
  have hstack₃ : (s₂.StackPush x).stack = x :: stack := congrArg (x :: ·) hstack₂
  obtain ⟨⟨pos', s'⟩, h₄, rfl, hrax', hkeeps', hstack', hconsole'⟩ := f.body.runs hcalls hbody hframe₃ hconsole₃ hstack₃ hfits hexec
  exact ⟨s', h₁.trans (h₂.trans (h₃.trans h₄)), hrax', hkeeps₂.trans hkeeps', hstack', hconsole'⟩

theorem Func.hasLabel (f : Func) (hplaced : Placed m pos (f.code n)) : m.HasLabel f.name ∧ m.labelPos f.name = pos :=
  (placed_cons.1 hplaced).1.label

theorem Program.placed_of_mem {p : Program} {f : Func} (hf : f ∈ p) (hplaced : Placed m pos (p.code n)) :
    ∃ pos' n', Placed m pos' (f.code n') := by
  induction p generalizing pos n with
  | nil => cases hf
  | cons g p ih =>
      obtain ⟨hfirst, hrest⟩ := placed_append.1 hplaced
      obtain rfl | hf := List.mem_cons.1 hf
      · exact ⟨_, _, hfirst⟩
      · exact ih hf hrest

/-- Whatever the depth of the calls, the functions of a program run as they should. -/
theorem Program.calls {p : Program} (hplaced : Placed m pos (p.code n)) (fuel : Nat) : m.Calls (p.invoke m.d m.number fuel) := by
  induction fuel with
  | zero =>
      intro func_name args values stack base console console' s x hinvoke
      cases hinvoke
  | succ fuel ih =>
      intro func_name args values stack base console console' s x hinvoke hrax hstack hconsole
      obtain ⟨f, hfind, hrest⟩ := Option.bind_eq_some_iff.1 hinvoke
      obtain rfl : f.name = func_name := by simpa using List.find?_some hfind
      obtain ⟨pos', n', hf⟩ := placed_of_mem (List.mem_of_find?_eq_some hfind) hplaced
      obtain ⟨hlabel, rfl⟩ := f.hasLabel hf
      split_ifs at hrest with hcall
      obtain ⟨⟨flow, console₁⟩, hexec, hrest⟩ := Option.bind_eq_some_iff.1 hrest
      cases flow with
      | next vars => cases hrest
      | returned values₁ =>
          cases hrest
          exact ⟨hlabel, f.runs ih hf hcall.1 hcall.2 hrax hstack hconsole hexec⟩

/-! ## Programs -/

/-- The processor before the first command. -/
structure Begins (s : Processor) (input : List Elem) : Prop where
  rax : s.Regs 0 = 0
  stack : s.stack = []
  input : s.input = input
  output : s.output = []

/-- The processor stops behind the call of `main`, and has done what the program does. -/
theorem Program.lines_run {p : Program} {fuel : Nat} {input : List Elem} (hplaced : Placed m 8 p.lines)
    (hrun : p.run m.d m.number fuel input = some console) (hs : Begins s input) :
    ∃ k ip s', Execute m.d m.cmds m.cmds_amount k 8 s = some (true, ip, s') ∧ OnConsole console s' := by
  obtain ⟨hcall, hrest⟩ := placed_cons.1 hplaced
  obtain ⟨hhlt, hrest⟩ := placed_cons.1 hrest
  obtain ⟨hcode, -⟩ := placed_append.1 hrest
  obtain ⟨⟨values, console₁⟩, hinvoke, hconsole⟩ := Option.bind_eq_some_iff.1 hrun
  cases hconsole
  have hwidth : width m [.call "main"] = 10 := rfl
  rw [hwidth] at hhlt
  have hrax : (s.StackPush (m.d.ofInt (8 + 9))).Regs 0 = m.d.ofInt (0 : Nat) := hs.rax.trans m.exact.zero.symm
  have hstack : (s.StackPush (m.d.ofInt (8 + 9))).stack = m.d.ofInt (8 + 9) :: (([] : List Elem).reverse ++ []) :=
    congrArg (m.d.ofInt (8 + 9) :: ·) hs.stack
  obtain ⟨hlabel, s', hmain, -, -, -, hconsole⟩ :=
    Program.calls hcode fuel hinvoke hrax hstack ⟨hs.input, hs.output⟩
  have hback : m.d.toInt (m.d.ofInt (8 + 9)) + 1 = 18 := by
    rw [m.exact.toInt_ofInt _ (by omega) (by omega)]
    rfl
  rw [hback] at hmain
  have hhalt : decode (fun k => m.cmds (18 + k)) = some (.plain .HLT) := hhlt.2.2.1.1
  have hend : (18 : Int) < m.cmds_amount := by
    have hbytes : bytes ((Line.instruction "hlt").instrs m) = 1 := rfl
    have hle := hhlt.2.1
    rw [hbytes] at hle
    push_cast at hle
    omega
  obtain ⟨k, hk⟩ := Asm.Runs.halts ((hcall.call hlabel).trans hmain) hend hhalt
  exact ⟨k, 18, s', hk, hconsole⟩

/-- What the generator prints for the assembler when it completes. -/
def generated (env : Environment) (root : TreeNode) : Option (List Line) :=
  match printCmdsInFile Namespaces.names env root startState with
  | .ok _ s => some (emitted s)
  | .error _ _ => none

theorem generated_eq_lines {env : Environment} {p : Program} {lines : List Line} (h : generated env p.tree = some lines) :
    lines = p.lines := by
  have hprints := @printCmdsInFile_prints env p startState ⟨startState_represents, rfl, trivial⟩
  unfold generated at h
  cases hend : printCmdsInFile Namespaces.names env p.tree startState with
  | ok a s =>
      rw [hend] at h
      cases h
      exact (hprints.of_ok hend).1
  | error fault s =>
      rw [hend] at h
      cases h

/-- `main` writes 7. -/
def writeSeven : Program :=
  [{ name := "main", params := [], body := .seq (.set "x" (.number (Doubles.encode 7))) (.seq (.output ["x"]) (.ret [])) }]

/-- Ten bytes of a command with its operands. -/
def long (cmd : Byte) (x : Elem) (reg : Byte) : List Byte := cmd :: elemBytes x ++ [reg]

/-- The code of `writeSeven`. -/
def writeSevenCode : List Byte :=
  long 0x11 (Doubles.encode 19) 0 ++ 0 :: long 0x46 0 2 ++ long 0x41 0 2 ++ long 0x21 (Doubles.encode 7) 0 ++ long 0xe6 0 0 ++
    long 0xe1 0 0 ++ 7 :: long 0x46 0 2 ++ long 0x41 0 2 ++ [18, 28]

def writeSevenImage : Image where
  d := .integers
  exact := Doubles.integers_exact
  number bits := bits
  labelPos _ := 19
  cmds k := writeSevenCode.getD (k - 8).toNat 0
  cmds_amount := 92
  bounded := by decide

def emptyProcessor : Processor where
  Regs := fun _ => 0
  Ram := fun _ => 0
  stack := []
  input := []
  output := []

end CompilerLab.Language
