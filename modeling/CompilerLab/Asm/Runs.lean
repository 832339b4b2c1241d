import CompilerLab.Asm.Lemmas.Decode
import CompilerLab.Asm.Integers
import Mathlib.Logic.Relation

/-!
# Runs of commands in memory

Rounds of the loop of `Execute` between positions, and what one round does at a command that stands in memory.
-/

namespace CompilerLab.Asm

/-- The integers below `2 ^ 31` that are not negative are doubles of their own, and are added and subtracted as integers. -/
structure Doubles.Exact (d : Doubles) : Prop where
  zero : d.ofInt 0 = 0
  toInt_ofInt (n : Int) (h : 0 ≤ n) (hn : n < 2 ^ 31) : d.toInt (d.ofInt n) = n
  add (m n : Int) (hm : 0 ≤ m) (hn : 0 ≤ n) (h : m + n < 2 ^ 31) : d.add (d.ofInt m) (d.ofInt n) = d.ofInt (m + n)
  sub (m n : Int) (hn : 0 ≤ n) (hmn : n ≤ m) (h : m < 2 ^ 31) : d.sub (d.ofInt m) (d.ofInt n) = d.ofInt (m - n)

/-- The commands stand in memory one behind the other. -/
def Loaded (cmds : Int → Byte) : Int → List Instr → Prop
  | _, [] => True
  | pos, i :: rest => decode (fun k => cmds (pos + k)) = some i ∧ Loaded cmds (pos + i.size) rest

instance decidableLoaded (cmds : Int → Byte) : ∀ (pos : Int) (instrs : List Instr), Decidable (Loaded cmds pos instrs)
  | _, [] => .isTrue trivial
  | pos, i :: rest =>
      have := decidableLoaded cmds (pos + i.size) rest
      inferInstanceAs (Decidable (decode (fun k => cmds (pos + k)) = some i ∧ Loaded cmds (pos + i.size) rest))

/-- The bytes that commands take. -/
def bytes (instrs : List Instr) : Nat := (instrs.map Instr.size).sum

@[simp] theorem bytes_nil : bytes [] = 0 := rfl

@[simp] theorem bytes_cons (i : Instr) (rest : List Instr) : bytes (i :: rest) = i.size + bytes rest := rfl

@[simp] theorem bytes_append (instrs rest : List Instr) : bytes (instrs ++ rest) = bytes instrs + bytes rest := by simp [bytes]

section
variable (d : Doubles) (cmds : Int → Byte) (cmds_amount : Int)

/-- One round that does not stop the processor. -/
def Round (c c' : Int × Processor) : Prop := c.1 < cmds_amount ∧ executeRound d cmds c.1 c.2 = some (false, c'.1, c'.2)

/-- Rounds that do not stop the processor. -/
abbrev Runs : Int × Processor → Int × Processor → Prop := Relation.ReflTransGen (Round d cmds cmds_amount)

end

variable {d : Doubles} {cmds : Int → Byte} {cmds_amount pos ip' : Int} {s s' : Processor} {i : Instr} {c c' : Int × Processor}

theorem loaded_append {instrs rest : List Instr} :
    Loaded cmds pos (instrs ++ rest) ↔ Loaded cmds pos instrs ∧ Loaded cmds (pos + bytes instrs) rest := by
  induction instrs generalizing pos with
  | nil => simp [Loaded]
  | cons i instrs ih =>
      rw [List.cons_append, Loaded, Loaded, ih, bytes_cons, and_assoc]
      push_cast
      rw [Int.add_assoc]

/-- A round at a command. -/
theorem Round.of_exec (hpos : pos < cmds_amount) (hi : decode (fun k => cmds (pos + k)) = some i)
    (h : i.exec d pos s = some (false, ip', s')) : Round d cmds cmds_amount (pos, s) (ip' + 1, s') := by
  refine ⟨hpos, ?_⟩
  rw [executeRound, ProcessCommand_eq hi, h]
  rfl

/-- The loop of `Execute` goes through every run. -/
theorem Runs.execute (h : Runs d cmds cmds_amount c c') :
    ∃ k, ∀ n, Execute d cmds cmds_amount (k + n) c.1 c.2 = Execute d cmds cmds_amount n c'.1 c'.2 := by
  induction h using Relation.ReflTransGen.head_induction_on with
  | refl => exact ⟨0, fun n => by rw [Nat.zero_add]⟩
  | head hround _ ih =>
      obtain ⟨k, hk⟩ := ih
      refine ⟨k + 1, fun n => ?_⟩
      rw [← hk n, Nat.add_right_comm, Execute, if_pos hround.1, hround.2]
      rfl

/-- A run to a halting command stops the processor there. -/
theorem Runs.halts {ip : Int} (h : Runs d cmds cmds_amount c (ip, s)) (hip : ip < cmds_amount)
    (hi : decode (fun k => cmds (ip + k)) = some (.plain .HLT)) :
    ∃ n, Execute d cmds cmds_amount n c.1 c.2 = some (true, ip, s) := by
  obtain ⟨k, hk⟩ := h.execute
  refine ⟨k + 1, (hk 1).trans ?_⟩
  rw [Execute, if_pos hip, executeRound, ProcessCommand_eq hi]
  rfl

end CompilerLab.Asm
