import CompilerLab.Asm.Integers
import CompilerLab.Asm.Lemmas.Args

/-!
# The assembler and the processor

The bytes that are written for a line are decoded as the command of the line exactly when the name of the command does not begin with
another one, a register is not alone in brackets, no exponent has a plus, and the texts fit into their arrays.
-/

namespace CompilerLab.Asm

open Lib.Scanf

/-- The lines of commands. -/
inductive Source where
  | plain (cmd : Commands)
  | arg (cmd : Commands) (t : ArgText) (brackets : Bool)
  | jump (cmd : Commands) (label : Str)

namespace Source

def text : Source → Str
  | plain cmd => cmd.name
  | arg cmd t brackets => cmd.name ++ ' ' :: if brackets then '[' :: (t.text ++ [']']) else t.text
  | jump cmd label => cmd.name ++ ' ' :: label

/-- The line has the form of its command, and its label has been declared. -/
def WellFormed (a : Assembler) : Source → Prop
  | plain cmd => ¬ cmd.IsPushPop ∧ ¬ cmd.IsJump
  | arg cmd t _ => cmd.IsPushPop ∧ t.WellFormed
  | jump cmd label => cmd.IsJump ∧ label ≠ [] ∧ (∀ c ∈ label, isspace c = false) ∧ ∃ l, FindLabel a label = some l

/-- The command of a line. -/
def instr (d : Doubles) (a : Assembler) : Source → Instr
  | plain cmd => .plain cmd
  | arg cmd t brackets => .arg cmd (t.number?.map d.strtod) (t.reg?.map fun i => (i : Int)) brackets
  | jump cmd label => .jump cmd (d.ofInt (foundPos a label))

/-- The bytes of the line are decoded and performed as its command. -/
def Agrees (d : Doubles) (a : Assembler) (l : Source) : Prop :=
  ∃ a' n, LineToCommands d a l.text = some (a', n) ∧
    decode (fun k => a'.commands (a.cur_len + k)) = some (l.instr d a) ∧ n = (l.instr d a).size ∧
    ∀ ip s, ProcessCommand d (fun k => a'.commands (a.cur_len + k)) ip s = (l.instr d a).exec d ip s ∧
      ∀ ip' s', ProcessCommand d (fun k => a'.commands (a.cur_len + k)) ip s = some (false, ip', s') →
        ip' + 1 = ip + n ∨ (∃ cmd target, l.instr d a = .jump cmd target ∧ ip' = Instr.before d target) ∨
        l.instr d a = .plain .RET

/-- What the assembler reads rightly. -/
def Readable : Source → Prop
  | plain _ => True
  | arg _ t true => t.NoExponentPlus ∧ t.text.length < 9 ∧ ∀ i, t = .reg i → i = 0
  | arg _ t false => t.NoExponentPlus ∧ t.text.length < MAX_CMD_LEN
  | jump cmd label => cmd ≠ .JBE ∧ cmd ≠ .JAE ∧ label.length < MAX_CMD_LEN

end Source

variable {d : Doubles} {a a' : Assembler} {l : Source} {cmd : Commands} {n : Int}

theorem Source.Agrees.of_decode (h : LineToCommands d a l.text = some (a', n))
    (hd : decode (fun k => a'.commands (a.cur_len + k)) = some (l.instr d a)) (hn : n = (l.instr d a).size) :
    l.Agrees d a := by
  refine ⟨a', n, h, hd, hn, fun ip s => ⟨ProcessCommand_eq hd, fun ip' s' hnext => ?_⟩⟩
  rw [hn]
  exact ProcessCommand_next hd hnext

/-! ## Commands without an operand -/

theorem GetCmdNum_name (cmd : Commands) : GetCmdNum cmd.name = cmd.byte := by cases cmd <;> rfl

theorem decode_plain {code : Int → Byte} (hp : ¬ cmd.IsPushPop) (hj : ¬ cmd.IsJump) (h : code 0 = cmd.byte) :
    decode code = some (.plain cmd) := by
  have hmask : ∀ cmd : Commands, cmd.byte &&& CMD_BITMASK = cmd.byte := fun cmd => by cases cmd <;> decide
  rw [decode, h, hmask, Commands.ofByte_byte, Option.map_some, if_neg hp, if_neg hj]

theorem Source.agrees_plain (hr : Room 10 a) (hp : ¬ cmd.IsPushPop) (hj : ¬ cmd.IsJump) :
    (Source.plain cmd).Agrees d a := by
  have hname : cmd.name = cmd.name ++ [] := (List.append_nil _).symm
  obtain ⟨b, hb, -⟩ : ∃ b, a.write a.cur_len [cmd.byte] = some b ∧ Stored 10 a b :=
    hr.write (Stored.refl 10 a) (le_refl _) (by rw [List.length_singleton]; omega)
  have hline : LineToCommands d a (Source.plain cmd).text = some (b, 1) := by
    rw [text, hname, LineToCommands_name cmd separated_nil, generate_plain hp hj, ← hname, GetCmdNum_name, hb]
    rfl
  obtain ⟨-, -, rfl⟩ := write_eq_some hb
  refine Agrees.of_decode hline (decode_plain hp hj ?_) rfl
  dsimp only
  rw [Int.add_zero, byte_at]

/-! ## Jumps -/

theorem decode_jump {code : Int → Byte} (hj : cmd.IsJump) (h : code 0 = cmd.byte) :
    decode code = some (.jump cmd (peek code 1)) := by
  have hmask : ∀ cmd : Commands, cmd.byte &&& CMD_BITMASK = cmd.byte := fun cmd => by cases cmd <;> decide
  have hp : ¬ cmd.IsPushPop := by
    rcases hj with rfl | rfl | rfl | rfl | rfl | rfl | rfl | rfl <;> decide
  rw [decode, h, hmask, Commands.ofByte_byte, Option.map_some, if_neg hp, if_pos hj]

/-- A jump is decoded as the one whose name is found first. -/
theorem jump_line {label : Str} (hj : cmd.IsJump) (hne : label ≠ []) (hlabel : ∀ c ∈ label, isspace c = false) :
    LineToCommands d a (cmd.name ++ ' ' :: label) = if label.length < MAX_CMD_LEN then
      (writeJmp d a (foundPos a label) cmd.found).map fun b => (b, 10) else none := by
  have hword : word (label ++ []) = .item label [] := word_eq hne hlabel fun c t h => by cases h
  rw [List.append_nil] at hword
  rw [LineToCommands_name cmd (separated_blank label), generate_jump hj rfl hword]

theorem found_isJump (hj : cmd.IsJump) : cmd.found.IsJump := by
  rcases hj with rfl | rfl | rfl | rfl | rfl | rfl | rfl | rfl <;> decide

theorem decode_writeJmp {p : Int} (hj : cmd.IsJump) (h : writeJmp d a p cmd = some a') :
    decode (fun k => a'.commands (a.cur_len + k)) = some (.jump cmd (d.ofInt p)) := by
  obtain ⟨-, hbyte, hpeek⟩ := writeJmp_some h
  have hzero : a'.commands (a.cur_len + 0) = cmd.byte := by rw [Int.add_zero, hbyte]
  have hdecode : decode (fun k => a'.commands (a.cur_len + k)) = some (.jump cmd _) := decode_jump hj hzero
  rw [hdecode, peek_shift, hpeek]

theorem Source.agrees_jump_iff {label : Str} (hr : Room 10 a) (hj : cmd.IsJump) (hne : label ≠ [])
    (hlabel : ∀ c ∈ label, isspace c = false) :
    (Source.jump cmd label).Agrees d a ↔ (Source.jump cmd label).Readable := by
  constructor
  · rintro ⟨a', n, hline, hdecode, -⟩
    rw [text, jump_line hj hne hlabel] at hline
    split at hline
    · next hlen =>
        obtain ⟨b, hb, hp⟩ := Option.map_eq_some_iff.mp hline
        cases hp
        rw [decode_writeJmp (found_isJump hj) hb] at hdecode
        injection hdecode with hinstr
        injection hinstr with hfound
        refine ⟨?_, ?_, hlen⟩ <;> rintro rfl <;> cases hfound
    · cases hline
  · rintro ⟨hjbe, hjae, hlen⟩
    have hfound : cmd.found = cmd := by
      cases cmd <;> first | rfl | exact absurd rfl hjbe | exact absurd rfl hjae
    obtain ⟨b, hb⟩ : ∃ b, writeJmp d a (foundPos a label) cmd = some b := writeJmp_exists hr _ _
    have hline : LineToCommands d a (Source.jump cmd label).text = some (b, 10) := by
      rw [text, jump_line hj hne hlabel, if_pos hlen, hfound, hb]
      rfl
    exact Agrees.of_decode hline (decode_writeJmp hj hb) rfl

/-! ## Arguments -/

theorem arg_line (hcmd : cmd.IsPushPop) (s : Str) :
    LineToCommands d a (cmd.name ++ ' ' :: s) = HandlePushPop d a s cmd := by
  rw [LineToCommands_name cmd (separated_blank s), generate_pushPop hcmd]

theorem HandlePushPop_eq {s s' : Str} {ram : Bool} (hlen : s.length < MAX_CMD_LEN) (h : HandleRam s = some (s', ram)) :
    HandlePushPop d a s cmd = do
      return (← writeArg a (if ram then cmd.byte ||| ARG_MEM else cmd.byte) (parseArg d s'), 10) := by
  rw [HandlePushPop, strcpy, if_pos hlen]
  simp only [Option.bind_eq_bind, Option.bind_some, h]

/-- What is decoded is what has been read. -/
theorem decode_line {s s' : Str} {ram : Bool} (hcmd : cmd.IsPushPop) (hlen : s.length < MAX_CMD_LEN)
    (hram : HandleRam s = some (s', ram)) (h : LineToCommands d a (cmd.name ++ ' ' :: s) = some (a', n)) :
    n = 10 ∧ decode (fun k => a'.commands (a.cur_len + k)) =
      some (.arg cmd (parseArg d s').value? (parseArg d s').reg? ram) := by
  rw [arg_line hcmd, HandlePushPop_eq hlen hram] at h
  obtain ⟨b, hb, hp⟩ := Option.bind_eq_some_iff.mp h
  cases hp
  exact ⟨rfl, decode_writeArg hcmd hb⟩

theorem exists_line {s s' : Str} {ram : Bool} (hr : Room 10 a) (hcmd : cmd.IsPushPop) (hlen : s.length < MAX_CMD_LEN)
    (hram : HandleRam s = some (s', ram)) : ∃ a', LineToCommands d a (cmd.name ++ ' ' :: s) = some (a', 10) := by
  obtain ⟨b, hb⟩ := writeArg_exists hr (if ram then cmd.byte ||| ARG_MEM else cmd.byte) (parseArg d s')
  refine ⟨b, ?_⟩
  rw [arg_line hcmd, HandlePushPop_eq hlen hram, hb]
  rfl

theorem Source.agrees_arg_iff {t : ArgText} (hr : Room 10 a) (hcmd : cmd.IsPushPop) (ht : t.WellFormed) :
    (Source.arg cmd t false).Agrees d a ↔ (Source.arg cmd t false).Readable := by
  have hram := HandleRam_plain ht.plain.2.1
  have hpost : Post [] := .inl rfl
  constructor
  · rintro ⟨a', n, hline, hdecode, -⟩
    have hlen : t.text.length < MAX_CMD_LEN := by
      rw [text, arg_line hcmd] at hline
      exact (HandlePushPop_some hline).1.copy
    refine ⟨?_, hlen⟩
    by_contra hplus
    have hread := parseArg_plus (d := d) ht hplus hpost
    rw [List.append_nil] at hread
    obtain ⟨-, hdecode'⟩ := decode_line hcmd hlen hram hline
    rw [hdecode'] at hdecode
    injection hdecode with hinstr
    injection hinstr with _ _ hreg
    cases t with
    | imm s => exact hread hreg
    | _ => exact hplus trivial
  · rintro ⟨hplus, hlen⟩
    have his := parseArg_is (d := d) ht hplus hpost
    rw [List.append_nil] at his
    obtain ⟨a', hline⟩ := exists_line (d := d) hr hcmd hlen hram
    obtain ⟨-, hdecode⟩ := decode_line hcmd hlen hram hline
    rw [his.1, his.2] at hdecode
    exact Agrees.of_decode hline hdecode rfl

theorem Source.agrees_brackets_iff {t : ArgText} (hr : Room 10 a) (hcmd : cmd.IsPushPop) (ht : t.WellFormed) :
    (Source.arg cmd t true).Agrees d a ↔ (Source.arg cmd t true).Readable := by
  have hbrackets := HandleRam_brackets ht.plain.2.2
  have hpost : Post [' '] := .inr rfl
  have hcopy : t.text.length < 9 → ('[' :: (t.text ++ [']'])).length < MAX_CMD_LEN := by
    intro hlen
    rw [List.length_cons, List.length_append, List.length_singleton, MAX_CMD_LEN]
    omega
  constructor
  · rintro ⟨a', n, hline, hdecode, -⟩
    have hlen : t.text.length < 9 := by
      by_contra hlen
      rw [if_neg (by omega)] at hbrackets
      rw [text, arg_line hcmd, HandlePushPop] at hline
      obtain ⟨s, hs, hrest⟩ := Option.bind_eq_some_iff.mp hline
      obtain ⟨p, hp, -⟩ := Option.bind_eq_some_iff.mp hrest
      rw [(strcpy_eq_some hs).2] at hp
      exact absurd (hbrackets.symm.trans hp) (by simp)
    rw [if_pos (by omega)] at hbrackets
    obtain ⟨-, hdecode'⟩ := decode_line hcmd (hcopy hlen) hbrackets hline
    rw [hdecode', parseArg_blank] at hdecode
    injection hdecode with hinstr
    injection hinstr with _ _ hreg
    refine ⟨?_, hlen, fun i hi => ?_⟩
    · by_contra hplus
      have hread := parseArg_plus (d := d) ht hplus hpost
      have hnone : t.reg? = none := by
        cases t with
        | imm s => rfl
        | _ => exact absurd trivial hplus
      rw [hnone] at hreg
      cases hp : parseArg d (t.text ++ [' ']) with
      | imm x => exact hread (by rw [hp]; rfl)
      | _ =>
          rw [hp] at hreg
          cases hreg
    · subst hi
      have his := parseArg_is (d := d) ht trivial hpost
      cases hp : parseArg d ((ArgText.reg i).text ++ [' ']) with
      | reg r =>
          rw [hp] at hreg
          have hi : (0 : Int) = i := Option.some.inj hreg
          exact Fin.ext (by simpa using hi.symm)
      | _ =>
          rw [hp] at his
          cases his.1
  · rintro ⟨hplus, hlen, hreg⟩
    have his := parseArg_is (d := d) ht hplus hpost
    rw [if_pos (by omega)] at hbrackets
    obtain ⟨a', hline⟩ := exists_line (d := d) hr hcmd (hcopy hlen) hbrackets
    obtain ⟨-, hdecode⟩ := decode_line hcmd (hcopy hlen) hbrackets hline
    rw [parseArg_blank] at hdecode
    refine Agrees.of_decode hline (hdecode.trans ?_) rfl
    cases hp : parseArg d (t.text ++ [' ']) with
    | reg r =>
        rw [hp] at his
        cases t with
        | reg i =>
            obtain rfl := hreg i rfl
            rfl
        | _ => cases his.1
    | _ =>
        rw [hp] at his
        exact congrArg some (congrArg₂ (Instr.arg cmd · · true) his.1 his.2)

/-- An assembler that has read the label `l` at the beginning. -/
def declared : Assembler where
  commands := fun _ => 0
  capacity := 64
  cur_len := 8
  labels := [⟨['l'], 8⟩]

end CompilerLab.Asm
