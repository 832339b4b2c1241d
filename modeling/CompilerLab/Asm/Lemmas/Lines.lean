import CompilerLab.Asm.Assembler

/-!
# What a line writes

A line writes from the current length on, as many bytes as its kind says, and nothing else is changed but the table of labels.
-/

namespace CompilerLab.Asm

open Lib.Scanf

variable {d : Doubles} {a a' : Assembler} {line rest s : Str} {cmd : Commands} {n : Int}

/-! ## Stores -/

theorem write_eq_some {i : Int} {bytes : List Byte} (h : a.write i bytes = some a') :
    0 ≤ i ∧ i + bytes.length ≤ a.capacity ∧ a' = { a with commands := poke a.commands i bytes } := by
  unfold Assembler.write at h
  split at h
  · next hi => exact ⟨hi.1, hi.2, (Option.some.inj h).symm⟩
  · cases h

theorem write_eq {i : Int} {bytes : List Byte} (hi : 0 ≤ i) (hc : i + bytes.length ≤ a.capacity) :
    a.write i bytes = some { a with commands := poke a.commands i bytes } := if_pos ⟨hi, hc⟩

/-- Only the next `n` bytes have been stored. -/
structure Stored (n : Int) (a a' : Assembler) : Prop where
  capacity : a'.capacity = a.capacity
  cur_len : a'.cur_len = a.cur_len
  labels : a'.labels = a.labels
  commands : ∀ k, k < a.cur_len ∨ a.cur_len + n ≤ k → a'.commands k = a.commands k

theorem Stored.refl (n : Int) (a : Assembler) : Stored n a a := ⟨rfl, rfl, rfl, fun _ _ => rfl⟩

theorem Stored.mono {m : Int} (h : Stored n a a') (hm : n ≤ m) : Stored m a a' :=
  ⟨h.capacity, h.cur_len, h.labels, fun k hk => h.commands k (by omega)⟩

theorem Stored.write {b : Assembler} {i : Int} {bytes : List Byte} (h : Stored n a b) (hw : b.write i bytes = some a')
    (hi : b.cur_len ≤ i) (hn : i + bytes.length ≤ b.cur_len + n) : Stored n a a' := by
  obtain ⟨-, -, rfl⟩ := write_eq_some hw
  rw [h.cur_len] at hi hn
  refine ⟨h.capacity, h.cur_len, h.labels, fun k hk => Eq.trans ?_ (h.commands k hk)⟩
  rcases hk with hk | hk
  · exact poke_of_lt (by omega)
  · exact poke_of_le (by omega)

/-- There is room for the next `n` bytes. -/
structure Room (n : Int) (a : Assembler) : Prop where
  nonneg : 0 ≤ a.cur_len
  capacity : a.cur_len + n ≤ a.capacity

theorem Room.write {b : Assembler} {i : Int} {bytes : List Byte} (hr : Room n a) (h : Stored n a b) (hi : b.cur_len ≤ i)
    (hn : i + bytes.length ≤ b.cur_len + n) : ∃ c, b.write i bytes = some c ∧ Stored n a c := by
  have hnonneg := hr.nonneg
  have hcap := hr.capacity
  rw [← h.cur_len] at hnonneg hcap
  rw [← h.capacity] at hcap
  have hw : b.write i bytes = some _ := write_eq (by omega) (by omega)
  exact ⟨_, hw, h.write hw hi hn⟩

/-! ## Arguments of push and pop -/

/-- The copies of an argument fit into their arrays. -/
structure FitsArg (s : Str) : Prop where
  copy : s.length < MAX_CMD_LEN
  ram : s.head? = some '[' → ∃ w r, word (' ' :: s.tail) = .item w r ∧ w.length < 10

theorem strcpy_eq_some {size : Nat} {s t : Str} (h : strcpy size s = some t) : s.length < size ∧ t = s := by
  unfold strcpy at h
  split at h
  · next hs => exact ⟨hs, (Option.some.inj h).symm⟩
  · cases h

theorem HandleRam_eq_some {p : Str × Bool} (h : HandleRam s = some p) (hs : s.head? = some '[') :
    ∃ w r, word (' ' :: s.tail) = .item w r ∧ w.length < 10 := by
  rw [HandleRam, if_pos hs] at h
  dsimp only at h
  split at h
  · next w r hw =>
      obtain ⟨t, ht, -⟩ := Option.bind_eq_some_iff.mp h
      exact ⟨w, r, hw, (strcpy_eq_some ht).1⟩
  · cases h

theorem HandleRam_exists (h : FitsArg s) : ∃ p, HandleRam s = some p := by
  unfold HandleRam
  split
  · next hs =>
      obtain ⟨w, r, hw, hlen⟩ := h.ram hs
      dsimp only
      rw [hw]
      dsimp only
      rw [strcpy, if_pos hlen]
      exact ⟨_, rfl⟩
  · exact ⟨_, rfl⟩

theorem writeArg_stored {b : Byte} {arg : Arg} (h : writeArg a b arg = some a') : Stored 10 a a' := by
  cases arg with
  | immReg imm reg =>
      obtain ⟨a₁, h₁, hrest⟩ := Option.bind_eq_some_iff.mp h
      obtain ⟨a₂, h₂, h₃⟩ := Option.bind_eq_some_iff.mp hrest
      have hcmd := (Stored.refl 10 a).write h₁ (by omega) (by rw [List.length_singleton]; omega)
      have himm := hcmd.write h₂ (by omega) (by rw [length_elemBytes]; omega)
      exact himm.write h₃ (by rw [MULTI_BYTE_OFFSET]; omega) (by rw [MULTI_BYTE_OFFSET, List.length_singleton]; omega)
  | imm imm =>
      obtain ⟨a₁, h₁, h₂⟩ := Option.bind_eq_some_iff.mp h
      have hcmd := (Stored.refl 10 a).write h₁ (by omega) (by rw [List.length_singleton]; omega)
      exact hcmd.write h₂ (by omega) (by rw [length_elemBytes]; omega)
  | reg reg =>
      obtain ⟨a₁, h₁, h₂⟩ := Option.bind_eq_some_iff.mp h
      have hcmd := (Stored.refl 10 a).write h₁ (by omega) (by rw [List.length_singleton]; omega)
      exact hcmd.write h₂ (by rw [MULTI_BYTE_OFFSET]; omega) (by rw [MULTI_BYTE_OFFSET, List.length_singleton]; omega)

theorem writeArg_exists (hr : Room 10 a) (b : Byte) (arg : Arg) : ∃ a', writeArg a b arg = some a' := by
  have hcmd : ∀ c : Byte, ∃ a₁, a.write a.cur_len [c] = some a₁ ∧ Stored 10 a a₁ := fun c =>
    hr.write (Stored.refl 10 a) (le_refl _) (by rw [List.length_singleton]; omega)
  have himm : ∀ a₁ imm, Stored 10 a a₁ → ∃ a₂, a₁.write (a₁.cur_len + 1) (elemBytes imm) = some a₂ ∧ Stored 10 a a₂ :=
    fun a₁ imm h => hr.write h (by omega) (by rw [length_elemBytes]; omega)
  have hreg : ∀ a₂ (reg : Byte), Stored 10 a a₂ →
      ∃ a₃, a₂.write (a₂.cur_len + MULTI_BYTE_OFFSET) [reg] = some a₃ ∧ Stored 10 a a₃ := fun a₂ reg h =>
    hr.write h (by rw [MULTI_BYTE_OFFSET]; omega) (by rw [MULTI_BYTE_OFFSET, List.length_singleton]; omega)
  cases arg with
  | immReg imm reg =>
      obtain ⟨a₁, h₁, hs₁⟩ := hcmd (b ||| ARG_IMMED ||| ARG_REG)
      obtain ⟨a₂, h₂, hs₂⟩ := himm a₁ imm hs₁
      obtain ⟨a₃, h₃, -⟩ := hreg a₂ reg hs₂
      exact ⟨a₃, Option.bind_eq_some_iff.mpr ⟨a₁, h₁, Option.bind_eq_some_iff.mpr ⟨a₂, h₂, h₃⟩⟩⟩
  | imm imm =>
      obtain ⟨a₁, h₁, hs₁⟩ := hcmd (b ||| ARG_IMMED)
      obtain ⟨a₂, h₂, -⟩ := himm a₁ imm hs₁
      exact ⟨a₂, Option.bind_eq_some_iff.mpr ⟨a₁, h₁, h₂⟩⟩
  | reg reg =>
      obtain ⟨a₁, h₁, hs₁⟩ := hcmd (b ||| ARG_REG)
      obtain ⟨a₂, h₂, -⟩ := hreg a₁ reg hs₁
      exact ⟨a₂, Option.bind_eq_some_iff.mpr ⟨a₁, h₁, h₂⟩⟩

/-- A push or a pop stores its command and its argument. -/
theorem HandlePushPop_some (h : HandlePushPop d a s cmd = some (a', n)) : FitsArg s ∧ n = 10 ∧ Stored 10 a a' := by
  obtain ⟨copy, hcopy, h₁⟩ := Option.bind_eq_some_iff.mp h
  obtain ⟨hlen, rfl⟩ := strcpy_eq_some hcopy
  obtain ⟨p, hp, h₂⟩ := Option.bind_eq_some_iff.mp h₁
  obtain ⟨b, hb, h₃⟩ := Option.bind_eq_some_iff.mp h₂
  injection h₃ with h₃
  injection h₃ with ha hn
  subst ha
  exact ⟨⟨hlen, HandleRam_eq_some hp⟩, hn.symm, writeArg_stored hb⟩

theorem HandlePushPop_exists (hr : Room 10 a) (h : FitsArg s) : ∃ b, HandlePushPop d a s cmd = some (b, 10) := by
  obtain ⟨p, hp⟩ := HandleRam_exists h
  obtain ⟨b, hb⟩ := writeArg_exists hr (if p.2 then cmd.byte ||| ARG_MEM else cmd.byte) (parseArg d p.1)
  refine ⟨b, ?_⟩
  unfold HandlePushPop
  rw [strcpy, if_pos h.copy]
  simp only [Option.bind_eq_bind, Option.bind_some, hp, hb]
  rfl

/-! ## Jumps -/

/-- The stores of a jump to a position. -/
def writeJmp (d : Doubles) (a : Assembler) (label_pos : Int) (jmp_type : Commands) : Option Assembler := do
  let a ← a.write (a.cur_len + 1) (elemBytes (d.ofInt label_pos))
  a.write a.cur_len [jmp_type.byte]

/-- The position of a label that has been found. -/
def foundPos (a : Assembler) (label_name : Str) : Int :=
  match FindLabel a label_name with
  | some label => label.label_pos
  | none => -1

/-- A jump whose label is the next word. -/
theorem ParseJmp_item {c : Char} {t label r : Str} (hw : word t = .item label r) :
    ParseJmp d a (c :: t) cmd = if label.length < MAX_CMD_LEN then
      (writeJmp d a (foundPos a label) cmd).map fun b => (b, 10) else none := by
  have hafter : after 1 (c :: t) = some t := if_pos (by simp)
  unfold ParseJmp
  rw [hafter]
  simp only [Option.bind_eq_bind, Option.bind_some, hw, strcpy]
  split
  · rw [Option.bind_some, writeJmp, foundPos, Option.map_eq_bind, Option.bind_eq_bind, Option.bind_assoc]
    rfl
  · rfl

theorem writeJmp_some {p : Int} (h : writeJmp d a p cmd = some a') :
    Stored 10 a a' ∧ a'.commands a.cur_len = cmd.byte ∧ peek a'.commands (a.cur_len + 1) = d.ofInt p := by
  obtain ⟨a₁, h₁, h₂⟩ := Option.bind_eq_some_iff.mp h
  have hpos := (Stored.refl 10 a).write h₁ (by omega) (by rw [length_elemBytes]; omega)
  have hcmd := hpos.write h₂ (by omega) (by rw [List.length_singleton]; omega)
  have hcur := hpos.cur_len
  obtain ⟨-, -, rfl⟩ := write_eq_some h₁
  obtain ⟨-, -, rfl⟩ := write_eq_some h₂
  refine ⟨hcmd, ?_, ?_⟩
  · have hbyte := @poke_at (poke a.commands (a.cur_len + 1) (elemBytes (d.ofInt p))) a.cur_len [cmd.byte] 0 (by simp)
    simpa using hbyte
  · dsimp only
    rw [peek_poke_of_le (by simp), peek_poke]

theorem writeJmp_exists (hr : Room 10 a) (p : Int) (cmd : Commands) : ∃ a', writeJmp d a p cmd = some a' := by
  obtain ⟨a₁, h₁, hs₁⟩ : ∃ a₁, a.write (a.cur_len + 1) (elemBytes (d.ofInt p)) = some a₁ ∧ Stored 10 a a₁ :=
    hr.write (Stored.refl 10 a) (by omega) (by rw [length_elemBytes]; omega)
  obtain ⟨a₂, h₂, -⟩ : ∃ a₂, a₁.write a₁.cur_len [cmd.byte] = some a₂ ∧ Stored 10 a a₂ :=
    hr.write hs₁ (le_refl _) (by rw [List.length_singleton]; omega)
  exact ⟨a₂, Option.bind_eq_some_iff.mpr ⟨a₁, h₁, h₂⟩⟩

/-! ## Commands -/

namespace Commands

/-- The name of a command in the table. -/
def name : Commands → Str
  | HLT => ['h', 'l', 't']
  | PUSH => ['p', 'u', 's', 'h']
  | POP => ['p', 'o', 'p']
  | MUL => ['m', 'u', 'l']
  | ADD => ['a', 'd', 'd']
  | SUB => ['s', 'u', 'b']
  | DIV => ['d', 'i', 'v']
  | OUT => ['o', 'u', 't']
  | DMP => ['d', 'm', 'p']
  | JMP => ['j', 'm', 'p']
  | JB => ['j', 'b']
  | JBE => ['j', 'b', 'e']
  | JA => ['j', 'a']
  | JAE => ['j', 'a', 'e']
  | JE => ['j', 'e']
  | JNE => ['j', 'n', 'e']
  | IN => ['i', 'n']
  | CALL => ['c', 'a', 'l', 'l']
  | RET => ['r', 'e', 't']
  | SQR => ['s', 'q', 'r']
  | SIN => ['s', 'i', 'n']
  | COS => ['c', 'o', 's']
  | ABS => ['a', 'b', 's']
  | ROUND => ['r', 'o', 'u', 'n', 'd']
  | END => ['e', 'n', 'd']

theorem mem_table {name : Str} : (name, cmd) ∈ table ↔ name = cmd.name := by
  constructor
  · intro h
    simp only [table, List.mem_cons, Prod.mk.injEq, List.not_mem_nil, or_false] at h
    cases cmd <;> simpa [Commands.name] using h
  · rintro rfl
    cases cmd <;> simp [table, Commands.name]

theorem name_plain (cmd : Commands) : cmd.name ≠ [] ∧ cmd.name.length < MAX_CMD_LEN ∧ cmd.name.getLast? ≠ some ':' ∧
    cmd.name.head? ≠ some ';' ∧ ∀ c ∈ cmd.name, isspace c = false := by
  have hspace : ∀ c ∈ cmd.name, isspace c = false := by cases cmd <;> simp [Commands.name, isspace]
  cases cmd <;> exact ⟨by decide, by decide, by decide, by decide, hspace⟩

def IsPushPop (cmd : Commands) : Prop := cmd = PUSH ∨ cmd = POP

def IsJump (cmd : Commands) : Prop :=
  cmd = JMP ∨ cmd = JB ∨ cmd = JBE ∨ cmd = JA ∨ cmd = JAE ∨ cmd = JE ∨ cmd = JNE ∨ cmd = CALL

instance : Decidable cmd.IsPushPop := inferInstanceAs (Decidable (_ ∨ _))

instance : Decidable cmd.IsJump := inferInstanceAs (Decidable (_ ∨ _))

/-- The command whose name is found first at the beginning of a line. -/
def found : Commands → Commands
  | JBE => JB
  | JAE => JA
  | cmd => cmd

end Commands

/-- Nothing follows, or white space does. -/
def Separated (rest : Str) : Prop := ∀ c t, rest = c :: t → isspace c = true

theorem separated_nil : Separated [] := fun _ _ h => by cases h

theorem separated_blank (s : Str) : Separated (' ' :: s) := fun c t h => by
  injection h with hc
  exact hc ▸ rfl

theorem word_name (cmd : Commands) (h : Separated rest) : word (cmd.name ++ rest) = .item cmd.name rest :=
  word_eq cmd.name_plain.1 cmd.name_plain.2.2.2.2 h

/-- A line that begins with a word is a label exactly when the word ends with a colon. -/
theorem IsLabel_eq {w : Str} (h : word (w ++ rest) = .item w rest) : IsLabel (w ++ rest) =
    if w.length < MAX_CMD_LEN then some (if w.getLast? = some ':' then w.length else 0) else none := by
  obtain ⟨hne, -, -⟩ := word_item h
  have hlast : (w ++ rest)[w.length - 1]? = w.getLast? := by
    have hpos := List.length_pos_iff.mpr hne
    rw [List.getLast?_eq_getElem?, List.getElem?_append_left (by omega)]
  unfold IsLabel
  rw [h]
  dsimp only
  rw [strcpy]
  split
  · rw [List.length_append, Nat.add_sub_cancel, hlast]
    rfl
  · rfl

theorem LineToCommands_name (cmd : Commands) (h : Separated rest) :
    LineToCommands d a (cmd.name ++ rest) = generate d a (cmd.name ++ rest) := by
  obtain ⟨hne, hlen, hlast, hhead, -⟩ := cmd.name_plain
  have hhead' : (cmd.name ++ rest).head? ≠ some ';' := by rwa [List.head?_append_of_ne_nil _ hne]
  rw [LineToCommands, if_neg hhead', IsLabel_eq (word_name cmd h), if_pos hlen, if_neg hlast]
  rfl

theorem generate_pushPop {c : Char} (hc : cmd.IsPushPop) :
    generate d a (cmd.name ++ c :: s) = HandlePushPop d a s cmd := by
  rcases hc with rfl | rfl
  · rfl
  · rfl

/-- A jump is stored under the name that is found first. -/
theorem generate_jump {c : Char} {label r : Str} (hc : cmd.IsJump) (hspace : isspace c = true)
    (hw : word s = .item label r) : generate d a (cmd.name ++ c :: s) = if label.length < MAX_CMD_LEN then
      (writeJmp d a (foundPos a label) cmd.found).map fun b => (b, 10) else none := by
  have hw' : word (c :: s) = .item label r := by
    have hskip : skip (c :: s) = skip s := by rw [skip, List.dropWhile_cons_of_pos hspace, skip]
    rw [← hw, word, word, hskip]
  rcases hc with rfl | rfl | rfl | rfl | rfl | rfl | rfl | rfl
  · exact ParseJmp_item hw
  · exact ParseJmp_item hw
  · exact ParseJmp_item hw'
  · exact ParseJmp_item hw
  · exact ParseJmp_item hw'
  · exact ParseJmp_item hw
  · exact ParseJmp_item hw
  · exact ParseJmp_item hw

theorem generate_plain (hp : ¬ cmd.IsPushPop) (hj : ¬ cmd.IsJump) : generate d a (cmd.name ++ rest) =
    do return (← a.write a.cur_len [GetCmdNum (cmd.name ++ rest)], 1) := by
  cases cmd <;> first | rfl | exact absurd (by decide) hp | exact absurd (by decide) hj

end CompilerLab.Asm
