import CompilerLab.Asm.Runs
import CompilerLab.Asm.Theorems.Encode
import CompilerLab.Asm.Theorems.Labels

/-!
# Texts in memory

What the second pass leaves in memory: the commands of the lines, one behind the other, with the positions of all labels.
-/

namespace CompilerLab.Asm

open Lib.Scanf

/-- The position a jump to a label gets when these are the labels. -/
def labelPos (labels : List Label) (name : Str) : Int :=
  match labels.find? fun label => name == label.name with
  | some label => label.label_pos
  | none => -1

/-- With these labels, the line writes the command or nothing. -/
structure AsmLine.Stores (d : Doubles) (labels : List Label) (l : AsmLine) (instrs : List Instr) : Prop where
  size : l.kind.size = bytes instrs
  length : instrs.length ≤ 1
  decode : ∀ i ∈ instrs, ∀ {a a' : Assembler} {n : Int}, a.labels = labels → LineToCommands d a l.text = some (a', n) →
    decode (fun k => a'.commands (a.cur_len + k)) = some i

variable {d : Doubles} {a a' : Assembler} {cmd : Commands} {i : Instr} {instrs : List Instr} {labels : List Label} {l : AsmLine}
  {text : List AsmLine} {pos n : Int} {cmds cmds' : Int → Byte}

/-! ## Memory -/

theorem Instr.size_pos (i : Instr) : 0 < i.size := by cases i <;> simp [Instr.size]

/-- A command is decoded from its own bytes. -/
theorem decode_congr {code code' : Int → Byte} (h : decode code = some i) (hsame : ∀ k : Nat, k < i.size → code' k = code k) :
    decode code' = some i := by
  have hzero : code' 0 = code 0 := hsame 0 i.size_pos
  have hpeek : i.size = 10 → peek code' 1 = peek code 1 := fun hsize => peek_congr fun n hn => by
    have hbyte := hsame (n + 1) (by omega)
    have hindex : ((n + 1 : Nat) : Int) = 1 + n := by push_cast; omega
    rwa [hindex] at hbyte
  unfold decode at h ⊢
  obtain ⟨cmd, hcmd, hi⟩ := Option.map_eq_some_iff.1 h
  rw [hzero, hcmd, Option.map_some]
  by_cases hp : cmd.IsPushPop
  · rw [if_pos hp] at hi ⊢
    have hsize : i.size = 10 := by rw [← hi]; rfl
    have hreg : code' MULTI_BYTE_OFFSET = code MULTI_BYTE_OFFSET := hsame 9 (by omega)
    rw [hpeek hsize, hreg, hi]
  · rw [if_neg hp] at hi ⊢
    by_cases hj : cmd.IsJump
    · rw [if_pos hj] at hi ⊢
      rw [hpeek (by rw [← hi]; rfl), hi]
    · rw [if_neg hj] at hi ⊢
      rw [hi]

theorem Loaded.congr (h : Loaded cmds pos instrs) (hsame : ∀ k, pos ≤ k → cmds' k = cmds k) : Loaded cmds' pos instrs := by
  induction instrs generalizing pos with
  | nil => trivial
  | cons i instrs ih =>
      refine ⟨decode_congr h.1 fun k _ => hsame _ (by omega), ih h.2 fun k hk => hsame k (by omega)⟩

/-! ## The passes -/

theorem size_of_stores {code : List (List Instr)} (h : List.Forall₂ (AsmLine.Stores d labels) text code) : size text = bytes code.flatten := by
  induction h with
  | nil => rfl
  | cons hl _ ih => rw [size_cons, List.flatten_cons, bytes_append, hl.size, ih]

theorem EachLineToBin_loaded {code : List (List Instr)} (hstores : List.Forall₂ (AsmLine.Stores d labels) text code)
    (h : EachLineToBin d (texts text) a = some a') (hlabels : a.labels = labels)
    (hknown : ∀ name ∈ declaredNames text, name ∈ labels.map Label.name) : Loaded a'.commands a.cur_len code.flatten := by
  induction hstores generalizing a with
  | nil => trivial
  | @cons l instrs text code hl _ ih =>
      rw [texts, List.map_cons, EachLineToBin_cons] at h
      obtain ⟨b, hb, hrest⟩ := Option.bind_eq_some_iff.1 h
      obtain ⟨c, n, hline, rfl⟩ := nextLine_some hb
      obtain ⟨rfl, hassembled⟩ := AsmLine.assembled hline
      have hsame : l.declare a.labels a.cur_len = a.labels := declare_known fun name hname => by
        rw [hlabels]
        exact hknown name (List.mem_filterMap.2 ⟨l, List.mem_cons_self, hname⟩)
      have hpassed := EachLineToBin_passed hrest
      have hloaded := ih hrest (hassembled.labels.trans (hsame.trans hlabels)) fun name hname => hknown name (by
        rw [declaredNames, List.filterMap_cons]
        split
        · exact hname
        · exact List.mem_cons_of_mem _ hname)
      dsimp only at hloaded
      rw [hassembled.cur_len] at hloaded
      rw [List.flatten_cons, loaded_append, ← hl.size]
      refine ⟨?_, hloaded⟩
      cases instrs with
      | nil => trivial
      | cons i rest =>
          have hlength := hl.length
          rw [List.length_cons] at hlength
          obtain rfl : rest = [] := List.length_eq_zero_iff.1 (by omega)
          refine ⟨decode_congr (hl.decode i List.mem_cons_self hlabels hline) fun k hk => hpassed.commands _ (.inl ?_), trivial⟩
          have hsize := hl.size
          rw [bytes_cons, bytes_nil] at hsize
          dsimp only
          rw [hassembled.cur_len, hsize]
          push_cast
          omega

/-- What is in memory behind the header. -/
theorem RawToBin_loaded {code : List (List Instr)} (hfits : FitsText text) (hdecl : (declaredNames text).Nodup)
    (hstores : List.Forall₂ (AsmLine.Stores d (positions SERVICE_DATA_LEN text)) text code) :
    ∃ b, RawToBin d (texts text) = some b ∧ b.cur_len = SERVICE_DATA_LEN + bytes code.flatten ∧
      Loaded b.commands SERVICE_DATA_LEN code.flatten := by
  obtain ⟨p⟩ : Nonempty (Passes d text) := hfits.passes hdecl
  have hcur : p.second.cur_len = SERVICE_DATA_LEN + bytes code.flatten := by
    rw [(EachLineToBin_passed p.secondPass).cur_len, p.zeroed_eq.1, size_of_stores hstores]
  have hloaded := EachLineToBin_loaded hstores p.secondPass (p.labels_eq hdecl) fun name hname => by rwa [positions_names]
  rw [p.zeroed_eq.1] at hloaded
  obtain ⟨-, -, hresult⟩ := write_eq_some p.header
  refine ⟨p.result, rawToBin_iff.2 ⟨p, rfl⟩, ?_, ?_⟩
  · rw [hresult]
    exact hcur
  · rw [hresult]
    refine hloaded.congr fun k hk => poke_of_le ?_
    rw [SERVICE_DATA_LEN] at hk
    rw [List.length_append, Lib.length_toBytes]
    simp only [List.length_cons, List.length_nil]
    omega

/-! ## Lines -/

namespace AsmLine.Stores

theorem plain {h : IsAssembly cmd.name .plain} (hp : ¬ cmd.IsPushPop) (hj : ¬ cmd.IsJump) :
    (⟨cmd.name, .plain, h⟩ : AsmLine).Stores d labels [.plain cmd] where
  size := rfl
  length := le_refl _
  decode := by
    intro i hi a a' n _ hline
    obtain rfl := List.mem_singleton.1 hi
    have hname : cmd.name = cmd.name ++ [] := (List.append_nil _).symm
    dsimp only at hline
    rw [hname, LineToCommands_name cmd separated_nil, generate_plain hp hj, ← hname, GetCmdNum_name] at hline
    obtain ⟨b, hb, hpure⟩ := Option.bind_eq_some_iff.1 hline
    obtain ⟨rfl, -⟩ := Prod.mk.inj (Option.some.inj hpure)
    obtain ⟨-, -, rfl⟩ := write_eq_some hb
    refine decode_plain hp hj ?_
    dsimp only
    rw [Int.add_zero, byte_at]

theorem jump {label rest : Str} {h : IsAssembly (cmd.name ++ ' ' :: (label ++ rest)) (.jump label)} (hj : cmd.IsJump)
    (hfound : cmd.found = cmd) (hw : word (label ++ rest) = .item label rest) :
    (⟨_, .jump label, h⟩ : AsmLine).Stores d labels [.jump cmd (d.ofInt (labelPos labels label))] where
  size := rfl
  length := le_refl _
  decode := by
    intro i hi a a' n hlabels hline
    obtain rfl := List.mem_singleton.1 hi
    dsimp only at hline
    rw [LineToCommands_name cmd (separated_blank _), generate_jump hj rfl hw, hfound] at hline
    split at hline
    · obtain ⟨b, hb, hpair⟩ := Option.map_eq_some_iff.1 hline
      obtain ⟨rfl, -⟩ := Prod.mk.inj hpair
      have hpos : foundPos a label = labelPos labels label := by rw [← hlabels]; rfl
      rw [← hpos]
      exact decode_writeJmp hj hb
    · cases hline

theorem arg {s s' : Str} {ram : Bool} {h : IsAssembly (cmd.name ++ ' ' :: s) (.arg s)} (hcmd : cmd.IsPushPop)
    (hram : HandleRam s = some (s', ram)) :
    (⟨_, .arg s, h⟩ : AsmLine).Stores d labels [.arg cmd (parseArg d s').value? (parseArg d s').reg? ram] where
  size := rfl
  length := le_refl _
  decode := by
    intro i hi a a' n _ hline
    obtain rfl := List.mem_singleton.1 hi
    have hcopy : s.length < MAX_CMD_LEN := by
      dsimp only at hline
      rw [arg_line hcmd] at hline
      exact (HandlePushPop_some hline).1.copy
    exact (decode_line hcmd hcopy hram hline).2

theorem silent (hl : l.Silent) : l.Stores d labels [] where
  size := by
    rcases hl with hk | ⟨name, hk⟩ <;> rw [hk] <;> rfl
  length := Nat.zero_le _
  decode := fun i hi => absurd hi List.not_mem_nil

end AsmLine.Stores

section
variable {s post : Str} {i : Fin 10}

/-! ## Operands -/

theorem isDigit_toString {n : Nat} {c : Char} (hc : c ∈ (toString n).toList) : c.isDigit = true := by
  rw [Nat.toString_eq_repr, Nat.toList_repr] at hc
  exact Nat.isDigit_of_mem_toDigits (by decide) (by decide) hc

theorem toString_ne_nil (n : Nat) : (toString n).toList ≠ [] := by
  rw [Nat.toString_eq_repr, Nat.toList_repr]
  exact Nat.toDigits_ne_nil

theorem isNumber_toString (n : Nat) : IsNumber (toString n).toList := by
  obtain ⟨c, t, ht⟩ := List.exists_cons_of_ne_nil (toString_ne_nil n)
  rw [ht]
  exact isNumber_of_digits fun c' hc' => isDigit_toString (ht ▸ hc')

theorem not_plus_toString (n : Nat) : '+' ∉ (toString n).toList := by
  intro h
  have hdigit := isDigit_toString h
  cases hdigit

theorem length_toString_le {n : Nat} (h : n < 10000) : (toString n).toList.length ≤ 4 := by
  rw [Nat.toString_eq_repr, Nat.toList_repr]
  exact (Nat.length_toDigits_le_iff (by decide) (by decide)).2 h

/-- A sum of a number and a register, up to a blank. -/
theorem parseArg_sum (h : IsNumber s) (hpost : Separated post) :
    parseArg d (s ++ '+' :: regName i ++ post) = .immReg (d.strtod s) (GetRegNum (regName i)) := by
  have hends : ∀ c t, '+' :: (regName i ++ post) = c :: t → Ends c := fun c t hct => by
    injection hct with hc
    exact hc ▸ ends_plus
  have hword : word (regName i ++ post) = .item (regName i) post := word_eq (by simp [regName]) (regName_not_isspace i) hpost
  have hlit : literal '+' ('+' :: (regName i ++ post)) = some (regName i ++ post) := rfl
  have hscan : scanImmReg (s ++ '+' :: regName i ++ post) = some (s, regName i) := by
    rw [scanImmReg, List.append_assoc, List.cons_append, h.number_eq hends]
    simp only [hlit, hword]
  rw [parseArg, hscan]
  rfl

/-- Brackets around a word, and what is behind them. -/
theorem HandleRam_separated (hs : ∀ c ∈ s, isspace c = false) (hlength : s.length + 1 < 10) (hpost : Separated post) :
    HandleRam ('[' :: (s ++ ']' :: post)) = some (' ' :: (s ++ ' ' :: post), true) ∧
      word (' ' :: (s ++ ']' :: post)) = .item (s ++ [']']) post := by
  have hnospace : ∀ c ∈ s ++ [']'], isspace c = false := by
    intro c hc
    rcases List.mem_append.1 hc with hc | hc
    · exact hs c hc
    · obtain rfl := List.mem_singleton.1 hc
      rfl
  have happend : s ++ ']' :: post = s ++ [']'] ++ post := by simp
  have hword : word (' ' :: (s ++ ']' :: post)) = .item (s ++ [']']) post := by
    rw [word_space, happend]
    exact word_eq (by simp) hnospace hpost
  refine ⟨?_, hword⟩
  have hlen : (' ' :: (s ++ ']' :: post)).length - post.length - 1 = s.length + 1 := by
    simp only [List.length_cons, List.length_append]
    omega
  have hset : (' ' :: (s ++ ']' :: post)).set ((' ' :: (s ++ ']' :: post)).length - post.length - 1) ' ' = ' ' :: (s ++ ' ' :: post) := by
    rw [hlen, List.set_cons_succ, List.set_append_right _ _ (le_refl _), Nat.sub_self]
    rfl
  have hhead : ('[' :: (s ++ ']' :: post)).head? = some '[' := rfl
  have hcopy : (s ++ [']']).length < 10 := by
    rw [List.length_append, List.length_singleton]
    exact hlength
  rw [HandleRam, if_pos hhead]
  dsimp only [List.tail_cons]
  rw [hword]
  dsimp only
  rw [strcpy, if_pos hcopy, ← hset]
  rfl

/-! ## Lines that fit -/

/-- The text is a line that fits. Which label it declares, and as which commands it is stored with the labels. -/
def Means (d : Doubles) (text : Str) (declares : Option Str) (instrs : List Label → List Instr) : Prop :=
  ∃ l : AsmLine, l.text = text ∧ l.Fits ∧ l.declared = declares ∧ ∀ labels, l.Stores d labels (instrs labels)

theorem plain_means (hp : ¬ cmd.IsPushPop) (hj : ¬ cmd.IsJump) : Means d cmd.name none fun _ => [.plain cmd] := by
  have hline : IsAssembly (cmd.name ++ []) .plain := .plain hp hj separated_nil
  rw [List.append_nil] at hline
  exact ⟨⟨cmd.name, .plain, hline⟩, rfl, trivial, rfl, fun _ => .plain hp hj⟩

theorem jump_means {label rest : Str} (hj : cmd.IsJump) (hfound : cmd.found = cmd) (hw : word (label ++ rest) = .item label rest)
    (hlength : label.length < MAX_CMD_LEN) :
    Means d (cmd.name ++ ' ' :: (label ++ rest)) none fun labels => [.jump cmd (d.ofInt (labelPos labels label))] :=
  ⟨⟨_, _, .jump hj rfl hw⟩, rfl, hlength, rfl, fun _ => .jump hj hfound hw⟩

theorem label_means {name : Str} (hw : word (name ++ [':']) = .item (name ++ [':']) []) (hhead : (name ++ [':']).head? ≠ some ';')
    (hlength : (name ++ [':']).length < MAX_CMD_LEN) : Means d (name ++ [':']) (some name) fun _ => [] := by
  have hw' : word (name ++ [':'] ++ []) = .item (name ++ [':']) [] := by rwa [List.append_nil]
  have hcolon : (name ++ [':']).getLast? = some ':' := by simp
  have hline : IsAssembly (name ++ [':'] ++ []) (.label (name ++ [':']).dropLast) := .label hw' hhead hcolon
  rw [List.append_nil, List.dropLast_concat] at hline
  exact ⟨⟨_, _, hline⟩, rfl, hlength, rfl, fun _ => .silent (.inr ⟨name, rfl⟩)⟩

/-- An operand without brackets. -/
theorem arg_means {t : ArgText} (hcmd : cmd.IsPushPop) (ht : t.WellFormed) (hplus : t.NoExponentPlus) (hpost : Post post)
    (hlength : (t.text ++ post).length < MAX_CMD_LEN) :
    Means d (cmd.name ++ ' ' :: (t.text ++ post)) none fun _ =>
      [.arg cmd (t.number?.map d.strtod) (t.reg?.map fun i => (i : Int)) false] := by
  have his := parseArg_is (d := d) ht hplus hpost
  have hhead : (t.text ++ post).head? ≠ some '[' := by
    rw [List.head?_append_of_ne_nil _ ht.plain.1]
    exact ht.plain.2.1
  have hline : IsAssembly (cmd.name ++ ' ' :: (t.text ++ post)) (.arg (t.text ++ post)) := .arg hcmd rfl
  refine ⟨⟨_, _, hline⟩, rfl, ⟨hlength, fun h => absurd h hhead⟩, rfl, fun labels => ?_⟩
  have hstores : (⟨_, _, hline⟩ : AsmLine).Stores d labels _ := .arg hcmd (HandleRam_plain hhead)
  rwa [his.1, his.2] at hstores

/-- A sum of a number and a register in brackets. -/
theorem ram_means (hcmd : cmd.IsPushPop) (h : IsNumber s) (hlength : (s ++ '+' :: regName i).length + 1 < 10) (hpost : Post post) :
    Means d (cmd.name ++ ' ' :: '[' :: (s ++ '+' :: regName i ++ ']' :: post)) none fun _ =>
      [.arg cmd (some (d.strtod s)) (some (i : Int)) true] := by
  have hseparated : Separated post := by
    rcases hpost with rfl | rfl
    · exact separated_nil
    · exact separated_blank []
  have hnospace : ∀ c ∈ s ++ '+' :: regName i, isspace c = false := by
    intro c hc
    rcases List.mem_append.1 hc with hc | hc
    · exact h.not_isspace c hc
    · rcases List.mem_cons.1 hc with rfl | hc
      · rfl
      · exact regName_not_isspace i c hc
  obtain ⟨hram, hword⟩ := HandleRam_separated hnospace hlength hseparated
  have hparse : parseArg d (' ' :: (s ++ '+' :: regName i ++ ' ' :: post)) = .immReg (d.strtod s) (GetRegNum (regName i)) := by
    rw [parseArg_blank, parseArg_sum h (separated_blank post)]
  have hline : IsAssembly (cmd.name ++ ' ' :: '[' :: (s ++ '+' :: regName i ++ ']' :: post))
    (.arg ('[' :: (s ++ '+' :: regName i ++ ']' :: post))) := .arg hcmd rfl
  have hreg : (GetRegNum (regName i)).toInt = i := by
    have hreg := GetRegNum_regName i []
    rwa [List.append_nil] at hreg
  have hcopy : ('[' :: (s ++ '+' :: regName i ++ ']' :: post)).length < MAX_CMD_LEN := by
    have hblank : post.length ≤ 1 := by rcases hpost with rfl | rfl <;> simp
    rw [List.length_cons, List.length_append, List.length_cons, MAX_CMD_LEN]
    omega
  have hfits : AsmLine.Fits ⟨_, _, hline⟩ := ⟨hcopy, fun _ => ⟨_, _, hword, by
    rw [List.length_append, List.length_singleton]
    exact hlength⟩⟩
  refine ⟨⟨_, _, hline⟩, rfl, hfits, rfl, fun labels => ?_⟩
  have hstores : (⟨_, _, hline⟩ : AsmLine).Stores d labels _ := .arg hcmd hram
  rwa [hparse, Arg.value?, Arg.reg?, hreg] at hstores

/-! ## Texts -/

/-- The same for the lines of a text, with the labels by where it begins. -/
def Assembles (d : Doubles) (text : List Str) (declares : Int → List Label) (width : Nat) (instrs : List Label → List Instr) : Prop :=
  ∃ asm : List AsmLine, texts asm = text ∧ (∀ l ∈ asm, l.Fits) ∧ size asm = width ∧ (∀ pos, positions pos asm = declares pos) ∧
    ∀ labels, ∃ code, List.Forall₂ (AsmLine.Stores d labels) asm code ∧ code.flatten = instrs labels

theorem positions_append (pos : Int) (text text' : List AsmLine) :
    positions pos (text ++ text') = positions pos text ++ positions (pos + size text) text' := by
  induction text generalizing pos with
  | nil => simp [positions]
  | cons l text ih =>
      rw [List.cons_append, positions, positions, ih, size_cons, List.append_assoc]
      push_cast
      rw [Int.add_assoc]

theorem Assembles.nil : Assembles d [] (fun _ => []) 0 fun _ => [] :=
  ⟨[], rfl, fun _ hl => absurd hl List.not_mem_nil, rfl, fun _ => rfl, fun _ => ⟨[], .nil, rfl⟩⟩

theorem Assembles.append {text text' : List Str} {declares declares' : Int → List Label} {width width' : Nat}
    {instrs instrs' : List Label → List Instr} (h : Assembles d text declares width instrs)
    (h' : Assembles d text' declares' width' instrs') :
    Assembles d (text ++ text') (fun pos => declares pos ++ declares' (pos + width)) (width + width')
      fun labels => instrs labels ++ instrs' labels := by
  obtain ⟨asm, rfl, hfits, rfl, hdeclares, hstores⟩ := h
  obtain ⟨asm', rfl, hfits', rfl, hdeclares', hstores'⟩ := h'
  refine ⟨asm ++ asm', List.map_append, ?_, size_append asm asm', fun pos => ?_, fun labels => ?_⟩
  · intro l hl
    rcases List.mem_append.1 hl with hl | hl
    · exact hfits l hl
    · exact hfits' l hl
  · rw [positions_append, hdeclares, hdeclares']
  · obtain ⟨code, hcode, hflatten⟩ := hstores labels
    obtain ⟨code', hcode', hflatten'⟩ := hstores' labels
    exact ⟨code ++ code', List.rel_append hcode hcode', by rw [List.flatten_append, hflatten, hflatten']⟩

theorem Means.assembles {text : Str} {declares : Option Str} {instrs : List Label → List Instr} (h : Means d text declares instrs) :
    Assembles d [text] (fun pos => (declares.map fun name => ⟨name, pos⟩).toList) (bytes (instrs [])) instrs := by
  obtain ⟨l, rfl, hfits, rfl, hstores⟩ := h
  refine ⟨[l], rfl, List.forall_mem_singleton.2 hfits, ?_, fun pos => ?_, fun labels => ⟨[instrs labels], ?_, ?_⟩⟩
  · rw [size_cons, size_nil, Nat.add_zero, (hstores []).size]
  · rw [positions, positions, List.append_nil]
  · exact .cons (hstores labels) .nil
  · simp

theorem comment_assembles (s : Str) : Assembles d [';' :: s] (fun _ => []) 0 fun _ => [] :=
  ⟨[⟨_, _, .comment s⟩], rfl, List.forall_mem_singleton.2 trivial, rfl, fun _ => rfl, fun _ =>
    ⟨[[]], .cons (.silent (.inl rfl)) .nil, rfl⟩⟩

end

end CompilerLab.Asm
