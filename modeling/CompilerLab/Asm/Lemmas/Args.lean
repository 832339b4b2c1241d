import CompilerLab.Asm.Lemmas.Decode
import Mathlib.Tactic.FinCases

/-!
# The texts of arguments

How `HandlePushPop` reads the forms of an argument, and what the processor decodes of the bytes it writes.
-/

namespace CompilerLab.Asm

open Lib.Scanf

/-- `rax` to `rjx`. -/
def regName (i : Fin 10) : Str := ['r', Char.ofNat (97 + i), 'x']

/-- The forms of an argument without brackets. -/
inductive ArgText where
  | imm (s : Str)
  | reg (i : Fin 10)
  | immReg (s : Str) (i : Fin 10)
  | regImm (i : Fin 10) (s : Str)

namespace ArgText

def text : ArgText → Str
  | imm s => s
  | reg i => regName i
  | immReg s i => s ++ '+' :: regName i
  | regImm i s => regName i ++ '+' :: s

/-- The text of the immediate value. -/
def number? : ArgText → Option Str
  | imm s => some s
  | reg _ => none
  | immReg s _ => some s
  | regImm _ s => some s

def reg? : ArgText → Option (Fin 10)
  | imm _ => none
  | reg i => some i
  | immReg _ i => some i
  | regImm i _ => some i

/-- The immediate value is a number. -/
def WellFormed (t : ArgText) : Prop := ∀ s, t.number? = some s → IsNumber s

end ArgText

variable {d : Doubles} {a a' : Assembler} {s post : Str} {i : Fin 10} {t : ArgText} {cmd : Commands}

/-! ## Scanning -/

/-- What follows the text of an argument: nothing, or the blank that replaces a bracket. -/
def Post (post : Str) : Prop := post = [] ∨ post = [' ']

theorem Post.ends (h : Post post) : ∀ c t, post = c :: t → Ends c := by
  rintro c t rfl
  rcases h with h | h
  · cases h
  · injection h with hc
    exact hc ▸ ends_space

theorem Post.literal (h : Post post) : literal '+' post = none := by
  rcases h with rfl | rfl <;> rfl

theorem Post.skip (h : Post post) : skip post = [] := by
  rcases h with rfl | rfl <;> rfl

theorem regName_not_isspace (i : Fin 10) : ∀ c ∈ regName i, isspace c = false := by
  fin_cases i <;> simp [regName, isspace]

theorem regName_not_stop (i : Fin 10) : ∀ c ∈ regName i, c ∉ ['+', ' '] := by
  fin_cases i <;> simp [regName]

theorem number_regName (i : Fin 10) (rest : Str) : number (regName i ++ rest) = .mismatch := rfl

theorem GetRegNum_regName (i : Fin 10) (rest : Str) : (GetRegNum (regName i ++ rest)).toInt = i := by
  have h : ∀ i : Fin 10, (GetRegNum (regName i)).toInt = i := by decide
  exact h i

theorem skip_regName (i : Fin 10) (rest : Str) : skip (regName i ++ rest) = regName i ++ rest := rfl

theorem skip_number (h : IsNumber s) (rest : Str) : skip (s ++ rest) = s ++ rest := by
  cases s with
  | nil => exact absurd rfl h.ne_nil
  | cons c s => exact skip_of_not_space (h.not_isspace c List.mem_cons_self) _

theorem scanImmReg_imm (h : IsNumber s) (hpost : Post post) : scanImmReg (s ++ post) = none := by
  rw [scanImmReg, h.number_eq hpost.ends]
  dsimp only
  rw [hpost.literal]

/-- An immediate value is not taken for a sum unless it has a plus inside. -/
theorem scanRegImm_imm (h : IsNumber s) (hplus : s.head? = some '+' ∨ '+' ∉ s) (hpost : Post post) :
    scanRegImm (s ++ post) = none := by
  rw [scanRegImm, skip_number h]
  rcases hplus with hplus | hplus
  · obtain ⟨t, rfl⟩ := List.head?_eq_some_iff.mp hplus
    rw [List.cons_append, except_mismatch List.mem_cons_self]
  · have hstop : ∀ c ∈ s, c ∉ ['+', ' '] := by
      intro c hc hmem
      rcases List.mem_cons.mp hmem with rfl | hmem
      · exact hplus hc
      · obtain rfl := List.mem_singleton.mp hmem
        cases h.not_isspace _ hc
    have hend : ∀ c t, post = c :: t → c ∈ ['+', ' '] := by
      rintro c t rfl
      rcases hpost with hpost | hpost
      · cases hpost
      · injection hpost with hc
        rw [hc]
        decide
    rw [except_eq h.ne_nil hstop hend]
    dsimp only
    rw [hpost.skip]
    rfl

/-- A plus inside makes a sum of the value. -/
theorem scanRegImm_plus (h : IsNumber s) (hhead : s.head? ≠ some '+') (hplus : '+' ∈ s) (hpost : Post post) :
    ∃ p, scanRegImm (s ++ post) = some p := by
  obtain ⟨u, v, rfl, hu⟩ := List.eq_append_cons_of_mem hplus
  have hne : u ≠ [] := by
    rintro rfl
    exact hhead rfl
  have hstop : ∀ c ∈ u, c ∉ ['+', ' '] := by
    intro c hc hmem
    rcases List.mem_cons.mp hmem with rfl | hmem
    · exact hu hc
    · obtain rfl := List.mem_singleton.mp hmem
      cases h.not_isspace _ (List.mem_append_left _ hc)
  have hv := h.after_plus hne
  rw [scanRegImm, skip_number h, List.append_assoc]
  rw [except_eq hne hstop fun c t hct => by injection hct with hc; rw [← hc]; exact List.mem_cons_self]
  dsimp only
  have hskip : literal '+' (skip ('+' :: v ++ post)) = some (v ++ post) := rfl
  simp only [hskip, skip_number hv, hv.number_eq hpost.ends]
  exact ⟨_, rfl⟩

theorem scanImmReg_immReg (h : IsNumber s) (hpost : Post post) :
    scanImmReg (s ++ '+' :: regName i ++ post) = some (s, regName i) := by
  have hends : ∀ c t, '+' :: (regName i ++ post) = c :: t → Ends c := fun c t hct => by
    injection hct with hc
    exact hc ▸ ends_plus
  have hword : word (regName i ++ post) = .item (regName i) post := by
    refine word_eq (by simp [regName]) (regName_not_isspace i) fun c t hct => ?_
    rcases hpost with rfl | rfl
    · cases hct
    · injection hct with hc
      rw [← hc]
      rfl
  have hlit : literal '+' ('+' :: (regName i ++ post)) = some (regName i ++ post) := rfl
  rw [scanImmReg, List.append_assoc, List.cons_append, h.number_eq hends]
  simp only [hlit, hword]

theorem scanImmReg_reg (rest : Str) : scanImmReg (regName i ++ rest) = none := by rw [scanImmReg, number_regName]

theorem scanRegImm_reg (hpost : Post post) : scanRegImm (regName i ++ post) = none := by
  have hend : ∀ c t, post = c :: t → c ∈ ['+', ' '] := by
    rintro c t rfl
    rcases hpost with hpost | hpost
    · cases hpost
    · injection hpost with hc
      rw [hc]
      decide
  rw [scanRegImm, skip_regName, except_eq (by simp [regName]) (regName_not_stop i) hend]
  dsimp only
  rw [hpost.skip]
  rfl

theorem scanRegImm_regImm (h : IsNumber s) (hpost : Post post) :
    scanRegImm (regName i ++ '+' :: s ++ post) = some (s, regName i) := by
  have hend : ∀ c t, '+' :: (s ++ post) = c :: t → c ∈ ['+', ' '] := fun c t hct => by
    injection hct with hc
    rw [← hc]
    exact List.mem_cons_self
  have hskip : literal '+' (skip ('+' :: (s ++ post))) = some (s ++ post) := rfl
  rw [List.append_assoc, scanRegImm, skip_regName, List.cons_append,
    except_eq (by simp [regName]) (regName_not_stop i) hend]
  simp only [hskip, skip_number h, h.number_eq hpost.ends]

/-! ## Reading an argument -/

namespace Arg

/-- The immediate value of what has been read. -/
def value? : Arg → Option Elem
  | immReg x _ => some x
  | imm x => some x
  | reg _ => none

def reg? : Arg → Option Int
  | immReg _ r => some r.toInt
  | imm _ => none
  | reg r => some r.toInt

end Arg

/-- What is read is the argument. -/
def Arg.Is (d : Doubles) (arg : Arg) (t : ArgText) : Prop :=
  arg.value? = t.number?.map d.strtod ∧ arg.reg? = t.reg?.map fun i => (i : Int)

/-- The plus of an exponent is not in the way. -/
def ArgText.NoExponentPlus : ArgText → Prop
  | imm s => s.head? = some '+' ∨ '+' ∉ s
  | _ => True

theorem parseArg_is (h : t.WellFormed) (hplus : t.NoExponentPlus) (hpost : Post post) :
    (parseArg d (t.text ++ post)).Is d t := by
  cases t with
  | imm s =>
      have hs := h s rfl
      have hparse : parseArg d (s ++ post) = .imm (d.strtod s) := by
        rw [parseArg, scanImmReg_imm hs hpost, scanRegImm_imm hs hplus hpost, hs.number_eq hpost.ends]
        rfl
      rw [ArgText.text, hparse]
      exact ⟨rfl, rfl⟩
  | reg i =>
      have hparse : parseArg d (regName i ++ post) = .reg (GetRegNum (regName i ++ post)) := by
        rw [parseArg, scanImmReg_reg, scanRegImm_reg hpost, number_regName]
        rfl
      rw [ArgText.text, hparse]
      exact ⟨rfl, congrArg some (GetRegNum_regName i post)⟩
  | immReg s i =>
      have hparse : parseArg d (s ++ '+' :: regName i ++ post) = .immReg (d.strtod s) (GetRegNum (regName i)) := by
        rw [parseArg, scanImmReg_immReg (h s rfl) hpost]
        rfl
      have hreg := GetRegNum_regName i []
      rw [List.append_nil] at hreg
      rw [ArgText.text, hparse]
      exact ⟨rfl, congrArg some hreg⟩
  | regImm i s =>
      have hparse : parseArg d (regName i ++ '+' :: s ++ post) = .immReg (d.strtod s) (GetRegNum (regName i)) := by
        rw [parseArg, scanRegImm_regImm (h s rfl) hpost, List.append_assoc, scanImmReg_reg]
        rfl
      have hreg := GetRegNum_regName i []
      rw [List.append_nil] at hreg
      rw [ArgText.text, hparse]
      exact ⟨rfl, congrArg some hreg⟩

/-- With the plus of an exponent a register is read. -/
theorem parseArg_plus (h : t.WellFormed) (hplus : ¬ t.NoExponentPlus) (hpost : Post post) :
    (parseArg d (t.text ++ post)).reg? ≠ none := by
  cases t with
  | imm s =>
      have hs := h s rfl
      rw [ArgText.NoExponentPlus, not_or, not_not] at hplus
      obtain ⟨p, hp⟩ := scanRegImm_plus hs hplus.1 hplus.2 hpost
      have hparse : parseArg d (s ++ post) = .immReg (d.strtod p.1) (GetRegNum p.2) := by
        rw [parseArg, scanImmReg_imm hs hpost, hp]
        rfl
      rw [ArgText.text, hparse]
      exact fun hnone => by cases hnone
  | _ => exact absurd trivial hplus

/-- After a blank a register is not recognized. -/
theorem parseArg_blank (d : Doubles) (s : Str) : parseArg d (' ' :: s) =
    match parseArg d s with
    | .reg _ => .reg 0
    | arg => arg := by
  have himm : scanImmReg (' ' :: s) = scanImmReg s := by rw [scanImmReg, scanImmReg, number_space]
  have hreg : scanRegImm (' ' :: s) = scanRegImm s := by rw [scanRegImm, scanRegImm, skip_space]
  have hnum : GetRegNum (' ' :: s) = 0 := if_neg fun h => by cases h.1
  rw [parseArg, parseArg, himm, hreg, number_space, hnum]
  cases (scanImmReg s).or (scanRegImm s) with
  | some p => rfl
  | none => cases number s <;> rfl

/-! ## Brackets -/

theorem ArgText.WellFormed.plain (h : t.WellFormed) :
    t.text ≠ [] ∧ t.text.head? ≠ some '[' ∧ ∀ c ∈ t.text, isspace c = false := by
  have hnumber : ∀ s : Str, IsNumber s → s.head? ≠ some '[' := by
    intro s hs hhead
    obtain ⟨u, rfl⟩ := List.head?_eq_some_iff.mp hhead
    obtain ⟨q, hq, -⟩ := hs
    obtain ⟨q', hn, -⟩ := longest_cons hq
    cases hn
  have hplus : isspace '+' = false := rfl
  cases t with
  | imm s => exact ⟨(h s rfl).ne_nil, hnumber s (h s rfl), (h s rfl).not_isspace⟩
  | reg i => exact ⟨by simp [text, regName], by simp [text, regName], regName_not_isspace i⟩
  | immReg s i =>
      have hs := h s rfl
      refine ⟨by simp [text], ?_, ?_⟩
      · rw [text, List.head?_append_of_ne_nil _ hs.ne_nil]
        exact hnumber s hs
      · intro c hc
        rcases List.mem_append.mp hc with hc | hc
        · exact hs.not_isspace c hc
        · rcases List.mem_cons.mp hc with rfl | hc
          · exact hplus
          · exact regName_not_isspace i c hc
  | regImm i s =>
      have hs := h s rfl
      refine ⟨by simp [text], by simp [text, regName], ?_⟩
      intro c hc
      rcases List.mem_append.mp hc with hc | hc
      · exact regName_not_isspace i c hc
      · rcases List.mem_cons.mp hc with rfl | hc
        · exact hplus
        · exact hs.not_isspace c hc

theorem HandleRam_plain (h : s.head? ≠ some '[') : HandleRam s = some (s, false) := if_neg h

/-- Brackets become blanks when the word with the closing bracket fits into its array. -/
theorem HandleRam_brackets (h : ∀ c ∈ s, isspace c = false) : HandleRam ('[' :: (s ++ [']'])) =
    if s.length + 1 < 10 then some (' ' :: (s ++ [' ']), true) else none := by
  have hnospace : ∀ c ∈ s ++ [']'], isspace c = false := by
    intro c hc
    rcases List.mem_append.mp hc with hc | hc
    · exact h c hc
    · obtain rfl := List.mem_singleton.mp hc
      rfl
  have hword : word (' ' :: (s ++ [']'])) = .item (s ++ [']']) [] := by
    have heq : word (s ++ [']'] ++ []) = .item (s ++ [']']) [] :=
      word_eq (by simp) hnospace fun c t hct => by cases hct
    rwa [List.append_nil, ← word_space] at heq
  have hset : (' ' :: (s ++ [']'])).set ((' ' :: (s ++ [']'])).length - 0 - 1) ' ' = ' ' :: (s ++ [' ']) := by
    have hlen : (' ' :: (s ++ [']'])).length - 0 - 1 = s.length + 1 := by simp
    rw [hlen, List.set_cons_succ, List.set_append_right _ _ (le_refl _), Nat.sub_self]
    rfl
  have hhead : ('[' :: (s ++ [']'])).head? = some '[' := rfl
  rw [HandleRam, if_pos hhead]
  dsimp only [List.tail_cons]
  rw [hword]
  dsimp only
  rw [strcpy, List.length_append, List.length_singleton]
  split
  · rw [← hset]
    rfl
  · rfl

/-! ## Bytes -/

theorem peek_shift (m : Int → Byte) (i j : Int) : peek (fun k => m (i + k)) j = peek m (i + j) := by
  simp only [peek, Int.add_assoc]

theorem byte_at {b : Byte} {m : Int → Byte} {i : Int} : poke m i [b] i = b := by
  have h := @poke_at m i [b] 0 Nat.one_pos
  rwa [Int.natCast_zero, Int.add_zero] at h

theorem decode_eq {code : Int → Byte} {b : Byte} (hb : code 0 = b) (hcmd : cmd.IsPushPop)
    (hof : Commands.ofByte (b &&& CMD_BITMASK) = some cmd) : decode code = some (.arg cmd
      (if hasBit b ARG_IMMED then some (peek code 1) else none)
      (if hasBit b ARG_REG then some (code MULTI_BYTE_OFFSET).toInt else none) (hasBit b ARG_MEM)) := by
  unfold decode
  rw [hb, hof, Option.map_some, if_pos hcmd]

/-- The processor decodes what has been read of an argument. -/
theorem decode_writeArg {ram : Bool} {arg : Arg} (hcmd : cmd.IsPushPop)
    (h : writeArg a (if ram then cmd.byte ||| ARG_MEM else cmd.byte) arg = some a') :
    decode (fun k => a'.commands (a.cur_len + k)) = some (.arg cmd arg.value? arg.reg? ram) := by
  cases arg with
  | immReg x r =>
      obtain ⟨a₁, h₁, hrest⟩ := Option.bind_eq_some_iff.mp h
      obtain ⟨a₂, h₂, h₃⟩ := Option.bind_eq_some_iff.mp hrest
      obtain ⟨-, -, rfl⟩ := write_eq_some h₁
      obtain ⟨-, -, rfl⟩ := write_eq_some h₂
      obtain ⟨-, -, rfl⟩ := write_eq_some h₃
      have hbits : Commands.ofByte (((if ram then cmd.byte ||| ARG_MEM else cmd.byte) ||| ARG_IMMED ||| ARG_REG) &&&
          CMD_BITMASK) = some cmd ∧
          hasBit ((if ram then cmd.byte ||| ARG_MEM else cmd.byte) ||| ARG_IMMED ||| ARG_REG) ARG_IMMED = true ∧
          hasBit ((if ram then cmd.byte ||| ARG_MEM else cmd.byte) ||| ARG_IMMED ||| ARG_REG) ARG_REG = true ∧
          hasBit ((if ram then cmd.byte ||| ARG_MEM else cmd.byte) ||| ARG_IMMED ||| ARG_REG) ARG_MEM = ram := by
        rcases hcmd with rfl | rfl <;> cases ram <;> decide
      rw [decode_eq ?_ hcmd hbits.1, hbits.2.1, hbits.2.2.1, hbits.2.2.2]
      · rw [peek_shift]
        dsimp only [MULTI_BYTE_OFFSET]
        rw [peek_poke_of_lt (by omega), peek_poke, byte_at]
        rfl
      · dsimp only [MULTI_BYTE_OFFSET]
        rw [Int.add_zero, poke_of_lt (by omega), poke_of_lt (by omega), byte_at]
  | imm x =>
      obtain ⟨a₁, h₁, h₂⟩ := Option.bind_eq_some_iff.mp h
      obtain ⟨-, -, rfl⟩ := write_eq_some h₁
      obtain ⟨-, -, rfl⟩ := write_eq_some h₂
      have hbits : Commands.ofByte (((if ram then cmd.byte ||| ARG_MEM else cmd.byte) ||| ARG_IMMED) &&&
          CMD_BITMASK) = some cmd ∧
          hasBit ((if ram then cmd.byte ||| ARG_MEM else cmd.byte) ||| ARG_IMMED) ARG_IMMED = true ∧
          hasBit ((if ram then cmd.byte ||| ARG_MEM else cmd.byte) ||| ARG_IMMED) ARG_REG = false ∧
          hasBit ((if ram then cmd.byte ||| ARG_MEM else cmd.byte) ||| ARG_IMMED) ARG_MEM = ram := by
        rcases hcmd with rfl | rfl <;> cases ram <;> decide
      rw [decode_eq ?_ hcmd hbits.1, hbits.2.1, hbits.2.2.1, hbits.2.2.2]
      · rw [peek_shift]
        dsimp only
        rw [peek_poke]
        rfl
      · dsimp only
        rw [Int.add_zero, poke_of_lt (by omega), byte_at]
  | reg r =>
      obtain ⟨a₁, h₁, h₂⟩ := Option.bind_eq_some_iff.mp h
      obtain ⟨-, -, rfl⟩ := write_eq_some h₁
      obtain ⟨-, -, rfl⟩ := write_eq_some h₂
      have hbits : Commands.ofByte (((if ram then cmd.byte ||| ARG_MEM else cmd.byte) ||| ARG_REG) &&&
          CMD_BITMASK) = some cmd ∧
          hasBit ((if ram then cmd.byte ||| ARG_MEM else cmd.byte) ||| ARG_REG) ARG_IMMED = false ∧
          hasBit ((if ram then cmd.byte ||| ARG_MEM else cmd.byte) ||| ARG_REG) ARG_REG = true ∧
          hasBit ((if ram then cmd.byte ||| ARG_MEM else cmd.byte) ||| ARG_REG) ARG_MEM = ram := by
        rcases hcmd with rfl | rfl <;> cases ram <;> decide
      rw [decode_eq ?_ hcmd hbits.1, hbits.2.1, hbits.2.2.1, hbits.2.2.2]
      · dsimp only [MULTI_BYTE_OFFSET]
        rw [byte_at]
        rfl
      · dsimp only [MULTI_BYTE_OFFSET]
        rw [Int.add_zero, poke_of_lt (by omega), byte_at]

end CompilerLab.Asm
