import CompilerLab.Asm.Lemmas.Loading
import CompilerLab.Language.Code

/-!
# The text of a program

The lines as the assembler gets them, and which of them it reads as they are meant.
-/

namespace CompilerLab.Language

open Asm Asm.Doubles Lib.Scanf

variable (lg : BitVec 64 → Str)

/-- The texts of a line, where `lg` is the text of a number. Behind some lines with an operand there is a blank. -/
def Line.texts : Line → List (List Str)
  | instruction text =>
      if text = "push rcx" ∨ text = "pop rcx" then [[text.toList], [text.toList ++ [' ']]] else [[text.toList]]
  | push_number bits => [["push ".toList ++ lg bits]]
  | .variable text _ slot =>
      [[text.toList ++ " [".toList ++ (toString slot).toList ++ "+rax]".toList],
        [text.toList ++ " [".toList ++ (toString slot).toList ++ "+rax] ".toList]]
  | shift text amount => [["push ".toList ++ (toString amount).toList, "push rax".toList, text.toList, "pop rax".toList]]
  | call name => [["call ".toList ++ name.toList], ["call ".toList ++ name.toList ++ [' ']]]
  | jump text name => [[text.toList ++ ' ' :: name.toList]]
  | label name => [[name.toList ++ [':']]]
  | introduce _ _ => []

/-- The text of the lines, with comments between them. -/
inductive Spelled : List Line → List Str → Prop
  | nil : Spelled [] []
  | comment {lines : List Line} {RawCmd : List Str} (s : Str) (h : Spelled lines RawCmd) : Spelled lines ((';' :: s) :: RawCmd)
  | line {line : Line} {lines : List Line} {text RawCmd : List Str} (htext : text ∈ line.texts lg) (h : Spelled lines RawCmd) :
      Spelled (line :: lines) (text ++ RawCmd)

/-- A name that is copied into an array of so many characters. -/
structure IsName (name : Str) (size : Nat) : Prop where
  nonempty : name ≠ []
  not_isspace : ∀ c ∈ name, isspace c = false
  fits : name.length < size

/-- The assembler reads the operand, and knows the command. -/
def Line.Readable : Line → Prop
  | push_number bits => IsNumber (lg bits) ∧ '+' ∉ lg bits ∧ (lg bits).length < MAX_CMD_LEN
  | .variable _ _ slot => slot < 10000
  | shift _ amount => amount < 10000
  | call name => IsName name.toList MAX_CMD_LEN
  | jump text name => text ≠ "jae" ∧ IsName name.toList MAX_CMD_LEN
  | label name => IsName name.toList (MAX_CMD_LEN - 1) ∧ name.toList.head? ≠ some ';'
  | _ => True

/-- The labels of lines. -/
def labelNames (lines : List Line) : List Str :=
  lines.filterMap fun line =>
    match line with
    | .label name => some name.toList
    | _ => none

/-- What the assembler needs of a text: readable lines, and labels it can tell apart. -/
structure Readable (lines : List Line) : Prop where
  each : ∀ line ∈ lines, line.Readable lg
  labels : (labelNames lines).Nodup
  few : (labelNames lines).length ≤ MAX_LABELS

/-- Numbers without a sign are read as the integers they are. -/
def ReadsDecimals (d : Doubles) : Prop := ∀ n : Nat, n < 10000 → d.strtod (toString n).toList = d.ofInt n

end CompilerLab.Language
