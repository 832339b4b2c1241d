import CompilerLab.Language.Lemmas.Text
import CompilerLab.Language.Theorems.Compiler

/-!
# Programs through the assembler

The assembler turns the text of a program into commands that stand where the jumps say, so that the processor does what the program
means.
-/

namespace CompilerLab.Language

open Options TreeNode Asm

variable {d : Doubles} {lg : BitVec 64 → Str} {lines : List Line} {RawCmd : List Str}

theorem size_le_length (text : List AsmLine) : size text ≤ 10 * text.length := by
  induction text with
  | nil => exact Nat.zero_le _
  | cons l text ih =>
      have hsize := l.kind.size_le
      rw [size_cons, List.length_cons]
      omega

/-- The commands of a text are in memory after the assembler. -/
theorem Spelled.placed (hd : d.Exact) (hreads : ReadsDecimals d) (hspelled : Spelled lg lines RawCmd) (hknown : AllKnown lines)
    (hreadable : Readable lg lines) (hne : width (blankImage hd lg []) lines ≠ 0) (hlength : RawCmd.length < 100000000) :
    ∃ a, RawToBin d RawCmd = some a ∧ ∃ m : Image, m.d = d ∧ m.number = (fun bits => d.strtod (lg bits)) ∧ m.cmds = a.commands ∧
      m.cmds_amount = a.cur_len ∧ Placed m 8 lines := by
  obtain ⟨asm, rfl, hfits, hsize, hpositions, hstores⟩ := hspelled.assembles hd hreads hknown hreadable.each
  have hnames : declaredNames asm = labelNames lines := by
    rw [← positions_names 8 asm, hpositions 8, labelsAt_names]
  have hdecl : (declaredNames asm).Nodup := hnames ▸ hreadable.labels
  have htext : FitsText asm := ⟨fun h => hne (by rw [← hsize, h]; rfl), hfits, hnames ▸ hreadable.few⟩
  obtain ⟨code, hcode, hflatten⟩ := hstores (positions SERVICE_DATA_LEN asm)
  obtain ⟨b, hb, hcur, hloaded⟩ := RawToBin_loaded htext hdecl hcode
  have hbytes : size asm = bytes code.flatten := size_of_stores hcode
  have hbounded : b.cur_len < 2 ^ 30 := by
    have hle := size_le_length asm
    rw [texts, List.length_map] at hlength
    rw [hcur, SERVICE_DATA_LEN, ← hbytes]
    omega
  let m : Image := { blankImage hd lg (positions SERVICE_DATA_LEN asm) with cmds := b.commands, cmds_amount := b.cur_len, bounded := hbounded }
  have hinstrs : Line.instrs (blankImage hd lg (positions SERVICE_DATA_LEN asm)) = Line.instrs m := instrs_congr rfl rfl rfl
  have hlabels : positions SERVICE_DATA_LEN asm = labelsAt m 8 lines := (hpositions 8).trans (labelsAt_congr _ m 8 lines)
  refine ⟨b, hb, m, rfl, rfl, rfl, rfl, placed_of_loaded (by decide) ?_ ?_ fun name pos' hmem => ?_⟩
  · have hwidth : width m lines = bytes code.flatten := (width_congr m _ lines).trans (hsize.symm.trans hbytes)
    rw [hwidth]
    exact le_of_eq hcur.symm
  · dsimp only at hflatten
    rw [← hinstrs, ← hflatten]
    exact hloaded
  · have hnodup : ((positions SERVICE_DATA_LEN asm).map Label.name).Nodup := by rwa [positions_names]
    rw [← hlabels] at hmem
    change labelPos (positions SERVICE_DATA_LEN asm) name.toList = pos'
    have hfind : (positions SERVICE_DATA_LEN asm).find? (fun l => name.toList == l.name) = some ⟨name.toList, pos'⟩ := find_label hnodup hmem
    rw [labelPos, hfind]

theorem Program.text_runs (hd : d.Exact) (hreads : ReadsDecimals d) {p : Program} {fuel : Nat} {input : List Elem} {console : Console}
    {s : Processor} (hspelled : Spelled lg p.lines RawCmd) (hreadable : Readable lg p.lines) (hlength : RawCmd.length < 100000000)
    (hrun : p.run d (fun bits => d.strtod (lg bits)) fuel input = some console) (hs : Begins s input) :
    ∃ a, RawToBin d RawCmd = some a ∧ ∃ k ip s', Execute d a.commands a.cur_len k 8 s = some (true, ip, s') ∧ OnConsole console s' := by
  have hne : width (blankImage hd lg []) p.lines ≠ 0 := by
    have hcall : bytes ((Line.call "main").instrs (blankImage hd lg [])) = 10 := rfl
    rw [Program.lines, width_cons, hcall]
    omega
  obtain ⟨a, ha, m, rfl, hnumber, hcmds, hamount, hplaced⟩ := hspelled.placed hd hreads p.known hreadable hne hlength
  rw [← hnumber] at hrun
  have hruns := Program.lines_run hplaced hrun hs
  rw [hcmds, hamount] at hruns
  exact ⟨a, ha, hruns⟩

theorem integers_readsDecimals : ReadsDecimals .integers := by
  intro n _
  have hdecimal : Doubles.decimal (toString n).toList = n := by
    obtain ⟨c, t, ht⟩ := List.exists_cons_of_ne_nil (toString_ne_nil n)
    have hc : c ≠ '-' := by
      rintro rfl
      have hdigit : Char.isDigit '-' = true := isDigit_toString (n := n) (by rw [ht]; exact List.mem_cons_self)
      cases hdigit
    have hvalue : Nat.ofDigitChars 10 (toString n).toList 0 = n := by
      rw [Nat.toString_eq_repr, Nat.toList_repr]
      exact Nat.ofDigitChars_ten_toDigits
    rw [ht] at hvalue ⊢
    unfold Doubles.decimal
    split
    · next heq => exact absurd (List.cons.inj heq).1 hc
    · rw [Nat.ofDigitChars_eq_foldl] at hvalue
      exact congrArg Int.ofNat hvalue
  exact congrArg Doubles.encode hdecimal

instance (name : Str) (size : Nat) : Decidable (IsName name size) :=
  decidable_of_iff (name ≠ [] ∧ (name.all fun c => !Lib.Scanf.isspace c) = true ∧ name.length < size)
    ⟨fun h => ⟨h.1, by simpa using h.2.1, h.2.2⟩, fun h => ⟨h.nonempty, by simpa using h.not_isspace, h.fits⟩⟩

instance (line : Line) : Decidable (line.Readable lg) := by
  cases line <;> unfold Line.Readable <;> infer_instance

/-- The text without comments and without blanks behind the operands. -/
def plainText (lg : BitVec 64 → Str) (lines : List Line) : List Str := lines.flatMap fun line => (line.texts lg).headD []

theorem spelled_plainText (h : AllKnown lines) : Spelled lg lines (plainText lg lines) := by
  induction lines with
  | nil => exact .nil
  | cons line lines ih =>
      obtain ⟨hline, hlines⟩ := List.forall_mem_cons.1 h
      refine .line ?_ (ih hlines)
      cases line with
      | instruction text =>
          by_cases hrcx : text = "push rcx" ∨ text = "pop rcx"
          · simp [Line.texts, hrcx]
          · simp [Line.texts, hrcx]
      | introduce _ _ => exact hline.elim
      | _ => exact List.mem_cons_self

/-- `main` reads a number and writes its factorial. -/
def factorial : Program :=
  [{ name := "main", params := [], body := .seq (.input ["x"]) (.seq (.setCall "y" "fact" ["x"]) (.seq (.output ["y"]) (.ret []))) },
    { name := "fact", params := ["n"],
      body := .cond .IS_EE (.variable "n") (.number 0) (.seq (.set "r" (.number (Doubles.encode 1))) (.ret ["r"]))
        (.seq (.set "m" (.binary .SUB (.variable "n") (.number (Doubles.encode 1))))
          (.seq (.setCall "k" "fact" ["m"]) (.seq (.set "r" (.binary .MUL (.variable "n") (.variable "k"))) (.ret ["r"])))) }]

/-- The text of an integer. -/
def integerText (bits : BitVec 64) : Str := (toString (Doubles.decode bits)).toList

end CompilerLab.Language
