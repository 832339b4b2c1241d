import CompilerLab.Language.Text
import CompilerLab.Language.Lemmas.Simulation

/-!
# Lines of the generator as lines of the assembler

Each line that is printed is one that the assembler knows, and is stored as the commands of the line.
-/

namespace CompilerLab.Language

open Options TreeNode Asm Lib.Scanf

variable {d : Doubles} {lg : BitVec 64 → Str} {line : Line} {lines : List Line} {names : List String} {n : Nat}

/-! ## The lines of a program -/

/-- The lines there are. -/
def Line.Known : Line → Prop
  | instruction text =>
      text ∈ ["push rcx", "pop rcx"] ∨ text ∈ ["hlt", "end", "add", "sub", "mul", "div", "sin", "sqr", "in", "out", "ret"]
  | .variable text _ slot => text ∈ ["push", "pop"] ∧ 0 ≤ slot
  | shift text _ => text ∈ ["add", "sub"]
  | jump text _ => text ∈ ["jne", "je", "jae", "jmp"]
  | introduce _ _ => False
  | _ => True

theorem instruction_known {text : String}
    (h : text ∈ ["hlt", "end", "add", "sub", "mul", "div", "sin", "sqr", "in", "out", "ret"]) : (Line.instruction text).Known :=
  Or.inr h

theorem rcx_known {text : String} (h : text ∈ ["push rcx", "pop rcx"]) : (Line.instruction text).Known := Or.inl h

theorem shift_known {text : String} (h : text ∈ ["add", "sub"]) (amount : Nat) : (Line.shift text amount).Known := h

/-- All lines are known. -/
abbrev AllKnown (lines : List Line) : Prop := ∀ line ∈ lines, line.Known

theorem allKnown_append {lines' : List Line} : AllKnown (lines ++ lines') ↔ AllKnown lines ∧ AllKnown lines' :=
  List.forall_mem_append

theorem AllKnown.inOrder {first second : List String → List Line} {tree : TreeNode} {last : Line} (hfirst : ∀ names, AllKnown (first names))
    (hsecond : ∀ names, AllKnown (second names)) (hlast : last.Known) (names : List String) :
    AllKnown (inOrder first tree second last names) :=
  allKnown_append.2 ⟨hfirst _, allKnown_append.2 ⟨hsecond _, List.forall_mem_singleton.2 hlast⟩⟩

theorem Expr.known (e : Expr) (names : List String) : AllKnown (e.code names) := by
  induction e generalizing names with
  | number bits => exact List.forall_mem_singleton.2 trivial
  | «variable» name => exact List.forall_mem_singleton.2 ⟨by decide, Int.natCast_nonneg _⟩
  | binary op left right ihleft ihright =>
      cases op with
      | ADD => exact .inOrder ihleft ihright (instruction_known (by decide)) names
      | SUB => exact .inOrder ihright ihleft (instruction_known (by decide)) names
      | MUL => exact .inOrder ihleft ihright (instruction_known (by decide)) names
      | DIV => exact .inOrder ihright ihleft (instruction_known (by decide)) names
  | unary op operand ih =>
      refine allKnown_append.2 ⟨ih names, List.forall_mem_singleton.2 (instruction_known ?_)⟩
      cases op <;> decide

theorem Comparison.known (c : Comparison) (left right : Expr) (label : String) (names : List String) :
    AllKnown (c.code left right label names) := by
  cases c with
  | IS_EE => exact .inOrder left.known right.known (by decide : "jne" ∈ _) names
  | IS_NE => exact .inOrder left.known right.known (by decide : "je" ∈ _) names
  | IS_BT => exact .inOrder right.known left.known (by decide : "jae" ∈ _) names

theorem params_known {code : String → Nat → List Line} (hcode : ∀ name slot, AllKnown (code name slot)) (params names : List String) :
    AllKnown (paramsCode code params names) := by
  induction params generalizing names with
  | nil => exact fun _ hline => absurd hline List.not_mem_nil
  | cons name params ih => exact allKnown_append.2 ⟨hcode _ _, ih _⟩

theorem popLine_known (name : String) (slot : Nat) : AllKnown (popLine name slot) :=
  List.forall_mem_singleton.2 ⟨by decide, Int.natCast_nonneg _⟩

theorem pushLine_known (name : String) (slot : Nat) : AllKnown (pushLine name slot) :=
  List.forall_mem_singleton.2 ⟨by decide, Int.natCast_nonneg _⟩

theorem inLines_known (name : String) (slot : Nat) : AllKnown (inLines name slot) :=
  List.forall_mem_cons.2 ⟨instruction_known (by decide), popLine_known name slot⟩

theorem outLines_known (name : String) (slot : Nat) : AllKnown (outLines name slot) :=
  List.forall_mem_cons.2 ⟨⟨by decide, Int.natCast_nonneg _⟩, List.forall_mem_singleton.2 (instruction_known (by decide))⟩

theorem callCode_known (func_name : String) (args names : List String) : AllKnown (callCode func_name args names) := by
  refine allKnown_append.2 ⟨params_known pushLine_known args names, ?_⟩
  exact List.forall_mem_cons.2 ⟨shift_known (by decide) _, List.forall_mem_cons.2 ⟨trivial,
    List.forall_mem_singleton.2 (shift_known (by decide) _)⟩⟩

theorem Stmt.known (stmt : Stmt) (names : List String) (n : Nat) : AllKnown (stmt.code names n) := by
  induction stmt generalizing names n with
  | skip => exact fun _ hline => absurd hline List.not_mem_nil
  | seq first rest ihfirst ihrest => exact allKnown_append.2 ⟨ihfirst _ _, ihrest _ _⟩
  | set name value => exact allKnown_append.2 ⟨value.known _, popLine_known _ _⟩
  | setCall name func_name args => exact allKnown_append.2 ⟨callCode_known _ _ _, popLine_known _ _⟩
  | call func_name args => exact callCode_known _ _ _
  | input params => exact params_known inLines_known _ _
  | output params => exact params_known outLines_known _ _
  | cond comparison left right if_body else_body ihif ihelse =>
      refine allKnown_append.2 ⟨comparison.known _ _ _ _, allKnown_append.2 ⟨ihif _ _, ?_⟩⟩
      refine List.forall_mem_cons.2 ⟨(by decide : "jmp" ∈ _), List.forall_mem_cons.2 ⟨trivial, ?_⟩⟩
      exact allKnown_append.2 ⟨ihelse _ _, List.forall_mem_singleton.2 trivial⟩
  | ret params =>
      refine List.forall_mem_cons.2 ⟨rcx_known (by decide), allKnown_append.2 ⟨params_known pushLine_known _ _, ?_⟩⟩
      exact List.forall_mem_cons.2 ⟨rcx_known (by decide), List.forall_mem_singleton.2 (instruction_known (by decide))⟩

theorem Func.known (f : Func) (n : Nat) : AllKnown (f.code n) := by
  refine List.forall_mem_cons.2 ⟨trivial, List.forall_mem_cons.2 ⟨rcx_known (by decide), ?_⟩⟩
  refine allKnown_append.2 ⟨params_known popLine_known _ _, ?_⟩
  exact List.forall_mem_cons.2 ⟨rcx_known (by decide), f.body.known _ _⟩

theorem Program.code_known (p : Program) (n : Nat) : AllKnown (p.code n) := by
  induction p generalizing n with
  | nil => exact fun _ hline => absurd hline List.not_mem_nil
  | cons f p ih => exact allKnown_append.2 ⟨f.known n, ih _⟩

theorem Program.known (p : Program) : AllKnown p.lines := by
  refine List.forall_mem_cons.2 ⟨trivial, List.forall_mem_cons.2 ⟨instruction_known (by decide), ?_⟩⟩
  exact allKnown_append.2 ⟨p.code_known 0, List.forall_mem_singleton.2 (instruction_known (by decide))⟩

/-! ## One line -/

/-- What numbers and jumps are stored as when these are the labels; nothing is in memory. -/
def blankImage (hd : d.Exact) (lg : BitVec 64 → Str) (labels : List Label) : Image where
  d
  exact := hd
  number bits := d.strtod (lg bits)
  labelPos name := labelPos labels name.toList
  cmds := fun _ => 0
  cmds_amount := 0
  bounded := by decide

/-- The labels of a line that begins at a position. -/
def Line.declares : Line → Int → List Label
  | .label name, pos => [⟨name.toList, pos⟩]
  | _, _ => []

/-- `push` with an integer that is not negative. -/
theorem push_nat_means (hreads : ReadsDecimals d) {amount : Nat} (h : amount < 10000) :
    Means d ("push ".toList ++ (toString amount).toList) none fun _ => [.arg .PUSH (some (d.ofInt amount)) none false] := by
  have hlength : ((ArgText.imm (toString amount).toList).text ++ []).length < MAX_CMD_LEN := by
    have hle := length_toString_le h
    rw [List.append_nil, ArgText.text, MAX_CMD_LEN]
    omega
  have hmeans : Means d _ none _ := arg_means (d := d) (t := .imm (toString amount).toList) (Or.inl rfl : Commands.PUSH.IsPushPop)
    (fun s hs => by cases hs; exact isNumber_toString amount) (.inr (not_plus_toString amount)) (.inl rfl) hlength
  rw [ArgText.number?, Option.map_some, hreads amount h, List.append_nil] at hmeans
  exact hmeans

theorem IsName.word {name rest : Str} {size : Nat} (h : IsName name size) (hrest : Separated rest) : word (name ++ rest) = .item name rest :=
  word_eq h.nonempty h.not_isspace hrest

section
variable (hd : d.Exact) {text : List Str}
include hd

theorem Line.assembles_of_means {declares : Option Str} {s : Str} (h : Means d s declares fun labels => line.instrs (blankImage hd lg labels))
    (hdeclares : ∀ pos, line.declares pos = (declares.map fun name => ⟨name, pos⟩).toList) :
    Assembles d [s] line.declares (bytes (line.instrs (blankImage hd lg []))) fun labels => line.instrs (blankImage hd lg labels) := by
  have hassembles := h.assembles
  rwa [← funext hdeclares] at hassembles

theorem instruction_assembles {name : String} (hknown : (Line.instruction name).Known) (htext : text ∈ (Line.instruction name).texts lg) :
    Assembles d text (Line.instruction name).declares (bytes ((Line.instruction name).instrs (blankImage hd lg [])))
      fun labels => (Line.instruction name).instrs (blankImage hd lg labels) := by
  have hrcx : ∀ cmd : Commands, cmd.IsPushPop → ∀ post, Post post →
      Means d (cmd.name ++ ' ' :: ((ArgText.reg 2).text ++ post)) none fun _ => [.arg cmd none (some 2) false] := by
    intro cmd hcmd post hpost
    have hlength : ((ArgText.reg 2).text ++ post).length < MAX_CMD_LEN := by rcases hpost with rfl | rfl <;> decide
    exact arg_means hcmd (fun s hs => by cases hs) trivial hpost hlength
  have hplain : ∀ cmd : Commands, ¬ cmd.IsPushPop → ¬ cmd.IsJump → Means d cmd.name none fun _ => [.plain cmd] :=
    fun cmd hp hj => plain_means hp hj
  rcases hknown with hknown | hknown
  · simp only [List.mem_cons, List.not_mem_nil, or_false] at hknown
    rcases hknown with rfl | rfl
    · rcases List.mem_cons.1 htext with rfl | htext
      · exact Line.assembles_of_means hd (hrcx .PUSH (by decide) [] (.inl rfl)) fun _ => rfl
      · obtain rfl := List.mem_singleton.1 htext
        exact Line.assembles_of_means hd (hrcx .PUSH (by decide) [' '] (.inr rfl)) fun _ => rfl
    · rcases List.mem_cons.1 htext with rfl | htext
      · exact Line.assembles_of_means hd (hrcx .POP (by decide) [] (.inl rfl)) fun _ => rfl
      · obtain rfl := List.mem_singleton.1 htext
        exact Line.assembles_of_means hd (hrcx .POP (by decide) [' '] (.inr rfl)) fun _ => rfl
  · simp only [List.mem_cons, List.not_mem_nil, or_false] at hknown
    rcases hknown with rfl | rfl | rfl | rfl | rfl | rfl | rfl | rfl | rfl | rfl | rfl
    all_goals obtain rfl := List.mem_singleton.1 htext
    · exact Line.assembles_of_means hd (hplain .HLT (by decide) (by decide)) fun _ => rfl
    · exact Line.assembles_of_means hd (hplain .END (by decide) (by decide)) fun _ => rfl
    · exact Line.assembles_of_means hd (hplain .ADD (by decide) (by decide)) fun _ => rfl
    · exact Line.assembles_of_means hd (hplain .SUB (by decide) (by decide)) fun _ => rfl
    · exact Line.assembles_of_means hd (hplain .MUL (by decide) (by decide)) fun _ => rfl
    · exact Line.assembles_of_means hd (hplain .DIV (by decide) (by decide)) fun _ => rfl
    · exact Line.assembles_of_means hd (hplain .SIN (by decide) (by decide)) fun _ => rfl
    · exact Line.assembles_of_means hd (hplain .SQR (by decide) (by decide)) fun _ => rfl
    · exact Line.assembles_of_means hd (hplain .IN (by decide) (by decide)) fun _ => rfl
    · exact Line.assembles_of_means hd (hplain .OUT (by decide) (by decide)) fun _ => rfl
    · exact Line.assembles_of_means hd (hplain .RET (by decide) (by decide)) fun _ => rfl

theorem shift_assembles (hreads : ReadsDecimals d) {name : String} {amount : Nat} (hknown : (Line.shift name amount).Known)
    (hreadable : amount < 10000) (htext : text ∈ (Line.shift name amount).texts lg) :
    Assembles d text (Line.shift name amount).declares (bytes ((Line.shift name amount).instrs (blankImage hd lg [])))
      fun labels => (Line.shift name amount).instrs (blankImage hd lg labels) := by
  obtain rfl := List.mem_singleton.1 htext
  have hrax : ∀ cmd : Commands, cmd.IsPushPop →
      Means d (cmd.name ++ ' ' :: ((ArgText.reg 0).text ++ [])) none fun _ => [.arg cmd none (some 0) false] :=
    fun cmd hcmd => arg_means hcmd (fun s hs => by cases hs) trivial (.inl rfl) (by decide)
  have hplain : ∀ cmd : Commands, ¬ cmd.IsPushPop → ¬ cmd.IsJump → Means d cmd.name none fun _ => [.plain cmd] :=
    fun cmd hp hj => plain_means hp hj
  have hpush := (push_nat_means hreads hreadable).assembles.append (hrax .PUSH (by decide)).assembles
  have hpop := (hrax .POP (by decide)).assembles
  simp only [Line.Known, List.mem_cons, List.not_mem_nil, or_false] at hknown
  rcases hknown with rfl | rfl
  · exact hpush.append ((hplain .ADD (by decide) (by decide)).assembles.append hpop)
  · exact hpush.append ((hplain .SUB (by decide) (by decide)).assembles.append hpop)

theorem variable_assembles (hreads : ReadsDecimals d) {name var : String} {slot : Int} (hknown : (Line.variable name var slot).Known)
    (hreadable : slot < 10000) (htext : text ∈ (Line.variable name var slot).texts lg) :
    Assembles d text (Line.variable name var slot).declares (bytes ((Line.variable name var slot).instrs (blankImage hd lg [])))
      fun labels => (Line.variable name var slot).instrs (blankImage hd lg labels) := by
  obtain ⟨hname, hslot⟩ := hknown
  obtain ⟨k, rfl⟩ := Int.eq_ofNat_of_zero_le hslot
  have hk : k < 10000 := by exact_mod_cast hreadable
  have hlength : ((toString k).toList ++ '+' :: regName 0).length + 1 < 10 := by
    have hle := length_toString_le hk
    have hreg : ('+' :: regName 0).length = 4 := rfl
    rw [List.length_append, hreg]
    omega
  have hram : ∀ cmd : Commands, cmd.IsPushPop → ∀ post, Post post →
      Means d (cmd.name ++ ' ' :: '[' :: ((toString k).toList ++ ('+' :: regName 0 ++ ']' :: post))) none
        fun _ => [.arg cmd (some (d.ofInt k)) (some 0) true] := by
    intro cmd hcmd post hpost
    have hmeans : Means d _ none _ := ram_means (d := d) (i := 0) hcmd (isNumber_toString k) hlength hpost
    rw [hreads k hk, List.append_assoc] at hmeans
    exact hmeans
  simp only [List.mem_cons, List.not_mem_nil, or_false] at hname
  rcases hname with rfl | rfl
  · rcases List.mem_cons.1 htext with rfl | htext
    · exact Line.assembles_of_means hd (hram .PUSH (by decide) [] (.inl rfl)) fun _ => rfl
    · obtain rfl := List.mem_singleton.1 htext
      exact Line.assembles_of_means hd (hram .PUSH (by decide) [' '] (.inr rfl)) fun _ => rfl
  · rcases List.mem_cons.1 htext with rfl | htext
    · exact Line.assembles_of_means hd (hram .POP (by decide) [] (.inl rfl)) fun _ => rfl
    · obtain rfl := List.mem_singleton.1 htext
      exact Line.assembles_of_means hd (hram .POP (by decide) [' '] (.inr rfl)) fun _ => rfl

theorem Line.assembles (hreads : ReadsDecimals d) (hknown : line.Known) (hreadable : line.Readable lg) (htext : text ∈ line.texts lg) :
    Assembles d text line.declares (bytes (line.instrs (blankImage hd lg []))) fun labels => line.instrs (blankImage hd lg labels) := by
  cases line with
  | instruction name => exact instruction_assembles hd hknown htext
  | push_number bits =>
      obtain rfl := List.mem_singleton.1 htext
      obtain ⟨hnumber, hplus, hlength⟩ := hreadable
      have hmeans : Means d _ none _ := arg_means (d := d) (t := .imm (lg bits)) (Or.inl rfl : Commands.PUSH.IsPushPop)
        (fun s hs => by cases hs; exact hnumber) (.inr hplus) (.inl rfl) (by rwa [List.append_nil])
      rw [List.append_nil] at hmeans
      exact Line.assembles_of_means hd hmeans fun _ => rfl
  | «variable» name var slot => exact variable_assembles hd hreads hknown hreadable htext
  | shift name amount => exact shift_assembles hd hreads hknown hreadable htext
  | call name =>
      have hcall : ∀ rest, Separated rest →
          Means d (Commands.CALL.name ++ ' ' :: (name.toList ++ rest)) none
            fun labels => [.jump .CALL (d.ofInt (labelPos labels name.toList))] :=
        fun rest hrest => jump_means (by decide) rfl (hreadable.word hrest) hreadable.fits
      rcases List.mem_cons.1 htext with rfl | htext
      · have hmeans := hcall [] separated_nil
        rw [List.append_nil] at hmeans
        exact Line.assembles_of_means hd hmeans fun _ => rfl
      · obtain rfl := List.mem_singleton.1 htext
        exact Line.assembles_of_means hd (hcall [' '] (separated_blank [])) fun _ => rfl
  | jump name label =>
      obtain ⟨hjae, hlabel⟩ := hreadable
      obtain rfl := List.mem_singleton.1 htext
      have hjump : ∀ cmd : Commands, cmd.IsJump → cmd.found = cmd → Means d (cmd.name ++ ' ' :: label.toList) none
          fun labels => [.jump cmd (d.ofInt (labelPos labels label.toList))] := by
        intro cmd hcmd hfound
        have hmeans : Means d _ none _ := jump_means (d := d) hcmd hfound (hlabel.word separated_nil) hlabel.fits
        rwa [List.append_nil] at hmeans
      simp only [Line.Known, List.mem_cons, List.not_mem_nil, or_false] at hknown
      rcases hknown with rfl | rfl | rfl | rfl
      · exact Line.assembles_of_means hd (hjump .JNE (by decide) rfl) fun _ => rfl
      · exact Line.assembles_of_means hd (hjump .JE (by decide) rfl) fun _ => rfl
      · exact absurd rfl hjae
      · exact Line.assembles_of_means hd (hjump .JMP (by decide) rfl) fun _ => rfl
  | label name =>
      obtain ⟨hname, hcomment⟩ := hreadable
      obtain rfl := List.mem_singleton.1 htext
      have hlabel : IsName (name.toList ++ [':']) MAX_CMD_LEN := by
        refine ⟨by simp, fun c hc => ?_, ?_⟩
        · rcases List.mem_append.1 hc with hc | hc
          · exact hname.not_isspace c hc
          · obtain rfl := List.mem_singleton.1 hc
            rfl
        · have hfits := hname.fits
          rw [List.length_append, List.length_singleton]
          omega
      have hword := hlabel.word separated_nil
      rw [List.append_nil] at hword
      have hhead : (name.toList ++ [':']).head? ≠ some ';' := by
        rwa [List.head?_append_of_ne_nil _ hname.nonempty]
      exact Line.assembles_of_means hd (label_means hword hhead hlabel.fits) fun _ => rfl
  | introduce _ _ => exact hknown.elim

/-! ## Whole texts -/

/-- The labels of lines that begin at a position. -/
def labelsAt (m : Image) (pos : Int) : List Line → List Label
  | [] => []
  | line :: lines => line.declares pos ++ labelsAt m (pos + bytes (line.instrs m)) lines

omit hd in
theorem labelsAt_names (m : Image) (pos : Int) (lines : List Line) : (labelsAt m pos lines).map Label.name = labelNames lines := by
  induction lines generalizing pos with
  | nil => rfl
  | cons line lines ih =>
      rw [labelsAt, List.map_append, ih, labelNames, labelNames, List.filterMap_cons]
      cases line <;> rfl

theorem Spelled.assembles (hreads : ReadsDecimals d) {RawCmd : List Str} (h : Spelled lg lines RawCmd) (hknown : AllKnown lines)
    (hreadable : ∀ line ∈ lines, line.Readable lg) :
    Assembles d RawCmd (labelsAt (blankImage hd lg []) · lines) (width (blankImage hd lg []) lines)
      fun labels => lines.flatMap (Line.instrs (blankImage hd lg labels)) := by
  induction h with
  | nil => exact .nil
  | comment s _ ih =>
      have hassembles := (comment_assembles (d := d) s).append (ih hknown hreadable)
      simpa using hassembles
  | line htext _ ih =>
      obtain ⟨hline, hlines⟩ := List.forall_mem_cons.1 hknown
      obtain ⟨hline', hlines'⟩ := List.forall_mem_cons.1 hreadable
      rw [width_cons]
      exact (Line.assembles hd hreads hline hline' htext).append (ih hlines hlines')

omit hd in
/-- Nothing of the memory is in the commands of a line. -/
theorem instrs_congr {m m' : Image} (hd : m.d = m'.d) (hnumber : m.number = m'.number) (hlabel : m.labelPos = m'.labelPos) :
    Line.instrs m = Line.instrs m' := by
  funext line
  cases line <;> simp [Line.instrs, hd, hnumber, hlabel]

omit hd in
/-- How many bytes a line takes does not depend on the numbers and the labels. -/
theorem bytes_instrs (m m' : Image) (line : Line) : bytes (line.instrs m) = bytes (line.instrs m') := by
  cases line with
  | jump text name =>
      simp only [Line.instrs, jumpInstr]
      cases Commands.table.find? fun entry => entry.1 = text.toList <;> rfl
  | _ => rfl

omit hd in
theorem labelsAt_congr (m m' : Image) (pos : Int) (lines : List Line) : labelsAt m pos lines = labelsAt m' pos lines := by
  induction lines generalizing pos with
  | nil => rfl
  | cons line lines ih => rw [labelsAt, labelsAt, ih, bytes_instrs m m']

omit hd in
theorem width_congr (m m' : Image) (lines : List Line) : width m lines = width m' lines := by
  induction lines with
  | nil => rfl
  | cons line lines ih => rw [width_cons, width_cons, ih, bytes_instrs m m']

omit hd in
/-- Commands that stand in memory where the labels are as the jumps say. -/
theorem placed_of_loaded {m : Image} {pos : Int} (hpos : 0 < pos) (hend : pos + width m lines ≤ m.cmds_amount)
    (hloaded : Loaded m.cmds pos (lines.flatMap (Line.instrs m)))
    (hlabels : ∀ name pos', ⟨String.toList name, pos'⟩ ∈ labelsAt m pos lines → m.labelPos name = pos') : Placed m pos lines := by
  induction lines generalizing pos with
  | nil => trivial
  | cons line lines ih =>
      rw [width_cons] at hend
      rw [List.flatMap_cons, loaded_append] at hloaded
      push_cast at hend
      refine ⟨hpos, by omega, hloaded.1, ?_, ih (by omega) (by omega) hloaded.2 fun name pos' hmem => ?_⟩
      · rintro name rfl
        exact hlabels name pos (List.mem_append_left _ List.mem_cons_self)
      · exact hlabels name pos' (List.mem_append_right _ hmem)

end

end CompilerLab.Language
