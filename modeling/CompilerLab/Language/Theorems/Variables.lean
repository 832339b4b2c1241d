import CompilerLab.Language.Lemmas.Tree
import CompilerLab.Language.Lemmas.Variables

/-!
# When variables keep their slots

The amount for a call is the number of names before its parameters, and parameters may add more names than the one it leaves room
for. A function that has more names than the table has room for loses them to the functions in it.
-/

namespace CompilerLab.Language

open Options TreeNode

section
variable {names names' : List String} {lines : List Line}

theorem Slots.nodup (h : Slots names lines names') (hnames : names.Nodup) : names'.Nodup := by
  induction h with
  | nil => exact hnames
  | introduce hnew _ ih => exact ih (List.nodup_append.2 ⟨hnames, List.nodup_singleton _, fun a ha b hb => by
      rw [List.mem_singleton.1 hb]
      exact fun heq => hnew (heq ▸ ha)⟩)
  | «variable» _ _ ih => exact ih hnames
  | plain _ _ ih => exact ih hnames

theorem Slots.slot (h : Slots names lines names') {instruction name : String} {slot : Int}
    (hline : .variable instruction name slot ∈ lines) : ∃ k : Nat, slot = k ∧ names'[k]? = some name := by
  induction h with
  | nil => cases hline
  | introduce _ _ ih => exact ih (by simpa using hline)
  | «variable» hslot h ih =>
      obtain heq | hline := List.mem_cons.1 hline
      · cases heq
        obtain ⟨more, hmore⟩ := h.isPrefix
        refine ⟨_, rfl, ?_⟩
        rw [← hmore, List.getElem?_append_left (List.getElem?_eq_some_iff.1 hslot).1]
        exact hslot
      · exact ih hline
  | plain hplain _ ih =>
      obtain heq | hline := List.mem_cons.1 hline
      · cases heq
        exact hplain.elim
      · exact ih hline

theorem forall_split_cons {line : Line} {holds : List Line → Nat → Prop} :
    (∀ before after amount, line :: lines = before ++ .shift "add" amount :: after → holds before amount) ↔
      (∀ amount, line = .shift "add" amount → holds [] amount) ∧
        ∀ before after amount, lines = before ++ .shift "add" amount :: after → holds (line :: before) amount := by
  constructor
  · intro h
    exact ⟨fun amount heq => h [] lines amount (congrArg (· :: lines) heq),
      fun before after amount heq => h (line :: before) after amount (congrArg (line :: ·) heq)⟩
  · rintro ⟨hfirst, hrest⟩ before after amount heq
    cases before with
    | nil => exact hfirst amount (List.cons.inj heq).1
    | cons other before =>
        obtain ⟨rfl, hlines⟩ := List.cons.inj heq
        exact hrest before after amount hlines

theorem Clear.shift_iff {n : Nat} {line : Line} (hline : line.IsPlain) :
    Clear n [line] ↔ ∀ amount, line = .shift "add" amount → n ≤ amount := by
  cases line with
  | «variable» _ _ _ => exact hline.elim
  | introduce _ _ => exact hline.elim
  | shift instruction amount => simp [Clear, and_comm]
  | _ => simp [Clear]

/-- Every amount is above the number of names there are, and above the slots that are introduced before it. -/
theorem Slots.clear_iff (h : Slots names lines names') :
    Clear names.length lines ↔ ∀ before after amount, lines = before ++ .shift "add" amount :: after →
      names.length ≤ amount ∧ ∀ name slot, .introduce name slot ∈ before → slot < amount := by
  induction h with
  | nil => simp [Clear]
  | @introduce names _ lines name hnew _ ih =>
      rw [List.length_append] at ih
      rw [forall_split_cons]
      refine ih.trans ?_
      simp only [reduceCtorEq, false_implies, implies_true, true_and, List.mem_cons, Line.introduce.injEq]
      refine forall₃_congr fun before after amount => imp_congr_right fun _ => ?_
      constructor
      · rintro ⟨hlength, hslots⟩
        rw [List.length_singleton] at hlength
        refine ⟨by omega, ?_⟩
        rintro other slot (⟨rfl, rfl⟩ | hother)
        · exact hlength
        · exact hslots other slot hother
      · rintro ⟨-, hslots⟩
        exact ⟨hslots name names.length (.inl ⟨rfl, rfl⟩), fun other slot hother => hslots other slot (.inr hother)⟩
  | @«variable» names _ lines instruction name slot hslot h ih =>
      rw [forall_split_cons]
      refine ih.trans ?_
      simp
  | @plain names _ lines line hplain _ ih =>
      have hne : ∀ name slot, Line.introduce name slot ≠ line := by
        rintro name slot rfl
        exact hplain
      rw [forall_split_cons, Clear.plain hplain, Clear.shift_iff hplain, ih]
      simp [hne]

theorem framesClear_iff {text : List (Place × Line)} (h : ∀ function : List Bool, ∃ names, Slots [] (linesOf (some function) text) names) :
    FramesClear text ↔ Frames none 0 text := by
  constructor
  · intro hclear
    refine ⟨fun hnone => (by cases hnone), fun other hother => ?_⟩
    obtain ⟨function, rfl⟩ := Option.ne_none_iff_exists'.1 hother
    obtain ⟨names, hslots⟩ := h function
    exact hslots.clear_iff.2 fun before after amount heq => ⟨Nat.zero_le _, hclear function before after amount heq⟩
  · rintro ⟨-, hframes⟩ function before after amount heq
    obtain ⟨names, hslots⟩ := h function
    exact (hslots.clear_iff.1 (hframes (some function) (Option.some_ne_none _)) before after amount heq).2

theorem slotsAgree_of_slots {text : List (Place × Line)}
    (h : ∀ function : List Bool, ∃ names, Slots [] (linesOf (some function) text) names) : SlotsAgree text := by
  intro function instruction name slot hline
  obtain ⟨names, hslots⟩ := h function
  obtain ⟨k, rfl, hk⟩ := hslots.slot hline
  refine ⟨by omega, fun instruction' name' slot' hline' => ?_⟩
  obtain ⟨k', rfl, hk'⟩ := hslots.slot hline'
  have hnodup : names.Nodup := hslots.nodup List.nodup_nil
  constructor
  · rintro rfl
    obtain ⟨hlt, hget⟩ := List.getElem?_eq_some_iff.1 hk
    obtain ⟨hlt', hget'⟩ := List.getElem?_eq_some_iff.1 hk'
    exact_mod_cast (hnodup.getElem_inj_iff).1 (hget.trans hget'.symm)
  · intro heq
    have heq : k = k' := by exact_mod_cast heq
    rw [heq, hk'] at hk
    exact (Option.some.inj hk).symm

end

/-! ## When they do -/

/-- What has been printed when the generator completes, or stops. -/
def generatedText (env : Environment) (root : TreeNode) : List (Place × Line) :=
  match printCmdsInFile Namespaces.names env root startState with
  | .ok _ s => s.text
  | .error _ s => s.text

theorem slots_iff {token_array : List Token} {fuel : Nat} {root : TreeNode} (h : getGrammar token_array fuel = .ok root)
    (hfits : root.DeclarationsFit false []) (env : Environment) :
    (root.CallsFit false [] → SlotsAgree (generatedText env root) ∧ FramesClear (generatedText env root)) ∧
      ∀ s, printCmdsInFile Namespaces.names env root startState = .ok () s →
        (SlotsAgree s.text ∧ FramesClear s.text ↔ root.CallsFit false []) := by
  have hrun := @printCmdsInFile_writes env root (getGrammar_block h) hfits startState startState_represents
  have hslots : ∀ {added : List (Place × Line)} {names : List String}, Written (below []) none [] added names →
      ∀ function : List Bool, ∃ names, Slots [] (linesOf (some function) added) names :=
    fun hwritten function => hwritten.whole (some function) (Option.some_ne_none _)
  constructor
  · intro hcalls
    unfold generatedText
    cases hend : printCmdsInFile Namespaces.names env root startState with
    | ok a s =>
        obtain ⟨-, added, htext, hwritten, hframes⟩ := hrun.of_ok hend
        obtain rfl : s.text = added := htext
        exact ⟨slotsAgree_of_slots (hslots hwritten), (framesClear_iff (hslots hwritten)).2 (hframes.2 hcalls)⟩
    | error fault s =>
        obtain ⟨added, stop, htext, hwritten, hframes⟩ := hrun.of_error hend
        obtain rfl : s.text = added := htext
        exact ⟨slotsAgree_of_slots (hslots hwritten), (framesClear_iff (hslots hwritten)).2 (hframes hcalls)⟩
  · intro s hend
    obtain ⟨-, added, htext, hwritten, hframes⟩ := hrun.of_ok hend
    obtain rfl : s.text = added := htext
    refine (and_iff_right (slotsAgree_of_slots (hslots hwritten))).trans ?_
    exact (framesClear_iff (hslots hwritten)).trans hframes

/-- A function `main` that sets `x` to 1. -/
def mainWithVariable : List Token :=
  [createToken FUNC, { type := .VAR_T, value := 0x1000#64, name := "main" }, createToken OPEN_BR, createToken CLOSE_BR,
    createToken VAR, { type := .VAR_T, value := 0x1010#64, name := "x" },
    { type := .NUM_T, value := 0x3ff0000000000000#64, name := "" }, createToken CLOSE_BR, createToken TERMINATION_SYM]

def mainWithVariableTree : TreeNode :=
  OP_NODE .ST
    (OP_NODE FUNC (.node .NAME_T (.var_name "main") .null .null)
      (OP_NODE .ST (OP_NODE VAR (VAR_NODE "x") (DIGIT_NODE 0x3ff0000000000000#64)) .null)) .null

theorem slots_iff_main :
    (mainWithVariableTree.CallsFit false [] → SlotsAgree (generatedText { text := fun _ => none } mainWithVariableTree) ∧
        FramesClear (generatedText { text := fun _ => none } mainWithVariableTree)) ∧
      ∀ s, printCmdsInFile Namespaces.names { text := fun _ => none } mainWithVariableTree startState = .ok () s →
        (SlotsAgree s.text ∧ FramesClear s.text ↔ mainWithVariableTree.CallsFit false []) :=
  slots_iff (show getGrammar mainWithVariable 20 = .ok mainWithVariableTree from rfl)
    (by simp [mainWithVariableTree, OP_NODE, DeclarationsFit]) _

/-- A function `main` that calls `f` with two variables it does not have. -/
def callWithNewNames : List Token :=
  [createToken FUNC, { type := .VAR_T, value := 0x1000#64, name := "main" }, createToken OPEN_BR, createToken CLOSE_BR,
    createToken CALL, { type := .VAR_T, value := 0x1010#64, name := "f" }, createToken OPEN_BR,
    { type := .VAR_T, value := 0x1020#64, name := "a" }, { type := .VAR_T, value := 0x1030#64, name := "b" },
    createToken CLOSE_BR, createToken CLOSE_BR, createToken TERMINATION_SYM]

def callWithNewNamesTree : TreeNode :=
  OP_NODE .ST
    (OP_NODE FUNC (.node .NAME_T (.var_name "main") .null .null)
      (OP_NODE .ST
        (OP_NODE CALL (.node .NAME_SHORT_T (.var_name "f") .null .null)
          (OP_NODE PARAM (VAR_NODE "a") (OP_NODE PARAM (VAR_NODE "b") .null))) .null)) .null

theorem callWithNewNames_not_clear :
    getGrammar callWithNewNames 20 = .ok callWithNewNamesTree ∧
      ¬(SlotsAgree (generatedText { text := fun _ => none } callWithNewNamesTree) ∧
        FramesClear (generatedText { text := fun _ => none } callWithNewNamesTree)) := by
  refine ⟨rfl, fun h => ?_⟩
  have hlines : linesOf (some [false]) (generatedText { text := fun _ => none } callWithNewNamesTree) =
      [.label "main", .instruction "pop rcx", .instruction "push rcx", .introduce "a" 0, .variable "push" "a" 0, .introduce "b" 1,
        .variable "push" "b" 1] ++ .shift "add" 1 :: [.call "f", .shift "sub" 1] := by
    decide +kernel
  exact absurd (h.2 [false] _ _ 1 hlines "b" 1 (by decide)) (lt_irrefl 1)

end CompilerLab.Language
