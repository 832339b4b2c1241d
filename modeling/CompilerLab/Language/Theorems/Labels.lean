import CompilerLab.Language.Lemmas.Labels
import CompilerLab.Language.Lemmas.Tree

/-!
# When jumps meet their labels

A comparison reads the counter before the conditional it stands in takes the number, so one that stands in no condition jumps to
the next conditional, or nowhere. A function may have the name of a label.
-/

namespace CompilerLab.Language

open Options TreeNode

/-! ## Labels of one number -/

theorem toString_injective : Function.Injective (toString : Nat → String) := by
  intro m n h
  have hdigits : Nat.toDigits 10 m = Nat.toDigits 10 n := by simpa using congrArg String.toList h
  rw [← Nat.ofDigitChars_ten_toDigits (n := m), hdigits, Nat.ofDigitChars_ten_toDigits]

theorem ifLabel_injective : Function.Injective ifLabel := fun _ _ h => toString_injective ((String.append_right_inj _).1 h)

theorem elseLabel_injective : Function.Injective elseLabel := fun _ _ h => toString_injective ((String.append_right_inj _).1 h)

theorem ifLabel_ne_elseLabel (m n : Nat) : ifLabel m ≠ elseLabel n := by
  intro h
  have := congrArg String.toList h
  simp [ifLabel, elseLabel] at this

namespace LabelUse

def target : LabelUse → Option String
  | compared _ label => some label
  | jumped label => some label
  | defined _ _ => none

def definition : LabelUse → Option String
  | defined _ label => some label
  | _ => none

end LabelUse

section
variable {env : Environment} {place : Place} {n : Nat}

theorem functionNames_simple {tree : TreeNode} (h : Simple tree) : tree.functionNames env = [] := by
  cases h with
  | null => rfl
  | number bits => rfl
  | «variable» name => rfl
  | call _ _ => rfl
  | operation hop _ _ =>
      simp only [simpleOperators, List.mem_cons, List.not_mem_nil, or_false] at hop
      obtain rfl | rfl | rfl | rfl | rfl | rfl | rfl | rfl | rfl | rfl | rfl | rfl | rfl | rfl | rfl | rfl | rfl | rfl | rfl := hop
      all_goals rfl

/-- Every conditional prints its two labels and every function its name. -/
theorem definitions_count {tree : TreeNode} (h : Block tree) (label : String) :
    ((tree.labelUses env place n).filterMap LabelUse.definition).count label =
      ((List.range' n tree.conditionals).map ifLabel).count label +
        ((List.range' n tree.conditionals).map elseLabel).count label + (tree.functionNames env).count label := by
  have hcopies : ∀ (k : Nat) (conditional : Option (List Bool)) (label : String),
      (List.replicate k (LabelUse.compared conditional label)).filterMap LabelUse.definition = [] := by
    simp [LabelUse.definition]
  induction h generalizing place n with
  | simple h => simp [labelUses_simple h, conditionals_simple h, functionNames_simple h, hcopies]
  | @statement left right _ _ ihleft ihright =>
      simp only [OP_NODE, labelUses, conditionals, functionNames, List.filterMap_append, List.count_append, ihleft, ihright,
        ← List.range'_append_1, List.map_append]
      omega
  | declaration hname hparams _ ihbody =>
      simp only [OP_NODE, labelUses, conditionals, functionNames, List.filterMap_append, List.count_append, ihbody, hcopies,
        List.filterMap_cons, LabelUse.definition, List.count_cons, List.count_nil]
      omega
  | conditional hcondition _ _ ihif ihelse =>
      simp only [OP_NODE, labelUses, conditionals, functionNames, List.filterMap_append, List.count_append, ihif, ihelse, hcopies,
        List.filterMap_cons, LabelUse.definition, List.filterMap_nil, List.count_cons, List.count_nil, List.range'_succ, ← List.range'_append_1,
        List.map_append, List.map_cons]
      omega
  | loop _ _ _ => rfl
  | ret hparams => simp [OP_NODE, labelUses, conditionals, functionNames, hcopies]

theorem comparedAt_simple {tree : TreeNode} (h : Simple tree) : tree.comparedAt n = List.replicate tree.unguarded n := by
  cases h with
  | null => rfl
  | number bits => rfl
  | «variable» name => rfl
  | call _ _ => rfl
  | operation hop _ _ =>
      simp only [simpleOperators, List.mem_cons, List.not_mem_nil, or_false] at hop
      obtain rfl | rfl | rfl | rfl | rfl | rfl | rfl | rfl | rfl | rfl | rfl | rfl | rfl | rfl | rfl | rfl | rfl | rfl | rfl := hop
      all_goals rfl

/-- Jumps go behind the conditionals, and from the comparisons to the number the counter has there. -/
theorem mem_targets {tree : TreeNode} (h : Block tree) (label : String) :
    label ∈ (tree.labelUses env place n).filterMap LabelUse.target ↔
      label ∈ (List.range' n tree.conditionals).map elseLabel ∨ label ∈ (tree.comparedAt n).map ifLabel := by
  have hcopies : ∀ (k : Nat) (conditional : Option (List Bool)) (n : Nat),
      (List.replicate k (LabelUse.compared conditional (ifLabel n))).filterMap LabelUse.target =
        (List.replicate k n).map ifLabel := by
    intro k conditional n
    rw [List.map_replicate]
    exact List.filterMap_replicate_of_some rfl
  induction h generalizing place n with
  | simple h => simp [labelUses_simple h, conditionals_simple h, comparedAt_simple h, hcopies]
  | statement _ _ ihleft ihright =>
      simp only [OP_NODE, labelUses, conditionals, comparedAt, List.filterMap_append, List.mem_append, ihleft, ihright,
        ← List.range'_append_1, List.map_append]
      tauto
  | declaration hname hparams _ ihbody =>
      simp only [OP_NODE, labelUses, conditionals, comparedAt, unguarded, List.filterMap_append, List.mem_append, ihbody, hcopies,
        List.filterMap_cons, LabelUse.target, List.map_append]
      tauto
  | conditional hcondition _ _ ihif ihelse =>
      simp only [OP_NODE, labelUses, conditionals, comparedAt, List.filterMap_append, List.mem_append, ihif, ihelse, hcopies,
        List.filterMap_cons, List.filterMap_nil, LabelUse.target, List.mem_cons, List.not_mem_nil, List.range'_succ,
        ← List.range'_append_1, List.map_append, List.map_cons]
      tauto
  | loop _ _ _ => simp [OP_NODE, labelUses, conditionals, comparedAt, unguarded]
  | ret hparams => simp [OP_NODE, labelUses, conditionals, comparedAt, hcopies]

theorem lt_of_mem_comparedAt {tree : TreeNode} (h : Block tree) (hunguarded : tree.unguarded = 0) {k : Nat}
    (hk : k ∈ tree.comparedAt n) : k < n + tree.conditionals := by
  induction h generalizing n with
  | simple h => simp [comparedAt_simple h, hunguarded] at hk
  | statement _ _ ihleft ihright =>
      simp only [OP_NODE, unguarded, comparedAt, conditionals, List.mem_append, Nat.add_eq_zero_iff] at hunguarded hk ⊢
      obtain hk | hk := hk
      · have := ihleft hunguarded.1 hk
        omega
      · have := ihright hunguarded.2 hk
        omega
  | declaration hname hparams _ ihbody =>
      simp only [OP_NODE, unguarded, comparedAt, conditionals, List.mem_append, Nat.add_eq_zero_iff] at hunguarded hk ⊢
      rw [hunguarded.1, List.replicate_zero] at hk
      exact ihbody hunguarded.2 (hk.resolve_left List.not_mem_nil)
  | conditional hcondition _ _ ihif ihelse =>
      simp only [OP_NODE, unguarded, comparedAt, conditionals, List.mem_append, Nat.add_eq_zero_iff, List.mem_replicate]
        at hunguarded hk ⊢
      obtain ⟨-, rfl⟩ | hk | hk := hk
      · omega
      · have := ihif hunguarded.1 hk
        omega
      · have := ihelse hunguarded.2 hk
        omega
  | loop _ _ _ => simp [OP_NODE, comparedAt, unguarded] at hk
  | ret hparams =>
      simp only [OP_NODE] at hunguarded
      simp [OP_NODE, comparedAt, hunguarded] at hk

/-- A comparison in a condition jumps to a label of its conditional. -/
theorem defined_of_compared {tree : TreeNode} (h : Block tree) (hplace : place.conditional = none) {conditional : List Bool}
    {label : String} (hcompared : .compared (some conditional) label ∈ tree.labelUses env place n) :
    .defined (conditional ++ [true]) label ∈ tree.labelUses env place n := by
  induction h generalizing place n with
  | simple h => simp [labelUses_simple h, hplace] at hcompared
  | statement _ _ ihleft ihright =>
      simp only [OP_NODE, labelUses, List.mem_append] at hcompared ⊢
      exact hcompared.imp (@ihleft place.left _ hplace) (@ihright place.right _ hplace)
  | declaration hname hparams _ ihbody =>
      simp only [OP_NODE, labelUses, List.mem_append, List.mem_cons, reduceCtorEq, false_or, List.mem_replicate] at hcompared ⊢
      obtain ⟨-, hcopy⟩ | hbody := hcompared
      · simp [hplace] at hcopy
      · exact .inr (@ihbody place.inside.right n hplace hbody)
  | conditional hcondition _ _ ihif ihelse =>
      simp only [OP_NODE, labelUses, List.mem_append, List.mem_cons, reduceCtorEq, false_or, List.mem_replicate, List.not_mem_nil,
        or_false] at hcompared ⊢
      obtain ⟨-, hown⟩ | hbody | hbody := hcompared
      · obtain ⟨rfl, rfl⟩ : conditional = place.node ∧ label = ifLabel n := by simpa using hown
        exact .inr (.inr (.inl rfl))
      · exact .inr (.inl (@ihif place.right.left (n + 1) hplace hbody))
      · exact .inr (.inr (.inr (.inl (@ihelse place.right.right _ hplace hbody))))
  | loop _ _ _ => simp [OP_NODE, labelUses, unguarded] at hcompared
  | ret hparams => simp [OP_NODE, labelUses, hplace] at hcompared

theorem exists_compared_none {tree : TreeNode} (h : Block tree) (hplace : place.conditional = none) :
    (∃ label, .compared none label ∈ tree.labelUses env place n) ↔ tree.unguarded ≠ 0 := by
  have hcopies : ∀ (k n : Nat), (∃ label, .compared none label ∈ List.replicate k (LabelUse.compared none (ifLabel n))) ↔ k ≠ 0 := by
    simp
  induction h generalizing place n with
  | simple h => rw [labelUses_simple h, hplace, hcopies]
  | @statement left right _ _ ihleft ihright =>
      simp only [OP_NODE, labelUses, unguarded, List.mem_append, exists_or]
      exact (or_congr (@ihleft place.left n hplace) (@ihright place.right _ hplace)).trans (by omega)
  | @declaration name params body hname hparams _ ihbody =>
      simp only [OP_NODE, labelUses, unguarded, List.mem_append, exists_or, List.mem_cons, reduceCtorEq, false_or,
        Place.conditional_left, Place.conditional_inside, hplace]
      exact (or_congr (hcopies params.unguarded n) (@ihbody place.inside.right n hplace)).trans (by omega)
  | @conditional condition if_body else_body hcondition _ _ ihif ihelse =>
      simp only [OP_NODE, labelUses, unguarded, List.mem_append, exists_or, List.mem_cons, reduceCtorEq, false_or,
        List.mem_replicate, List.not_mem_nil, or_false, LabelUse.compared.injEq, false_and, and_false]
      exact (or_congr (@ihif place.right.left (n + 1) hplace) (@ihelse place.right.right _ hplace)).trans (by omega)
  | loop _ _ _ => simp [OP_NODE, labelUses, unguarded]
  | @ret params hparams =>
      have hret := hcopies params.unguarded n
      simp only [OP_NODE, labelUses, hplace]
      exact hret

end

/-! ## The text -/

theorem countP_label (text : List (Place × Line)) (label : String) :
    text.countP (fun line => line.2 = Line.label label) =
      ((text.filterMap labelUse).filterMap LabelUse.definition).count label := by
  induction text with
  | nil => rfl
  | cons line text ih =>
      obtain ⟨place, line⟩ := line
      cases line with
      | label name => simp [labelUse, LabelUse.definition, List.countP_cons, List.count_cons, ih]
      | jump instruction name =>
          by_cases hjump : instruction = "jmp"
          · simp [labelUse, LabelUse.definition, List.filterMap_cons, hjump, ih]
          · simp [labelUse, LabelUse.definition, List.filterMap_cons, hjump, ih]
      | _ => simp [labelUse, List.filterMap_cons, ih]

theorem labelUse_jump {place : Place} {instruction label : String} :
    (labelUse (place, .jump instruction label)).bind LabelUse.target = some label := by
  by_cases hjump : instruction = "jmp" <;> simp [labelUse, LabelUse.target, hjump]

theorem mem_targets_text {text : List (Place × Line)} {label : String} :
    label ∈ (text.filterMap labelUse).filterMap LabelUse.target ↔
      ∃ place instruction, (place, Line.jump instruction label) ∈ text := by
  rw [List.filterMap_filterMap, List.mem_filterMap]
  constructor
  · rintro ⟨⟨place, line⟩, hline, htarget⟩
    cases line with
    | jump instruction name =>
        cases labelUse_jump.symm.trans htarget
        exact ⟨place, instruction, hline⟩
    | _ => simp [labelUse, LabelUse.target] at htarget
  · rintro ⟨place, instruction, hline⟩
    exact ⟨_, hline, labelUse_jump⟩

theorem jumpsDefined_iff_uses {text : List (Place × Line)} :
    JumpsDefined text ↔ ∀ label ∈ (text.filterMap labelUse).filterMap LabelUse.target,
      ((text.filterMap labelUse).filterMap LabelUse.definition).count label = 1 := by
  constructor
  · intro h label hlabel
    obtain ⟨place, instruction, hline⟩ := mem_targets_text.1 hlabel
    rw [← countP_label]
    exact h place instruction label hline
  · intro h place instruction label hline
    rw [countP_label]
    exact h label (mem_targets_text.2 ⟨place, instruction, hline⟩)

theorem mem_uses_compared {text : List (Place × Line)} {conditional : Option (List Bool)} {label : String} :
    .compared conditional label ∈ text.filterMap labelUse ↔
      ∃ place instruction, (place, Line.jump instruction label) ∈ text ∧ instruction ≠ "jmp" ∧ place.conditional = conditional := by
  rw [List.mem_filterMap]
  constructor
  · rintro ⟨⟨place, line⟩, hline, huse⟩
    cases line with
    | jump instruction name =>
        by_cases hjump : instruction = "jmp"
        · simp [labelUse, hjump] at huse
        · obtain ⟨hplace, rfl⟩ : place.conditional = conditional ∧ name = label := by simpa [labelUse, hjump] using huse
          exact ⟨place, instruction, hline, hjump, hplace⟩
    | _ => simp [labelUse] at huse
  · rintro ⟨place, instruction, hline, hjump, rfl⟩
    exact ⟨_, hline, congrArg some (if_neg hjump)⟩

theorem mem_uses_defined {text : List (Place × Line)} {node : List Bool} {label : String} :
    .defined node label ∈ text.filterMap labelUse ↔ ∃ place : Place, place.node = node ∧ (place, Line.label label) ∈ text := by
  rw [List.mem_filterMap]
  constructor
  · rintro ⟨⟨place, line⟩, hline, huse⟩
    cases line with
    | label name =>
        obtain ⟨hplace, rfl⟩ : place.node = node ∧ name = label := by simpa [labelUse] using huse
        exact ⟨place, hplace, hline⟩
    | jump instruction name => by_cases hjump : instruction = "jmp" <;> simp [labelUse, hjump] at huse
    | _ => simp [labelUse] at huse
  · rintro ⟨place, rfl, hline⟩
    exact ⟨_, hline, rfl⟩

theorem ownLabels_iff_uses {text : List (Place × Line)} :
    OwnLabels text ↔ ∀ conditional label, .compared conditional label ∈ text.filterMap labelUse →
      ∃ c ∈ conditional, .defined (c ++ [true]) label ∈ text.filterMap labelUse := by
  constructor
  · intro h conditional label hcompared
    obtain ⟨place, instruction, hline, hjump, rfl⟩ := mem_uses_compared.1 hcompared
    obtain ⟨c, hc, hother⟩ := h place instruction label hline hjump
    exact ⟨c, hc, mem_uses_defined.2 hother⟩
  · intro h place instruction label hline hjump
    obtain ⟨c, hc, hdefined⟩ := h _ label (mem_uses_compared.2 ⟨place, instruction, hline, hjump, rfl⟩)
    exact ⟨c, hc, mem_uses_defined.1 hdefined⟩

/-! ## When labels are met -/

theorem count_labels {f : Nat → String} (hf : Function.Injective f) (K k : Nat) :
    ((List.range' 0 K).map f).count (f k) = if k < K then 1 else 0 := by
  rw [List.count_map_of_injective _ f hf, List.Nodup.count List.nodup_range']
  simp [List.mem_range'_1]

theorem count_other_labels {f g : Nat → String} (hfg : ∀ m n, f m ≠ g n) (K k : Nat) :
    ((List.range' 0 K).map f).count (g k) = 0 := by
  rw [List.count_eq_zero, List.mem_map]
  rintro ⟨m, -, hm⟩
  exact hfg m k hm

theorem labels_iff {token_array : List Token} {fuel : Nat} {root : TreeNode} (h : getGrammar token_array fuel = .ok root)
    {env : Environment} {s : GenState Namespaces} (hrun : printCmdsInFile Namespaces.names env root startState = .ok () s) :
    JumpsDefined s.text ∧ OwnLabels s.text ↔ root.unguarded = 0 ∧ root.NamesApart env := by
  have hblock := getGrammar_block h
  obtain ⟨huses, -⟩ := (printCmdsInFile_uses hblock startState rfl).of_ok hrun
  have huses : s.text.filterMap labelUse = root.labelUses env {} 0 := huses
  have hown : OwnLabels s.text ↔ root.unguarded = 0 := by
    rw [ownLabels_iff_uses, huses]
    constructor
    · intro h
      by_contra hunguarded
      obtain ⟨label, hcompared⟩ := (@exists_compared_none env {} 0 root hblock rfl).2 hunguarded
      obtain ⟨c, hc, -⟩ := h none label hcompared
      cases hc
    · intro hunguarded conditional label hcompared
      cases conditional with
      | none => exact absurd hunguarded ((@exists_compared_none env {} 0 root hblock rfl).1 ⟨label, hcompared⟩)
      | some c => exact ⟨c, rfl, defined_of_compared hblock rfl hcompared⟩
  rw [hown, jumpsDefined_iff_uses, huses, and_comm]
  refine and_congr_right fun hunguarded => ?_
  have hif : ∀ k, ((root.labelUses env {} 0).filterMap LabelUse.definition).count (ifLabel k) =
      (if k < root.conditionals then 1 else 0) + (root.functionNames env).count (ifLabel k) := by
    intro k
    rw [definitions_count hblock, count_labels ifLabel_injective, count_other_labels fun m n => (ifLabel_ne_elseLabel n m).symm]
    rfl
  have helse : ∀ k, ((root.labelUses env {} 0).filterMap LabelUse.definition).count (elseLabel k) =
      (if k < root.conditionals then 1 else 0) + (root.functionNames env).count (elseLabel k) := by
    intro k
    rw [definitions_count hblock, count_labels elseLabel_injective, count_other_labels ifLabel_ne_elseLabel, Nat.zero_add]
  constructor
  · intro h name hname k hk
    have hcount : ∀ label, name = label → 0 < (root.functionNames env).count label :=
      fun label hlabel => List.count_pos_iff.2 (hlabel ▸ hname)
    constructor
    · intro heq
      have hone := h (elseLabel k) ((mem_targets hblock _).2 (.inl (List.mem_map_of_mem (by simpa using hk))))
      rw [helse, if_pos hk] at hone
      have := hcount _ heq
      omega
    · intro hcompared heq
      have hone := h (ifLabel k) ((mem_targets hblock _).2 (.inr (List.mem_map_of_mem hcompared)))
      rw [hif, if_pos hk] at hone
      have := hcount _ heq
      omega
  · intro h label hlabel
    obtain hlabel | hlabel := (mem_targets hblock label).1 hlabel
    · obtain ⟨k, hk, rfl⟩ := List.mem_map.1 hlabel
      have hk : k < root.conditionals := by simpa using hk
      rw [helse, if_pos hk, List.count_eq_zero.2 fun hmem => (h _ hmem k hk).1 rfl]
    · obtain ⟨k, hk, rfl⟩ := List.mem_map.1 hlabel
      have hk' : k < root.conditionals := by simpa using lt_of_mem_comparedAt hblock hunguarded hk
      rw [hif, if_pos hk', List.count_eq_zero.2 fun hmem => (h _ hmem k hk').2 hk rfl]

/-- A conditional without statements, whose condition compares `x` and `y`. -/
def emptyConditional : List Token :=
  [createToken IF, { type := .VAR_T, value := 0x1000#64, name := "x" }, createToken IS_EE,
    { type := .VAR_T, value := 0x1010#64, name := "y" }, createToken CLOSE_BR, createToken ELSE, createToken CLOSE_BR,
    createToken TERMINATION_SYM]

def emptyConditionalTree : TreeNode :=
  OP_NODE .ST (OP_NODE IF (OP_NODE IS_EE (VAR_NODE "x") (VAR_NODE "y")) (OP_NODE ELSE .null .null)) .null

theorem labels_iff_conditional :
    ∃ s, printCmdsInFile Namespaces.names { text := fun _ => none } emptyConditionalTree startState = .ok () s ∧
      (JumpsDefined s.text ∧ OwnLabels s.text ↔
        emptyConditionalTree.unguarded = 0 ∧ emptyConditionalTree.NamesApart { text := fun _ => none }) :=
  ⟨_, rfl, labels_iff (show getGrammar emptyConditional 10 = .ok emptyConditionalTree from rfl) rfl⟩

/-- `x` is set to a comparison of 1 and 1. -/
def comparisonAsValue : List Token :=
  [createToken VAR, { type := .VAR_T, value := 0x1000#64, name := "x" },
    { type := .NUM_T, value := 0x3ff0000000000000#64, name := "" }, createToken IS_EE,
    { type := .NUM_T, value := 0x3ff0000000000000#64, name := "" }, createToken TERMINATION_SYM]

theorem comparisonAsValue_not_defined :
    ∃ root s, getGrammar comparisonAsValue 10 = .ok root ∧
      printCmdsInFile Namespaces.names { text := fun _ => none } root startState = .ok () s ∧
        ¬(JumpsDefined s.text ∧ OwnLabels s.text) := by
  refine ⟨_, _, rfl, rfl, fun h => ?_⟩
  have hone := h.1 { node := [false, true] } "jne" "if_label0" (by decide)
  exact absurd hone (by decide)

end CompilerLab.Language
