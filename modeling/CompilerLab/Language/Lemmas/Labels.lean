import CompilerLab.Language.Labels
import CompilerLab.Language.Tree
import CompilerLab.Lib.Outcome

/-!
# What a run does with labels
-/

namespace CompilerLab.Language

open Options TreeNode Lib

section
variable {σ : Type} {names : Names σ} {env : Environment} {place : Place}

/-- With the counter at `n`, a run of the step that completes adds these uses and leaves the counter at `n'`. -/
def Uses {α : Type} (m : Gen σ α) (n : Nat) (added : List LabelUse) (n' : Nat) : Prop :=
  ∀ s, s.label_counter = n → Adds (fun s => s.text.filterMap labelUse) m s added fun s' => s'.label_counter = n'

namespace Uses

variable {α β : Type} {m : Gen σ α} {f : α → Gen σ β} {n n₁ n₂ : Nat} {added added' : List LabelUse}

theorem pure {a : α} : Uses (pure a : Gen σ α) n [] n := fun _ hs => Adds.pure hs

theorem bind (hm : Uses m n added n₁) (hf : ∀ a, Uses (f a) n₁ added' n₂) : Uses (m >>= f) n (added ++ added') n₂ :=
  fun s hs => (hm s hs).bind fun a s' hs' => hf a s' hs'

theorem before (hm : Uses m n [] n₁) (hf : ∀ a, Uses (f a) n₁ added n₂) : Uses (m >>= f) n added n₂ := hm.bind hf

theorem after (hm : Uses m n added n₁) (hf : ∀ a, Uses (f a) n₁ [] n₂) : Uses (m >>= f) n added n₂ := by
  simpa only [List.append_nil] using hm.bind hf

theorem copies {use : LabelUse} {j k l : Nat} (hm : Uses m n (List.replicate k use) n₁)
    (hf : ∀ a, Uses (f a) n₁ (List.replicate l use) n₂) (hj : k + l = j) : Uses (m >>= f) n (List.replicate j use) n₂ := by
  simpa only [List.replicate_append_replicate, hj] using hm.bind hf

end Uses

/-! ## Steps that print no label -/

section
variable {n : Nat}

theorem look_uses {α : Type} {operation : σ → Except TableFault α} : Uses (look operation) n [] n := by
  intro s hs
  refine Adds.get_bind ?_
  cases operation s.names with
  | ok a => exact Adds.pure hs
  | error fault => exact Adds.throw

theorem update_uses {operation : σ → Except TableFault σ} : Uses (update operation) n [] n := by
  intro s hs
  refine Adds.get_bind ?_
  cases operation s.names with
  | ok names => exact Adds.modify (List.append_nil _).symm hs
  | error fault => exact Adds.throw

theorem setPrevious_uses {operation : Options} : Uses (setPrevious operation : Gen σ Unit) n [] n :=
  fun _ hs => Adds.modify (List.append_nil _).symm hs

theorem print_uses {line : Line} : Uses (print place line : Gen σ Unit) n (labelUse (place, line)).toList n := by
  intro s hs
  refine Adds.modify ?_ hs
  cases h : labelUse (place, line) <;> simp [h]

theorem print_none {line : Line} (h : labelUse (place, line) = none) : Uses (print place line : Gen σ Unit) n [] n := by
  have hprint := @print_uses σ place n line
  rw [h] at hprint
  exact hprint

theorem print_some {line : Line} {use : LabelUse} (h : labelUse (place, line) = some use) :
    Uses (print place line : Gen σ Unit) n [use] n := by
  have hprint := @print_uses σ place n line
  rw [h] at hprint
  exact hprint

theorem getVariablePos_uses {var_amount : Nat} {name : String} : Uses (getVariablePos names place var_amount name) n [] n := by
  refine look_uses.before fun position => ?_
  cases position with
  | some position => exact .pure
  | none => exact update_uses.before fun _ => (print_none rfl).before fun _ => .pure

theorem printParam_uses {vars_before : Nat} {name : String} : Uses (printParam names place vars_before name) n [] n := by
  intro s hs
  refine Adds.get_bind ?_
  dsimp only
  split_ifs
  · exact ((print_none rfl).before fun _ => getVariablePos_uses.before fun _ => print_none rfl) s hs
  · exact (getVariablePos_uses.before fun _ => (print_none rfl).before fun _ => print_none rfl) s hs
  · exact (getVariablePos_uses.before fun _ => print_none rfl) s hs
  · exact (getVariablePos_uses.before fun _ => getVariablePos_uses.before fun _ => print_none rfl) s hs
  · exact (getVariablePos_uses.before fun _ => print_none rfl) s hs
  · exact Adds.pure hs

theorem var_name_uses {tree : TreeNode} : Uses (var_name env tree : Gen σ String) n [] n := by
  have hwild : ∀ bits, Uses (textAt env bits : Gen σ String) n [] n := by
    intro bits
    unfold textAt
    cases env.text bits with
    | some name => exact .pure
    | none => exact fun _ _ => Adds.throw
  unfold Language.var_name
  split
  all_goals first
    | exact .pure
    | exact hwild _
    | exact fun _ _ => Adds.throw

theorem var_name_literal_uses {α : Type} {value : Values} (hvalue : value.IsLiteral) {left right : TreeNode} {f : String → Gen σ α}
    {added : List LabelUse} {n' : Nat} (hf : Uses (f (functionName env value)) n added n') :
    Uses (var_name env (node .NAME_T value left right) >>= f) n added n' := by
  cases value with
  | op_val op => exact hvalue.elim
  | var_name name => exact hf
  | dbl_val bits =>
      simp only [Language.var_name, textAt]
      cases hbits : env.text bits with
      | some name =>
          simp only [functionName, hbits, Option.getD_some] at hf
          exact hf
      | none => exact fun _ _ => trivial

/-- The jump of a comparison. -/
theorem compare_uses {instruction : String} (h : instruction ≠ "jmp") :
    Uses (do print place (.jump instruction (ifLabel (← get).label_counter)) : Gen σ Unit) n
      (List.replicate 1 (.compared place.conditional (ifLabel n))) n := by
  intro s hs
  refine Adds.get_bind ?_
  have hline : labelUse (place, .jump instruction (ifLabel s.label_counter)) = some (.compared place.conditional (ifLabel n)) := by
    rw [hs]
    exact congrArg some (if_neg h)
  exact print_some hline s hs

end

/-! ## The generator -/

theorem labelUses_simple {tree : TreeNode} (h : Simple tree) (n : Nat) :
    tree.labelUses env place n = List.replicate tree.unguarded (.compared place.conditional (ifLabel n)) := by
  cases h with
  | null => rfl
  | number bits => rfl
  | «variable» name => rfl
  | call _ _ => rfl
  | operation hop _ _ =>
      simp only [simpleOperators, List.mem_cons, List.not_mem_nil, or_false] at hop
      obtain rfl | rfl | rfl | rfl | rfl | rfl | rfl | rfl | rfl | rfl | rfl | rfl | rfl | rfl | rfl | rfl | rfl | rfl | rfl := hop
      all_goals rfl

theorem conditionals_simple {tree : TreeNode} (h : Simple tree) : tree.conditionals = 0 := by
  cases h with
  | null => rfl
  | number bits => rfl
  | «variable» name => rfl
  | call _ _ => rfl
  | operation hop _ _ =>
      simp only [simpleOperators, List.mem_cons, List.not_mem_nil, or_false] at hop
      obtain rfl | rfl | rfl | rfl | rfl | rfl | rfl | rfl | rfl | rfl | rfl | rfl | rfl | rfl | rfl | rfl | rfl | rfl | rfl := hop
      all_goals rfl

theorem printOperation_simple_uses {tree : TreeNode} (h : Simple tree) {n : Nat} :
    Uses (printOperation names env place tree) n
      (List.replicate tree.unguarded (.compared place.conditional (ifLabel n))) n := by
  induction h generalizing place with
  | null => exact .pure
  | number bits => exact look_uses.before fun _ => print_none rfl
  | «variable» name =>
      refine look_uses.before fun vars_before => Uses.pure.before fun name => ?_
      exact getVariablePos_uses.before fun _ => getVariablePos_uses.before fun _ => print_none rfl
  | call hname _ ih =>
      refine look_uses.before fun vars_before => setPrevious_uses.before fun _ => ih.after fun _ => ?_
      exact (print_none rfl).before fun _ => var_name_uses.before fun _ => (print_none rfl).before fun _ => print_none rfl
  | @operation op left right hop hleft hright ihleft ihright =>
      refine look_uses.before fun vars_before => ?_
      simp only [simpleOperators, List.mem_cons, List.not_mem_nil, or_false] at hop
      obtain rfl | rfl | rfl | rfl | rfl | rfl | rfl | rfl | rfl | rfl | rfl | rfl | rfl | rfl | rfl | rfl | rfl | rfl | rfl := hop
      · exact ihleft.copies (fun _ => ihright.after fun _ => print_none rfl) rfl
      · exact ihright.copies (fun _ => ihleft.after fun _ => print_none rfl) (Nat.add_comm _ _)
      · exact ihleft.copies (fun _ => ihright.after fun _ => print_none rfl) rfl
      · exact ihright.copies (fun _ => ihleft.after fun _ => print_none rfl) (Nat.add_comm _ _)
      · exact .pure
      · exact ihleft.after fun _ => print_none rfl
      · exact ihleft.after fun _ => print_none rfl
      · exact ihleft.after fun _ => print_none rfl
      · exact .pure
      · exact ihleft.copies (fun _ => ihright.copies (fun _ => @compare_uses _ _ _ "jne" (by decide)) rfl) rfl
      · exact .pure
      · exact .pure
      · exact .pure
      · exact ihright.copies (fun _ => ihleft.copies (fun _ => @compare_uses _ _ _ "jae" (by decide)) rfl)
          (show _ = left.unguarded + right.unguarded + 1 by omega)
      · exact ihleft.copies (fun _ => ihright.copies (fun _ => @compare_uses _ _ _ "je" (by decide)) rfl) rfl
      · refine var_name_uses.before fun name => getVariablePos_uses.before fun _ => ihright.after fun _ => ?_
        exact getVariablePos_uses.before fun _ => print_none rfl
      · exact setPrevious_uses.before fun _ => ihleft
      · exact setPrevious_uses.before fun _ => ihleft
      · exact var_name_uses.before fun name => getVariablePos_uses.before fun _ => printParam_uses.before fun _ => ihright

theorem printOperation_uses {tree : TreeNode} (h : Block tree) {n : Nat} :
    Uses (printOperation names env place tree) n (tree.labelUses env place n) (n + tree.conditionals) := by
  induction h generalizing place n with
  | simple h =>
      rw [labelUses_simple h, conditionals_simple h]
      exact printOperation_simple_uses h
  | @statement left right _ _ ihleft ihright =>
      refine look_uses.before fun _ => ?_
      have hright := @ihright place.right (n + left.conditionals)
      rw [Nat.add_assoc] at hright
      exact ihleft.bind fun _ => hright
  | declaration hname hparams _ ihbody =>
      refine look_uses.before fun vars_before => update_uses.before fun _ => ?_
      refine Uses.bind ?_ fun _ => (print_none rfl).before fun _ => ihbody.after fun _ => update_uses
      refine look_uses.before fun _ => var_name_literal_uses hname ?_
      refine Uses.bind print_uses fun _ => (print_none rfl).before fun _ => setPrevious_uses.before fun _ => ?_
      exact printOperation_simple_uses hparams
  | @conditional condition if_body else_body hcondition _ _ ihif ihelse =>
      refine look_uses.before fun _ => (printOperation_simple_uses hcondition).bind fun _ => look_uses.before fun _ => ?_
      intro s hs
      refine Adds.get_bind ?_
      dsimp only
      rw [hs]
      have hclaim : Uses (modify fun s => { s with label_counter := s.label_counter + 1 } : Gen σ Unit) n [] (n + 1) :=
        fun s hs => Adds.modify (List.append_nil _).symm (congrArg (· + 1) hs)
      have hjump : labelUse (place.right, .jump "jmp" (elseLabel n)) = some (.jumped (elseLabel n)) := congrArg some (if_pos rfl)
      have helse := @ihelse place.right.right (n + 1 + if_body.conditionals)
      rw [show n + 1 + if_body.conditionals + else_body.conditionals = n + (if_body.conditionals + else_body.conditionals + 1)
        by omega] at helse
      refine (hclaim.before fun _ => ihif.bind fun _ => ?_) s hs
      exact (print_some hjump).bind fun _ => (print_some rfl).bind fun _ => helse.bind fun _ => print_some rfl
  | loop _ _ _ => exact look_uses.before fun _ => .pure
  | ret hparams =>
      refine look_uses.before fun _ => (print_none rfl).before fun _ => setPrevious_uses.before fun _ => ?_
      exact (printOperation_simple_uses hparams).after fun _ => (print_none rfl).before fun _ => print_none rfl

theorem printCmdsInFile_uses {root : TreeNode} (h : Block root) :
    Uses (printCmdsInFile names env root) 0 (root.labelUses env {} 0) root.conditionals := by
  have hroot := @printOperation_uses σ names env {} root h 0
  rw [Nat.zero_add] at hroot
  exact (print_none rfl).before fun _ => (print_none rfl).before fun _ => hroot.after fun _ => print_none rfl

end

end CompilerLab.Language
