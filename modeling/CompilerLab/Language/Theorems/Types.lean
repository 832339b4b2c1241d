import CompilerLab.Language.Lemmas.Tree
import CompilerLab.Language.TreeToAsm
import CompilerLab.Lib.Outcome

/-!
# When the code generator respects the types of nodes

It looks for a name in the left child of every `VAR` and `PARAM` it comes to, and the parser lets any expression stand there.
-/

namespace CompilerLab.Language

open Options TreeNode Lib

/-- A member is read that the type does not go with, or a child that is not there. -/
def GenerationFault.OfTypes (fault : GenerationFault) : Prop := fault = .nullDereference ∨ fault = .wrongMember

/-- No run stops at such a read, whatever the tables answer. -/
def RespectsTypes (root : TreeNode) : Prop :=
  ∀ (σ : Type) (names : Names σ) (env : Environment) (s s' : GenState σ) (fault : GenerationFault),
    printCmdsInFile names env root s = .error fault s' → ¬fault.OfTypes

namespace TreeNode

/-- The node of a variable. -/
def IsVariable : TreeNode → Prop
  | node .VAR_T _ _ _ => True
  | _ => False

/-- In what the generator has code for, every variable that is set and every parameter has a variable as its left child. -/
def WellNamed : TreeNode → Prop
  | null => True
  | node type value left right =>
      match type, value with
      | .OP_T, .op_val op =>
          match op with
          | .ST | .FUNC | .ADD | .SUB | .MUL | .DIV | .IS_EE | .IS_NE | .IS_BT | .IF | .ELSE => left.WellNamed ∧ right.WellNamed
          | .VAR | .PARAM => left.IsVariable ∧ right.WellNamed
          | .CALL => right.WellNamed
          | .RET | .IN | .OUT | .SIN | .COS | .SQRT => left.WellNamed
          | _ => True
      | .NAME_T, _ => left.WellNamed
      | _, _ => True

end TreeNode

/-- What the tables and the strings stop with. -/
structure Outside {σ : Type} (names : Names σ) (env : Environment) (other : GenerationFault → Prop) : Prop where
  vars_before : ∀ {s fault}, names.vars_before s = .error fault → other (.table fault)
  find : ∀ {var_amount var_name s fault}, names.find var_amount var_name s = .error fault → other (.table fault)
  insert : ∀ {var_amount var_name s fault}, names.insert var_amount var_name s = .error fault → other (.table fault)
  declare : ∀ {vars_before s fault}, names.declare vars_before s = .error fault → other (.table fault)
  leave : ∀ {s fault}, names.leave s = .error fault → other (.table fault)
  text : ∀ {bits}, env.text bits = none → other .wildPointer

/-- A run of the step that completes shows that `holds`, one that stops at a read of the wrong kind that not. -/
abbrev Shows {σ α : Type} (other : GenerationFault → Prop) (m : Gen σ α) (holds : Prop) : Prop :=
  Judges GenerationFault.OfTypes other m holds

section
variable {σ : Type} {names : Names σ} {env : Environment} {other : GenerationFault → Prop} {place : Place}

/-! ## Steps that read no node -/

theorem look_shows {α : Type} {operation : σ → Except TableFault α}
    (h : ∀ {s fault}, operation s = .error fault → other (.table fault)) : Shows other (look operation) True := by
  refine Judges.get.before fun s => ?_
  cases hs : operation s.names with
  | ok a => exact .pure
  | error fault => exact .throw (.inr (h hs))

theorem update_shows {operation : σ → Except TableFault σ}
    (h : ∀ {s fault}, operation s = .error fault → other (.table fault)) : Shows other (update operation) True := by
  refine Judges.get.before fun s => ?_
  cases hs : operation s.names with
  | ok names => exact .modify
  | error fault => exact .throw (.inr (h hs))

theorem print_shows {line : Line} : Shows other (print place line : Gen σ Unit) True := .modify

theorem setPrevious_shows {operation : Options} : Shows other (setPrevious operation : Gen σ Unit) True := .modify

variable (houtside : Outside names env other)
include houtside

theorem getVariablePos_shows {var_amount : Nat} {name : String} :
    Shows other (getVariablePos names place var_amount name) True := by
  refine (look_shows houtside.find).before fun position => ?_
  cases position with
  | some position => exact .pure
  | none => exact (update_shows houtside.insert).before fun _ => print_shows.before fun _ => .pure

theorem printParam_shows {vars_before : Nat} {name : String} : Shows other (printParam names place vars_before name) True := by
  refine Judges.get.before fun s => ?_
  dsimp only
  split_ifs
  · exact print_shows.before fun _ => (getVariablePos_shows houtside).before fun _ => print_shows
  · exact (getVariablePos_shows houtside).before fun _ => print_shows.before fun _ => print_shows
  · exact (getVariablePos_shows houtside).before fun _ => print_shows
  · exact (getVariablePos_shows houtside).before fun _ => (getVariablePos_shows houtside).before fun _ => print_shows
  · exact (getVariablePos_shows houtside).before fun _ => print_shows
  · exact .pure

/-! ## Names -/

theorem var_name_literal_shows {type : Types} (htype : type = .NAME_T ∨ type = .NAME_SHORT_T) {value : Values}
    (hvalue : value.IsLiteral) {left right : TreeNode} :
    Shows other (var_name env (node type value left right) : Gen σ String) True := by
  cases value with
  | op_val op => exact hvalue.elim
  | var_name name =>
      obtain rfl | rfl := htype
      · exact .pure
      · exact .pure
  | dbl_val bits =>
      obtain rfl | rfl := htype
      all_goals
        simp only [Language.var_name, textAt]
        cases hbits : env.text bits with
        | some name => exact .pure
        | none => exact .throw (.inr (houtside.text hbits))

omit houtside in
theorem var_name_shows {tree : TreeNode} (h : Simple tree) : Shows other (var_name env tree : Gen σ String) tree.IsVariable := by
  cases h with
  | null => exact .throw (.inl ⟨.inl rfl, fun h => h⟩)
  | number bits => exact .throw (.inl ⟨.inr rfl, fun h => h⟩)
  | «variable» name => exact Judges.pure
  | operation _ _ _ => exact .throw (.inl ⟨.inr rfl, fun h => h⟩)
  | call _ _ => exact .throw (.inl ⟨.inr rfl, fun h => h⟩)

/-! ## The generator -/

theorem printOperation_simple_shows {tree : TreeNode} (h : Simple tree) :
    Shows other (printOperation names env place tree) tree.WellNamed := by
  induction h generalizing place with
  | null => exact .pure
  | number bits => exact (look_shows houtside.vars_before).before fun _ => print_shows
  | «variable» name =>
      refine (look_shows houtside.vars_before).before fun vars_before => Judges.pure.before fun name => ?_
      exact (getVariablePos_shows houtside).before fun _ => (getVariablePos_shows houtside).before fun _ => print_shows
  | call hname _ ih =>
      refine (look_shows houtside.vars_before).before fun vars_before => setPrevious_shows.before fun _ => ih.after fun _ => ?_
      refine print_shows.before fun _ => ?_
      exact (var_name_literal_shows houtside (.inr rfl) hname).before fun _ => print_shows.before fun _ => print_shows
  | @operation op left right hop hleft hright ihleft ihright =>
      refine (look_shows houtside.vars_before).before fun vars_before => ?_
      simp only [simpleOperators, List.mem_cons, List.not_mem_nil, or_false] at hop
      obtain rfl | rfl | rfl | rfl | rfl | rfl | rfl | rfl | rfl | rfl | rfl | rfl | rfl | rfl | rfl | rfl | rfl | rfl | rfl := hop
      · exact ihleft.bind fun _ => ihright.after fun _ => print_shows
      · exact ihright.swap fun _ => ihleft.after fun _ => print_shows
      · exact ihleft.bind fun _ => ihright.after fun _ => print_shows
      · exact ihright.swap fun _ => ihleft.after fun _ => print_shows
      · exact .pure
      · exact ihleft.after fun _ => print_shows
      · exact ihleft.after fun _ => print_shows
      · exact ihleft.after fun _ => print_shows
      · exact .pure
      · exact ihleft.bind fun _ => ihright.after fun _ => Judges.get.before fun s => print_shows
      · exact .pure
      · exact .pure
      · exact .pure
      · exact ihright.swap fun _ => ihleft.after fun _ => Judges.get.before fun s => print_shows
      · exact ihleft.bind fun _ => ihright.after fun _ => Judges.get.before fun s => print_shows
      · refine (var_name_shows hleft).bind fun name => (getVariablePos_shows houtside).before fun _ => ihright.after fun _ => ?_
        exact (getVariablePos_shows houtside).before fun _ => print_shows
      · exact setPrevious_shows.before fun _ => ihleft
      · exact setPrevious_shows.before fun _ => ihleft
      · exact (var_name_shows hleft).bind fun name => (getVariablePos_shows houtside).before fun _ => (printParam_shows houtside).before fun _ => ihright

theorem printOperation_shows {tree : TreeNode} (h : Block tree) : Shows other (printOperation names env place tree) tree.WellNamed := by
  induction h generalizing place with
  | simple h => exact printOperation_simple_shows houtside h
  | statement _ _ ihleft ihright => exact (look_shows houtside.vars_before).before fun _ => ihleft.bind fun _ => ihright
  | declaration hname hparams _ ihbody =>
      refine (look_shows houtside.vars_before).before fun vars_before => (update_shows houtside.declare).before fun _ => ?_
      refine Judges.bind ?_ fun _ => print_shows.before fun _ => ihbody.after fun _ => update_shows houtside.leave
      refine (look_shows houtside.vars_before).before fun _ => (var_name_literal_shows houtside (.inl rfl) hname).before fun _ => ?_
      exact print_shows.before fun _ => print_shows.before fun _ => setPrevious_shows.before fun _ => printOperation_simple_shows houtside hparams
  | conditional hcondition _ _ ihif ihelse =>
      refine (look_shows houtside.vars_before).before fun _ => (printOperation_simple_shows houtside hcondition).bind fun _ => (look_shows houtside.vars_before).before fun _ => ?_
      refine Judges.get.before fun s => Judges.modify.before fun _ => ihif.bind fun _ => ?_
      exact print_shows.before fun _ => print_shows.before fun _ => ihelse.after fun _ => print_shows
  | loop _ _ _ => exact (look_shows houtside.vars_before).before fun _ => .pure
  | ret hparams =>
      refine (look_shows houtside.vars_before).before fun _ => print_shows.before fun _ => setPrevious_shows.before fun _ => ?_
      exact (printOperation_simple_shows houtside hparams).after fun _ => print_shows.before fun _ => print_shows

theorem printCmdsInFile_shows {root : TreeNode} (h : Block root) : Shows other (printCmdsInFile names env root) root.WellNamed :=
  print_shows.before fun _ => print_shows.before fun _ => (printOperation_shows houtside h).after fun _ => print_shows

end

/-! ## When it does -/

/-- Tables that have room for every name and find none of them. -/
def noTables : Names Unit where
  vars_before _ := .ok 0
  find _ _ _ := .ok none
  insert _ _ _ := .ok ()
  declare _ _ := .ok ()
  leave _ := .ok ()

/-- The string at every address is empty. -/
def emptyTexts : Environment := { text := fun _ => some "" }

theorem noTables_outside : Outside noTables emptyTexts fun _ => False where
  vars_before h := by cases h
  find h := by cases h
  insert h := by cases h
  declare h := by cases h
  leave h := by cases h
  text h := by cases h

theorem GenerationFault.outside {σ : Type} (names : Names σ) (env : Environment) : Outside names env (¬·.OfTypes) where
  vars_before _ := by simp [OfTypes]
  find _ := by simp [OfTypes]
  insert _ := by simp [OfTypes]
  declare _ := by simp [OfTypes]
  leave _ := by simp [OfTypes]
  text _ := by simp [OfTypes]

theorem respectsTypes_iff {token_array : List Token} {fuel : Nat} {root : TreeNode}
    (h : getGrammar token_array fuel = .ok root) : RespectsTypes root ↔ root.WellNamed := by
  have hblock := getGrammar_block h
  constructor
  · intro hrespects
    have hrun := printCmdsInFile_shows noTables_outside hblock { names := () }
    cases hend : printCmdsInFile noTables emptyTexts root { names := () } with
    | ok a s' => exact hrun.of_ok hend
    | error fault s' =>
        obtain ⟨hfault, -⟩ | hfalse := hrun.of_error hend
        · exact absurd hfault (hrespects _ _ _ _ _ _ hend)
        · exact hfalse.elim
  · intro hnamed σ names env s s' fault hend
    obtain ⟨-, hnot⟩ | hother := (printCmdsInFile_shows (GenerationFault.outside names env) hblock s).of_error hend
    · exact absurd hnamed hnot
    · exact hother

/-- `bueee ( >x )`. -/
def outputOfVariable : List Token :=
  [createToken OUT, createToken OPEN_BR, { type := .VAR_T, value := 0x1000#64, name := "x" }, createToken CLOSE_BR,
    createToken TERMINATION_SYM]

theorem respectsTypes_iff_variable :
    RespectsTypes (OP_NODE .ST (OP_NODE OUT (OP_NODE PARAM (VAR_NODE "x") .null) .null) .null) ↔
      (OP_NODE .ST (OP_NODE OUT (OP_NODE PARAM (VAR_NODE "x") .null) .null) .null).WellNamed :=
  respectsTypes_iff (show getGrammar outputOfVariable 10 = .ok _ from rfl)

/-- `bueee ( 1 )`. -/
def outputOfNumber : List Token :=
  [createToken OUT, createToken OPEN_BR, { type := .NUM_T, value := 0x3ff0000000000000#64, name := "" }, createToken CLOSE_BR,
    createToken TERMINATION_SYM]

def outputOfNumberTree : TreeNode :=
  OP_NODE .ST (OP_NODE OUT (OP_NODE PARAM (DIGIT_NODE 0x3ff0000000000000#64) .null) .null) .null

theorem outputOfNumber_not_respectsTypes :
    getGrammar outputOfNumber 10 = .ok outputOfNumberTree ∧ ¬RespectsTypes outputOfNumberTree := by
  refine ⟨rfl, fun h => ?_⟩
  exact h Namespaces Namespaces.names emptyTexts startState _ .wrongMember rfl (.inr rfl)

end CompilerLab.Language
