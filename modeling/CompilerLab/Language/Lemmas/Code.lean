import CompilerLab.Language.Code
import CompilerLab.Language.Lemmas.Variables

/-!
# What the generator prints for a program

The generator prints the code of a program, apart from what it logs.
-/

namespace CompilerLab.Language

open Options TreeNode Lib

/-! ## Names -/

section
variable {names names' : List String} {name : String}

theorem nodup_addName (h : names.Nodup) : (addName names name).Nodup := by
  by_cases hmem : name ∈ names
  · rwa [addName_of_mem hmem]
  · rw [addName_of_not_mem hmem]
    exact List.nodup_append.2 ⟨h, List.nodup_singleton _, fun a ha b hb => by
      rw [List.mem_singleton.1 hb]
      exact fun heq => hmem (heq ▸ ha)⟩

theorem nodup_namesAfter (tree : TreeNode) (h : names.Nodup) : (tree.namesAfter names).Nodup := by
  induction tree generalizing names with
  | null => exact h
  | node type value left right ihleft ihright =>
      unfold namesAfter
      split
      case h_1 op =>
        split
        all_goals first
          | exact ihright (ihleft h)
          | exact ihleft (ihright h)
          | exact ihright (nodup_addName h)
          | exact ihleft h
          | exact ihright h
          | exact h
      case h_2 => exact ihleft h
      case h_3 => exact nodup_addName h
      case h_4 => exact h

theorem idxOf_of_getElem? (h : names.Nodup) {slot : Nat} (hslot : names[slot]? = some name) : names.idxOf name = slot := by
  obtain ⟨hlt, rfl⟩ := List.getElem?_eq_some_iff.1 hslot
  exact List.Nodup.idxOf_getElem h slot hlt

theorem idxOf_of_grown (h : names <+: names') (hname : name ∈ names) : names'.idxOf name = names.idxOf name := by
  obtain ⟨more, rfl⟩ := h
  exact List.idxOf_append_of_mem hname

end

/-! ## Steps of the generator -/

/-- Not only a line of the log. -/
def Line.isCommand : Line → Bool
  | .introduce _ _ => false
  | _ => true

/-- The lines for the assembler. -/
def emitted (s : GenState Namespaces) : List Line := (s.text.map Prod.snd).filter Line.isCommand

/-- A run that completes prints the lines. -/
def Prints {α : Type} (pre : GenState Namespaces → Prop) (m : Gen Namespaces α) (lines : List Line) (post : GenState Namespaces → Prop) :
    Prop :=
  ∀ s, pre s → Adds emitted m s lines post

/-- The names of the function and of those around it, the counter, and the option before. -/
structure Knows (names : List String) (outer : List (List String)) (n : Nat) (previous : Options → Prop) (s : GenState Namespaces) :
    Prop where
  represents : Represents s.names names outer
  counter : s.label_counter = n
  option : previous s.previous_option

abbrev anyOption : Options → Prop := fun _ => True

section
variable {α β : Type} {pre mid post : GenState Namespaces → Prop} {m : Gen Namespaces α} {f : α → Gen Namespaces β}
  {lines lines' : List Line} {names : List String} {outer : List (List String)} {n : Nat} {previous : Options → Prop}
  {place : Place} {name : String}

theorem Knows.any {s : GenState Namespaces} (h : Knows names outer n previous s) : Knows names outer n anyOption s :=
  ⟨h.represents, h.counter, trivial⟩

namespace Prints

theorem pure {a : α} : Prints pre (pure a) [] pre := fun _ h => Adds.pure h

theorem throw {fault : GenerationFault} : Prints pre (throw fault : Gen Namespaces α) lines post := fun _ _ => Adds.throw

theorem bind (hm : Prints pre m lines mid) (hf : ∀ a, Prints mid (f a) lines' post) : Prints pre (m >>= f) (lines ++ lines') post :=
  fun s hs => (hm s hs).bind fun a s' hs' => hf a s' hs'

/-- The first part prints nothing. -/
theorem after (hm : Prints pre m [] mid) (hf : ∀ a, Prints mid (f a) lines post) : Prints pre (m >>= f) lines post := hm.bind hf

theorem get {g : GenState Namespaces → Gen Namespaces β} (hg : ∀ s, pre s → Prints (· = s) (g s) lines post) :
    Prints pre (get >>= g) lines post :=
  fun s hs => hg s hs s rfl

theorem mono {pre' post' : GenState Namespaces → Prop} (h : Prints pre m lines post) (hpre : ∀ s, pre' s → pre s)
    (hpost : ∀ s, post s → post' s) : Prints pre' m lines post' :=
  fun s hs => (h s (hpre s hs)).mono (fun _ s' h' => ⟨h'.1, hpost s' h'.2⟩) fun _ _ h' => h'

end Prints

theorem print_prints {line : Line} (h : line.isCommand = true) :
    Prints (Knows names outer n previous) (print place line) [line] (Knows names outer n previous) := by
  intro s hs
  refine Adds.modify ?_ ⟨hs.represents, hs.counter, hs.option⟩
  simp [emitted, h]

/-- A line, and then the rest. -/
theorem Prints.line {line : Line} (h : line.isCommand = true) {g : Gen Namespaces β}
    (hg : Prints (Knows names outer n previous) g lines post) :
    Prints (Knows names outer n previous) (print place line >>= fun _ => g) (line :: lines) post :=
  (print_prints h).bind fun _ => hg

theorem setPrevious_prints {operation : Options} :
    Prints (Knows names outer n previous) (setPrevious operation) [] (Knows names outer n (· = operation)) :=
  fun _ hs => Adds.modify (List.append_nil _).symm ⟨hs.represents, hs.counter, rfl⟩

theorem vars_before_prints {g : Nat → Gen Namespaces β} (hg : Prints (Knows names outer n previous) (g names.length) lines post) :
    Prints (Knows names outer n previous) (look Namespaces.names.vars_before >>= g) lines post := by
  intro s hs
  refine (look_ends.mono (fun _ _ h => h) fun _ _ _ => trivial).bind ?_
  rintro k t ⟨hk, rfl⟩
  rw [hs.represents.vars_before hk]
  exact hg t hs

theorem getVariablePos_prints {g : Int × Nat → Gen Namespaces β}
    (hg : ∀ position, Prints (Knows (addName names name) outer n previous) (g (position, (addName names name).length)) lines post) :
    Prints (Knows names outer n previous) (getVariablePos Namespaces.names place names.length name >>= g) lines post := by
  intro s hs
  rw [getVariablePos, bind_assoc]
  refine (look_ends.mono (fun _ _ h => h) fun _ _ _ => trivial).bind ?_
  rintro position t ⟨hfind, rfl⟩
  obtain ⟨hfound, hmissing⟩ := hs.represents.find (le_refl _) hfind
  cases position with
  | some slot =>
      have hmem := List.mem_of_getElem? (hfound slot rfl)
      rw [addName_of_mem hmem] at hg
      exact hg slot t hs
  | none =>
      have hnew : name ∉ names := by simpa using hmissing rfl
      rw [addName_of_not_mem hnew, List.length_append] at hg
      simp only [bind_assoc, pure_bind]
      refine (update_ends.mono (fun _ _ h => h) fun _ _ _ => trivial).bind ?_
      rintro - u ⟨tables, hinsert, rfl⟩
      refine Ends.modify_bind (Ends.mono (hg (-1) _ ⟨hs.represents.insert hinsert, hs.counter, hs.option⟩) ?_ fun _ _ h => h)
      rintro b v ⟨htext, hpost⟩
      refine ⟨htext.trans ?_, hpost⟩
      simp [emitted, Line.isCommand]

/-- A name that is there has its slot. -/
theorem getVariablePos_finds (hnodup : names.Nodup) {amount : Nat} (hamount : amount ≤ names.length) (hname : name ∈ names.take amount)
    {g : Int × Nat → Gen Namespaces β} (hg : Prints (Knows names outer n previous) (g (names.idxOf name, amount)) lines post) :
    Prints (Knows names outer n previous) (getVariablePos Namespaces.names place amount name >>= g) lines post := by
  intro s hs
  rw [getVariablePos, bind_assoc]
  refine (look_ends.mono (fun _ _ h => h) fun _ _ _ => trivial).bind ?_
  rintro position t ⟨hfind, rfl⟩
  obtain ⟨hfound, hmissing⟩ := hs.represents.find hamount hfind
  cases position with
  | some slot =>
      rw [idxOf_of_getElem? hnodup (hfound slot rfl)] at hg
      exact hg t hs
  | none => exact absurd hname (hmissing rfl)

/-- A name that has just been looked up. -/
theorem getVariablePos_again (hnodup : names.Nodup) {g : Int × Nat → Gen Namespaces β}
    (hg : Prints (Knows (addName names name) outer n previous) (g ((addName names name).idxOf name, (addName names name).length)) lines post) :
    Prints (Knows (addName names name) outer n previous)
      (getVariablePos Namespaces.names place (addName names name).length name >>= g) lines post :=
  getVariablePos_finds (nodup_addName hnodup) (le_refl _) (by rw [List.take_length]; exact mem_addName) hg

variable {env : Environment}

/-! ## Expressions -/

theorem Expr.prints (e : Expr) (hnodup : names.Nodup) :
    Prints (Knows names outer n previous) (printOperation Namespaces.names env place e.tree) (e.code names)
      (Knows (e.tree.namesAfter names) outer n previous) := by
  have hplain : ∀ {names : List String} {place : Place} {text : String}, Prints (Knows names outer n previous)
      (print place (.instruction text)) [.instruction text] (Knows names outer n previous) := print_prints rfl
  induction e generalizing names place with
  | number bits => exact vars_before_prints (print_prints rfl)
  | «variable» name =>
      refine vars_before_prints ?_
      exact getVariablePos_prints fun _ => getVariablePos_again hnodup (print_prints rfl)
  | binary op left right ihleft ihright =>
      have hleft : ∀ {place : Place}, Prints _ (printOperation Namespaces.names env place left.tree) _ _ := ihleft hnodup
      have hright : ∀ {place : Place}, Prints _ (printOperation Namespaces.names env place right.tree) _ _ := ihright hnodup
      have hleft' : ∀ {place : Place}, Prints _ (printOperation Namespaces.names env place left.tree) _ _ :=
        ihleft (nodup_namesAfter right.tree hnodup)
      have hright' : ∀ {place : Place}, Prints _ (printOperation Namespaces.names env place right.tree) _ _ :=
        ihright (nodup_namesAfter left.tree hnodup)
      cases op with
      | ADD => exact vars_before_prints (hleft.bind fun _ => hright'.bind fun _ => hplain)
      | SUB => exact vars_before_prints (hright.bind fun _ => hleft'.bind fun _ => hplain)
      | MUL => exact vars_before_prints (hleft.bind fun _ => hright'.bind fun _ => hplain)
      | DIV => exact vars_before_prints (hright.bind fun _ => hleft'.bind fun _ => hplain)
  | unary op operand ih =>
      cases op with
      | SIN => exact vars_before_prints ((ih hnodup).bind fun _ => hplain)
      | SQRT => exact vars_before_prints ((ih hnodup).bind fun _ => hplain)

/-! ## Parameters -/

/-- What is printed for one parameter behind the option. -/
def PrintsParam (operation : Options) (lines : String → Nat → List Line) : Prop :=
  ∀ {names : List String} {outer : List (List String)} {n : Nat} {place : Place} {name : String}, names.Nodup → name ∈ names →
    Prints (Knows names outer n (· = operation)) (printParam Namespaces.names place names.length name)
      (lines name (names.idxOf name)) (Knows names outer n (· = operation))

section
variable {operation : Options} {line : String → Nat → List Line}

theorem in_prints : PrintsParam IN inLines := by
  intro names outer n place name hnodup hname
  have hmem : name ∈ names.take names.length := by rwa [List.take_length]
  refine Prints.get fun s hs => ?_
  dsimp only
  rw [hs.option, if_pos rfl]
  refine Prints.mono (Prints.line rfl ?_) (fun _ heq => heq ▸ hs) fun _ h => h
  exact getVariablePos_finds hnodup (le_refl _) hmem (print_prints rfl)

theorem out_prints : PrintsParam OUT outLines := by
  intro names outer n place name hnodup hname
  have hmem : name ∈ names.take names.length := by rwa [List.take_length]
  refine Prints.get fun s hs => ?_
  dsimp only
  rw [hs.option, if_neg (by decide), if_pos rfl]
  refine Prints.mono (getVariablePos_finds hnodup (le_refl _) hmem ?_) (fun _ heq => heq ▸ hs) fun _ h => h
  exact Prints.line rfl (print_prints rfl)

theorem call_prints : PrintsParam CALL pushLine := by
  intro names outer n place name hnodup hname
  have hmem : name ∈ names.take names.length := by rwa [List.take_length]
  refine Prints.get fun s hs => ?_
  dsimp only
  rw [hs.option, if_neg (by decide), if_neg (by decide), if_pos rfl]
  exact Prints.mono (getVariablePos_finds hnodup (le_refl _) hmem (print_prints rfl)) (fun _ heq => heq ▸ hs) fun _ h => h

theorem func_prints : PrintsParam FUNC popLine := by
  intro names outer n place name hnodup hname
  have hmem : name ∈ names.take names.length := by rwa [List.take_length]
  refine Prints.get fun s hs => ?_
  dsimp only
  rw [hs.option, if_neg (by decide), if_neg (by decide), if_neg (by decide), if_pos rfl]
  refine Prints.mono (getVariablePos_finds hnodup (le_refl _) hmem ?_) (fun _ heq => heq ▸ hs) fun _ h => h
  exact getVariablePos_finds hnodup (le_refl _) hmem (print_prints rfl)

theorem ret_prints : PrintsParam RET pushLine := by
  intro names outer n place name hnodup hname
  have hmem : name ∈ names.take names.length := by rwa [List.take_length]
  refine Prints.get fun s hs => ?_
  dsimp only
  rw [hs.option, if_neg (by decide), if_neg (by decide), if_neg (by decide), if_neg (by decide), if_pos rfl]
  exact Prints.mono (getVariablePos_finds hnodup (le_refl _) hmem (print_prints rfl)) (fun _ heq => heq ▸ hs) fun _ h => h

theorem PrintsParam.params (h : PrintsParam operation line) (params : List String) (hnodup : names.Nodup) :
    Prints (Knows names outer n (· = operation)) (printOperation Namespaces.names env place (paramsTree params))
      (paramsCode line params names) (Knows ((paramsTree params).namesAfter names) outer n (· = operation)) := by
  induction params generalizing names place with
  | nil => exact .pure
  | cons name params ih =>
      refine vars_before_prints (getVariablePos_prints fun _ => ?_)
      exact (h (nodup_addName hnodup) mem_addName).bind fun _ => ih (nodup_addName hnodup)

/-- The option is set for the parameters. -/
theorem PrintsParam.setPrevious (h : PrintsParam operation line) (params : List String) (hnodup : names.Nodup) {g : Gen Namespaces β}
    (hg : Prints (Knows ((paramsTree params).namesAfter names) outer n anyOption) g lines post) :
    Prints (Knows names outer n previous) (do
      Language.setPrevious operation
      printOperation Namespaces.names env place (paramsTree params)
      g) (paramsCode line params names ++ lines) post :=
  setPrevious_prints.after fun _ => (h.params params hnodup).bind fun _ => hg.mono (fun _ hs => hs.any) fun _ hs => hs

end

/-! ## Statements -/

theorem call_prints_code {func_name : String} {args : List String} (hnodup : names.Nodup) :
    Prints (Knows names outer n previous) (printOperation Namespaces.names env place (callTree func_name args))
      (callCode func_name args names) (Knows ((callTree func_name args).namesAfter names) outer n anyOption) := by
  refine vars_before_prints (call_prints.setPrevious args hnodup ?_)
  exact Prints.line rfl (Prints.line rfl (print_prints rfl))

/-- The comparison jumps to the label with the counter. -/
theorem Comparison.prints (c : Comparison) (left right : Expr) (hnodup : names.Nodup) :
    Prints (Knows names outer n previous) (printOperation Namespaces.names env place (OP_NODE c.option left.tree right.tree))
      (c.code left right (ifLabel n) names)
      (Knows ((OP_NODE c.option left.tree right.tree).namesAfter names) outer n previous) := by
  have hjump : ∀ {names : List String} {place : Place} {text : String}, Prints (Knows names outer n previous)
      (do print place (.jump text (ifLabel (← get).label_counter))) [.jump text (ifLabel n)] (Knows names outer n previous) := by
    intro names place text
    refine Prints.get fun s hs => ?_
    rw [hs.counter]
    exact (print_prints rfl).mono (fun _ heq => heq ▸ hs) fun _ h => h
  have hleft := fun place => @Expr.prints names outer n previous place env left hnodup
  have hright := fun place => @Expr.prints names outer n previous place env right hnodup
  have hleft' := fun place => @Expr.prints _ outer n previous place env left (nodup_namesAfter right.tree hnodup)
  have hright' := fun place => @Expr.prints _ outer n previous place env right (nodup_namesAfter left.tree hnodup)
  cases c with
  | IS_EE => exact vars_before_prints ((hleft _).bind fun _ => (hright' _).bind fun _ => hjump)
  | IS_NE => exact vars_before_prints ((hleft _).bind fun _ => (hright' _).bind fun _ => hjump)
  | IS_BT => exact vars_before_prints ((hright _).bind fun _ => (hleft' _).bind fun _ => hjump)

theorem Stmt.prints (stmt : Stmt) (hnodup : names.Nodup) :
    Prints (Knows names outer n previous) (printOperation Namespaces.names env place stmt.tree) (stmt.code names n)
      (Knows (stmt.tree.namesAfter names) outer (n + stmt.tree.conditionals) anyOption) := by
  induction stmt generalizing names n place previous with
  | skip => exact Prints.pure.mono (fun _ h => h.any) fun _ h => h
  | seq first rest ihfirst ihrest =>
      have hrest := fun place => @ihrest _ (n + first.tree.conditionals) anyOption place (nodup_namesAfter first.tree hnodup)
      refine vars_before_prints ((ihfirst hnodup).bind fun _ => (hrest _).mono (fun _ h => h) fun _ h => ?_)
      rwa [Nat.add_assoc] at h
  | set name value =>
      have hgrows := isPrefix_namesAfter value.tree (addName names name)
      refine vars_before_prints (getVariablePos_prints fun _ => (value.prints (nodup_addName hnodup)).bind fun _ => ?_)
      have hslot := idxOf_of_grown hgrows mem_addName
      rw [← hslot]
      refine (getVariablePos_finds (nodup_namesAfter _ (nodup_addName hnodup)) hgrows.length_le ?_ (print_prints rfl)).mono
        (fun _ h => h) fun _ h => h.any
      rw [← List.prefix_iff_eq_take.1 hgrows]
      exact mem_addName
  | setCall name func_name args =>
      have hgrows := isPrefix_namesAfter (callTree func_name args) (addName names name)
      refine vars_before_prints (getVariablePos_prints fun _ => (call_prints_code (nodup_addName hnodup)).bind fun _ => ?_)
      have hslot := idxOf_of_grown hgrows mem_addName
      rw [← hslot]
      refine (getVariablePos_finds (nodup_namesAfter _ (nodup_addName hnodup)) hgrows.length_le ?_ (print_prints rfl)).mono
        (fun _ h => h) fun _ h => h.any
      rw [← List.prefix_iff_eq_take.1 hgrows]
      exact mem_addName
  | call func_name args => exact call_prints_code hnodup
  | input params =>
      refine vars_before_prints (setPrevious_prints.after fun _ => ?_)
      exact (in_prints.params params hnodup).mono (fun _ h => h) fun _ h => h.any
  | output params =>
      refine vars_before_prints (setPrevious_prints.after fun _ => ?_)
      exact (out_prints.params params hnodup).mono (fun _ h => h) fun _ h => h.any
  | cond comparison left right if_body else_body ihif ihelse =>
      have hcomparison := fun place => @Comparison.prints names outer n previous place env comparison left right hnodup
      have hafter := nodup_namesAfter (OP_NODE comparison.option left.tree right.tree) hnodup
      have hif := fun place => @ihif _ (n + 1) previous place hafter
      have helse := fun place => @ihelse _ (n + 1 + if_body.tree.conditionals) anyOption place (nodup_namesAfter if_body.tree hafter)
      refine vars_before_prints ((hcomparison _).bind fun _ => vars_before_prints ?_)
      refine Prints.get fun s hs => ?_
      rw [hs.counter]
      refine Prints.mono ?_ (fun _ heq => heq ▸ hs) fun _ h => h
      have hcount : Prints (Knows ((OP_NODE comparison.option left.tree right.tree).namesAfter names) outer n previous)
          (modify fun s : GenState Namespaces => { s with label_counter := s.label_counter + 1 }) []
          (Knows ((OP_NODE comparison.option left.tree right.tree).namesAfter names) outer (n + 1) previous) :=
        fun t ht => Adds.modify (List.append_nil _).symm ⟨ht.represents, congrArg (· + 1) ht.counter, ht.option⟩
      refine hcount.after fun _ => (hif _).bind fun _ => Prints.line rfl (Prints.line rfl ((helse _).bind fun _ => ?_))
      refine (print_prints rfl).mono (fun _ h => h) fun _ h => ?_
      have hcounter : n + 1 + if_body.tree.conditionals + else_body.tree.conditionals =
          n + (if_body.tree.conditionals + else_body.tree.conditionals + 1) := by omega
      rwa [hcounter] at h
  | ret params =>
      refine vars_before_prints (Prints.line rfl (ret_prints.setPrevious params hnodup ?_))
      exact Prints.line rfl (print_prints rfl)

/-! ## Functions -/

theorem Func.prints (f : Func) :
    Prints (Knows names [] n previous) (printOperation Namespaces.names env place f.tree) (f.code n)
      (Knows names [] (n + f.tree.conditionals) anyOption) := by
  have hbody := fun place => @Stmt.prints f.paramNames [names] n anyOption place env f.body (nodup_namesAfter _ List.nodup_nil)
  have hdeclare : Prints (Knows names [] n previous) (update (Namespaces.names.declare names.length)) [] (Knows [] [names] n previous) := by
    intro s hs
    refine update_ends.mono ?_ fun _ _ _ => trivial
    rintro - t ⟨tables, hdeclare, rfl⟩
    exact ⟨(List.append_nil _).symm, hs.represents.declare (fun h => absurd rfl h) hdeclare, hs.counter, hs.option⟩
  have hleave : Prints (Knows f.names [names] (n + f.body.tree.conditionals) anyOption) (update Namespaces.names.leave) []
      (Knows names [] (n + f.body.tree.conditionals) anyOption) := by
    intro s hs
    refine update_ends.mono ?_ fun _ _ _ => trivial
    rintro - t ⟨tables, hleave, rfl⟩
    exact ⟨(List.append_nil _).symm, Represents.leave hs.represents hleave, hs.counter, trivial⟩
  have hheader : Prints (Knows [] [names] n previous) (printOperation Namespaces.names env place.inside.left
        (.node .NAME_T (.var_name f.name) (paramsTree f.params) .null))
      (.label f.name :: .instruction "pop rcx" :: paramsCode popLine f.params []) (Knows f.paramNames [names] n anyOption) := by
    have hlabel : (Line.label f.name).isCommand = true := rfl
    have hparams : Prints (Knows [] [names] n (· = FUNC)) (printOperation Namespaces.names env place.inside.left.left (paramsTree f.params))
        (paramsCode popLine f.params []) (Knows f.paramNames [names] n anyOption) :=
      (func_prints.params f.params List.nodup_nil).mono (fun _ h => h) fun _ h => h.any
    exact vars_before_prints (Prints.line hlabel (Prints.line rfl (setPrevious_prints.after fun _ => hparams)))
  have hpush : Prints (Knows f.paramNames [names] n anyOption) (print place.inside (.instruction "push rcx"))
      [.instruction "push rcx"] (Knows f.paramNames [names] n anyOption) := print_prints rfl
  have hrest := hpush.bind fun _ => (hbody place.inside.right).bind fun _ => hleave
  rw [List.append_nil] at hrest
  exact vars_before_prints (hdeclare.after fun _ => hheader.bind fun _ => hrest)

theorem Program.prints (p : Program) :
    Prints (Knows names [] n previous) (printOperation Namespaces.names env place p.tree) (p.code n) (Knows names [] (n + p.tree.conditionals) anyOption) := by
  induction p generalizing n place previous with
  | nil => exact Prints.pure.mono (fun _ h => h.any) fun _ h => h
  | cons f p ih =>
      refine vars_before_prints (f.prints.bind fun _ => ih.mono (fun _ h => h) fun _ h => ?_)
      rwa [Nat.add_assoc] at h

/-- What is printed for a program. -/
theorem printCmdsInFile_prints (p : Program) :
    Prints (Knows [] [] 0 anyOption) (printCmdsInFile Namespaces.names env p.tree) p.lines (Knows [] [] (0 + p.tree.conditionals) anyOption) :=
  Prints.line rfl (Prints.line rfl (p.prints.bind fun _ => print_prints rfl))

end

end CompilerLab.Language
