import CompilerLab.Language.Lemmas.Namespaces
import CompilerLab.Language.Tree
import CompilerLab.Language.Variables
import CompilerLab.Lib.Outcome
import Mathlib.Data.Set.BooleanAlgebra
import Mathlib.Order.CompletePartialOrder

/-!
# What a run prints for variables

The lines of one function, read from the first to the last, know all its names: a line that introduces a name gives it the next
slot, and a line that uses a name has the slot of it.
-/

namespace CompilerLab.Language

open Options TreeNode Lib

/-! ## The lines of one function -/

/-- A line that is not about a variable. -/
def Line.IsPlain : Line → Prop
  | .variable _ _ _ | .introduce _ _ => False
  | _ => True

/-- The lines lead from some names to others, and every slot in them is right. -/
inductive Slots : List String → List Line → List String → Prop where
  | nil {names} : Slots names [] names
  | introduce {names names' lines name} (hnew : name ∉ names) (h : Slots (names ++ [name]) lines names') :
      Slots names (.introduce name names.length :: lines) names'
  | variable {names names' lines instruction name} {slot : Nat} (hslot : names[slot]? = some name) (h : Slots names lines names') :
      Slots names (.variable instruction name slot :: lines) names'
  | plain {names names' lines line} (hline : line.IsPlain) (h : Slots names lines names') : Slots names (line :: lines) names'

/-- Every call moves `rax` by more than all slots, with `n` of them before the lines. -/
def Clear : Nat → List Line → Prop
  | _, [] => True
  | n, .introduce _ _ :: lines => Clear (n + 1) lines
  | n, .shift instruction amount :: lines => (instruction = "add" → n ≤ amount) ∧ Clear n lines
  | n, _ :: lines => Clear n lines

section
variable {names names₁ names₂ : List String} {lines lines' : List Line}

theorem Slots.append (h : Slots names lines names₁) (h' : Slots names₁ lines' names₂) : Slots names (lines ++ lines') names₂ := by
  induction h with
  | nil => exact h'
  | introduce hnew _ ih => exact .introduce hnew (ih h')
  | «variable» hslot _ ih => exact .variable hslot (ih h')
  | plain hline _ ih => exact .plain hline (ih h')

theorem Slots.isPrefix (h : Slots names lines names₁) : names <+: names₁ := by
  induction h with
  | nil => exact List.prefix_refl _
  | introduce _ _ ih => exact (List.prefix_append _ _).trans ih
  | «variable» _ _ ih => exact ih
  | plain _ _ ih => exact ih

theorem Clear.plain {n : Nat} {line : Line} (hline : line.IsPlain) :
    Clear n (line :: lines) ↔ Clear n [line] ∧ Clear n lines := by
  cases line with
  | «variable» _ _ _ => exact hline.elim
  | introduce _ _ => exact hline.elim
  | _ => simp [Clear]

theorem Slots.clear_append (h : Slots names lines names₁) :
    Clear names.length (lines ++ lines') ↔ Clear names.length lines ∧ Clear names₁.length lines' := by
  induction h with
  | nil => simp [Clear]
  | introduce _ _ ih => simpa [Clear] using ih
  | «variable» _ _ ih => simpa [Clear] using ih
  | plain hline _ ih => rw [List.cons_append, Clear.plain hline, ih, ← and_assoc, ← Clear.plain hline]

end

/-! ## The lines of all functions -/

section
variable {function : Option (List Bool)} {text text' : List (Place × Line)}

theorem linesOf_append : linesOf function (text ++ text') = linesOf function text ++ linesOf function text' := by
  simp [linesOf]

theorem linesOf_own {place : Place} {line : Line} : linesOf place.function [(place, line)] = [line] := by simp [linesOf]

theorem linesOf_other {place : Place} {line : Line} (h : function ≠ place.function) : linesOf function [(place, line)] = [] := by
  simp [linesOf, Ne.symm h]

end

/-- The function goes from some names to others; other functions there are only at the nodes in `inner`, and they are whole. -/
structure Written (inner : Set (List Bool)) (function : Option (List Bool)) (names : List String) (added : List (Place × Line))
    (names' : List String) : Prop where
  own : Slots names (linesOf function added) names'
  inside : ∀ other ≠ function, linesOf other added ≠ [] → ∃ node ∈ inner, other = some node
  whole : ∀ other ≠ function, ∃ names', Slots [] (linesOf other added) names'

/-- All calls in functions move `rax` far enough. -/
def Frames (function : Option (List Bool)) (n : Nat) (added : List (Place × Line)) : Prop :=
  (function.isSome → Clear n (linesOf function added)) ∧ ∀ other ≠ function, Clear 0 (linesOf other added)

section
variable {inner inner' : Set (List Bool)} {function : Option (List Bool)} {names names₁ names₂ : List String}
  {added added' : List (Place × Line)}

theorem Written.nil : Written inner function names [] names where
  own := .nil
  inside _ _ h := absurd rfl h
  whole _ _ := ⟨[], .nil⟩

theorem Frames.nil {n : Nat} : Frames function n [] := ⟨fun _ => trivial, fun _ _ => trivial⟩

theorem Written.line {place : Place} {line : Line} (h : Slots names [line] names₁) :
    Written inner place.function names [(place, line)] names₁ where
  own := by rwa [linesOf_own]
  inside other hother hne := absurd (linesOf_other hother) hne
  whole other hother := ⟨[], by rw [linesOf_other hother]; exact .nil⟩

theorem Frames.line {place : Place} {line : Line} {n : Nat} :
    Frames place.function n [(place, line)] ↔ (place.function.isSome → Clear n [line]) := by
  rw [Frames, linesOf_own]
  exact and_iff_left fun other hother => by rw [linesOf_other hother]; trivial

theorem Written.mono (h : Written inner function names added names₁) (hsub : inner ⊆ inner') :
    Written inner' function names added names₁ where
  own := h.own
  inside other hother hne := (h.inside other hother hne).imp fun _ hnode => ⟨hsub hnode.1, hnode.2⟩
  whole := h.whole

/-- Another function has lines in one part only. -/
theorem Written.other (h : Written inner function names added names₁) (h' : Written inner' function names₁ added' names₂)
    (hdisjoint : Disjoint inner inner') {other : Option (List Bool)} (hother : other ≠ function) :
    linesOf other added = [] ∨ linesOf other added' = [] := by
  by_contra hboth
  rw [not_or] at hboth
  obtain ⟨node, hnode, rfl⟩ := h.inside other hother hboth.1
  obtain ⟨node', hnode', heq⟩ := h'.inside _ hother hboth.2
  cases heq
  exact Set.disjoint_left.1 hdisjoint hnode hnode'

theorem Written.append (h : Written inner function names added names₁) (h' : Written inner' function names₁ added' names₂)
    (hdisjoint : Disjoint inner inner') : Written (inner ∪ inner') function names (added ++ added') names₂ where
  own := by
    rw [linesOf_append]
    exact h.own.append h'.own
  inside other hother hne := by
    rw [linesOf_append] at hne
    by_cases hadded : linesOf other added = []
    · rw [hadded, List.nil_append] at hne
      exact (h'.inside other hother hne).imp fun _ hnode => ⟨.inr hnode.1, hnode.2⟩
    · exact (h.inside other hother hadded).imp fun _ hnode => ⟨.inl hnode.1, hnode.2⟩
  whole other hother := by
    rw [linesOf_append]
    obtain hnil | hnil := h.other h' hdisjoint hother
    · rw [hnil]
      exact h'.whole other hother
    · rw [hnil, List.append_nil]
      exact h.whole other hother

theorem Written.frames_append (h : Written inner function names added names₁) (h' : Written inner' function names₁ added' names₂)
    (hdisjoint : Disjoint inner inner') :
    Frames function names.length (added ++ added') ↔
      Frames function names.length added ∧ Frames function names₁.length added' := by
  have hothers : (∀ other ≠ function, Clear 0 (linesOf other (added ++ added'))) ↔
      (∀ other ≠ function, Clear 0 (linesOf other added)) ∧ ∀ other ≠ function, Clear 0 (linesOf other added') := by
    rw [← forall_and]
    refine forall_congr' fun other => ?_
    rw [← forall_and]
    refine forall_congr' fun hother => ?_
    rw [linesOf_append]
    obtain hnil | hnil := h.other h' hdisjoint hother
    · simp [hnil, Clear]
    · simp [hnil, Clear]
  simp only [Frames, hothers]
  rw [linesOf_append, h.own.clear_append, imp_and]
  tauto

end

/-! ## Steps of the generator -/

/-- A run of the step goes from some names to others. Where it completes, its calls move `rax` far enough just if `fits`. -/
def Writes {α : Type} (inner : Set (List Bool)) (function : Option (List Bool)) (outer : List (List String)) (names : List String)
    (m : Gen Namespaces α) (names' : List String) (fits : Prop) : Prop :=
  ∀ s, Represents s.names names outer → Ends m s
    (fun _ s' => Represents s'.names names' outer ∧ ∃ added, s'.text = s.text ++ added ∧
      Written inner function names added names' ∧ (Frames function names.length added ↔ fits))
    fun _ s' => ∃ added stop, s'.text = s.text ++ added ∧ Written inner function names added stop ∧
      (fits → Frames function names.length added)

section
variable {α β : Type} {inner inner' : Set (List Bool)} {function : Option (List Bool)} {outer : List (List String)}
  {names names₁ names₂ : List String} {m : Gen Namespaces α} {f : α → Gen Namespaces β} {P Q : Prop}

namespace Writes

theorem pure {a : α} : Writes inner function outer names (pure a) names True :=
  fun _ hs => Ends.pure ⟨hs, [], (List.append_nil _).symm, .nil, iff_of_true .nil trivial⟩

theorem throw {fault : GenerationFault} : Writes inner function outer names (throw fault : Gen Namespaces α) names₁ P :=
  fun _ _ => Ends.throw ⟨[], names, (List.append_nil _).symm, .nil, fun _ => .nil⟩

/-- A step that changes neither the tables nor the text. -/
theorem modify {g : GenState Namespaces → GenState Namespaces} (hnames : ∀ s, (g s).names = s.names) (htext : ∀ s, (g s).text = s.text) :
    Writes inner function outer names (modify g) names True := by
  intro s hs
  refine Ends.modify ⟨by rwa [hnames], [], ?_, .nil, iff_of_true .nil trivial⟩
  rw [htext, List.append_nil]

theorem mono (h : Writes inner function outer names m names₁ P) (hsub : inner ⊆ inner') :
    Writes inner' function outer names m names₁ P := by
  intro s hs
  refine (h s hs).mono ?_ ?_
  · rintro a s' ⟨hs', added, htext, hwritten, hframes⟩
    exact ⟨hs', added, htext, hwritten.mono hsub, hframes⟩
  · rintro e s' ⟨added, stop, htext, hwritten, hframes⟩
    exact ⟨added, stop, htext, hwritten.mono hsub, hframes⟩

theorem bind (hm : Writes inner function outer names m names₁ P) (hf : ∀ a, Writes inner' function outer names₁ (f a) names₂ Q)
    (hdisjoint : Disjoint inner inner') : Writes (inner ∪ inner') function outer names (m >>= f) names₂ (P ∧ Q) := by
  intro s hs
  refine Ends.bind ((hm s hs).mono (fun _ _ h => h) ?_) ?_
  · rintro e s' ⟨added, stop, htext, hwritten, hframes⟩
    exact ⟨added, stop, htext, hwritten.mono Set.subset_union_left, fun hPQ => hframes hPQ.1⟩
  · rintro a s₁ ⟨hs₁, added, htext, hwritten, hframes⟩
    refine (hf a s₁ hs₁).mono ?_ ?_
    · rintro b s₂ ⟨hs₂, added', htext', hwritten', hframes'⟩
      refine ⟨hs₂, added ++ added', by rw [htext', htext, List.append_assoc], hwritten.append hwritten' hdisjoint, ?_⟩
      rw [hwritten.frames_append hwritten' hdisjoint, hframes, hframes']
    · rintro e s₂ ⟨added', stop, htext', hwritten', hframes'⟩
      refine ⟨added ++ added', stop, by rw [htext', htext, List.append_assoc], hwritten.append hwritten' hdisjoint, fun hPQ => ?_⟩
      exact (hwritten.frames_append hwritten' hdisjoint).2 ⟨hframes.2 hPQ.1, hframes' hPQ.2⟩

/-- No other function is in the first part. -/
theorem first (hm : Writes ∅ function outer names m names₁ P) (hf : ∀ a, Writes inner function outer names₁ (f a) names₂ Q) :
    Writes inner function outer names (m >>= f) names₂ (P ∧ Q) := by
  simpa only [Set.empty_union] using hm.bind hf (Set.empty_disjoint inner)

theorem before (hm : Writes ∅ function outer names m names₁ True)
    (hf : ∀ a, Writes inner function outer names₁ (f a) names₂ Q) : Writes inner function outer names (m >>= f) names₂ Q := by
  simpa only [true_and] using hm.first hf

theorem after (hm : Writes inner function outer names m names₁ P)
    (hf : ∀ a, Writes ∅ function outer names₁ (f a) names₂ True) : Writes inner function outer names (m >>= f) names₂ P := by
  simpa only [Set.union_empty, and_true] using hm.bind hf (Set.disjoint_empty inner)

theorem get {f : GenState Namespaces → Gen Namespaces β} (hf : ∀ s, Writes inner function outer names (f s) names₁ P) :
    Writes inner function outer names (get >>= f) names₁ P :=
  fun s hs => hf s s hs

end Writes

theorem look_ends {σ : Type} {operation : σ → Except TableFault α} {s : GenState σ} :
    Ends (look operation) s (fun a t => operation s.names = .ok a ∧ t = s) fun _ t => t = s := by
  refine Ends.get_bind ?_
  cases operation s.names with
  | ok a => exact Ends.pure ⟨rfl, rfl⟩
  | error fault => exact Ends.throw rfl

theorem update_ends {σ : Type} {operation : σ → Except TableFault σ} {s : GenState σ} :
    Ends (update operation) s (fun _ t => ∃ names, operation s.names = .ok names ∧ t = { s with names }) fun _ t => t = s := by
  refine Ends.get_bind ?_
  cases operation s.names with
  | ok names => exact Ends.modify ⟨names, rfl, rfl⟩
  | error fault => exact Ends.throw rfl

/-- Nothing has been printed when the step stops. -/
theorem stops {s : GenState Namespaces} :
    ∃ added stop, s.text = s.text ++ added ∧ Written inner function names added stop ∧ (P → Frames function names.length added) :=
  ⟨[], names, (List.append_nil _).symm, .nil, fun _ => .nil⟩

theorem vars_before_writes {f : Nat → Gen Namespaces β} (hf : Writes inner function outer names (f names.length) names₁ P) :
    Writes inner function outer names (look Namespaces.names.vars_before >>= f) names₁ P := by
  intro s hs
  refine (look_ends.mono (fun _ _ h => h) ?_).bind ?_
  · rintro e t rfl
    exact stops
  · rintro n t ⟨hn, rfl⟩
    rw [hs.vars_before hn]
    exact hf t hs

variable {place : Place}

theorem print_shift {amount : Nat} :
    Writes inner place.function outer names (print place (.shift "add" amount)) names
      (place.function.isSome → names.length ≤ amount) := by
  intro s hs
  refine Ends.modify ⟨hs, [(place, .shift "add" amount)], rfl, .line (.plain trivial .nil), Frames.line.trans ?_⟩
  simp [Clear]

theorem print_plain {line : Line} (hline : line.IsPlain) (hclear : ∀ n, Clear n [line]) :
    Writes inner place.function outer names (print place line) names True := by
  intro s hs
  exact Ends.modify ⟨hs, [(place, line)], rfl, .line (.plain hline .nil), iff_of_true (Frames.line.2 fun _ => hclear _) trivial⟩

theorem print_variable {instruction name : String} {slot : Nat} (hslot : names[slot]? = some name) :
    Writes inner place.function outer names (print place (.variable instruction name slot)) names True := by
  intro s hs
  refine Ends.modify ⟨hs, [(place, .variable instruction name slot)], rfl, .line (.variable hslot .nil), ?_⟩
  exact iff_of_true (Frames.line.2 fun _ => trivial) trivial

theorem addName_of_mem {name : String} (h : name ∈ names) : addName names name = names := if_pos h

theorem addName_of_not_mem {name : String} (h : name ∉ names) : addName names name = names ++ [name] := if_neg h

theorem mem_addName {name : String} : name ∈ addName names name := by
  by_cases h : name ∈ names
  · rwa [addName_of_mem h]
  · rw [addName_of_not_mem h]
    exact List.mem_append_right _ (List.mem_singleton_self _)

theorem isPrefix_addName {name : String} : names <+: addName names name := by
  by_cases h : name ∈ names
  · rw [addName_of_mem h]
  · rw [addName_of_not_mem h]
    exact List.prefix_append _ _

theorem isPrefix_namesAfter (tree : TreeNode) (names : List String) : names <+: tree.namesAfter names := by
  induction tree generalizing names with
  | null => exact List.prefix_refl _
  | node type value left right ihleft ihright =>
      unfold namesAfter
      split
      case h_1 op =>
        split
        all_goals first
          | exact (ihleft names).trans (ihright _)
          | exact (ihright names).trans (ihleft _)
          | exact isPrefix_addName.trans (ihright _)
          | exact ihleft names
          | exact ihright names
          | exact List.prefix_refl _
      case h_2 => exact ihleft names
      case h_3 => exact isPrefix_addName
      case h_4 => exact List.prefix_refl _

/-- An introduced name is in the table and in the text. -/
theorem introduce_writes {name : String} (hnew : name ∉ names) {g : Gen Namespaces β}
    (hg : Writes inner place.function outer (names ++ [name]) g names₁ P) :
    Writes inner place.function outer names (do
      update (Namespaces.names.insert names.length name)
      print place (.introduce name names.length)
      g) names₁ P := by
  intro s hs
  refine (update_ends.mono (fun _ _ h => h) ?_).bind ?_
  · rintro e t rfl
    exact stops
  · rintro - t ⟨tables, hinsert, rfl⟩
    have hline : Written ∅ place.function names [(place, .introduce name names.length)] (names ++ [name]) :=
      .line (.introduce hnew .nil)
    have hclear : Frames place.function names.length [(place, .introduce name names.length)] := Frames.line.2 fun _ => trivial
    refine Ends.modify_bind ((hg _ (hs.insert hinsert)).mono ?_ ?_)
    · rintro b s₁ ⟨hs₁, added, htext, hwritten, hframes⟩
      have happend := hline.append hwritten (Set.empty_disjoint inner)
      rw [Set.empty_union] at happend
      refine ⟨hs₁, _, by rw [htext, List.append_assoc], happend, ?_⟩
      exact (hline.frames_append hwritten (Set.empty_disjoint inner)).trans ((and_iff_right hclear).trans hframes)
    · rintro e s₁ ⟨added, stop, htext, hwritten, hframes⟩
      have happend := hline.append hwritten (Set.empty_disjoint inner)
      rw [Set.empty_union] at happend
      refine ⟨_, stop, by rw [htext, List.append_assoc], happend, fun hP => ?_⟩
      exact (hline.frames_append hwritten (Set.empty_disjoint inner)).2 ⟨hclear, hframes hP⟩

theorem getVariablePos_writes {name : String} {g : Int × Nat → Gen Namespaces β}
    (hg : ∀ position, Writes inner place.function outer (addName names name) (g (position, (addName names name).length)) names₁ P) :
    Writes inner place.function outer names (getVariablePos Namespaces.names place names.length name >>= g) names₁ P := by
  intro s hs
  rw [getVariablePos, bind_assoc]
  refine (look_ends.mono (fun _ _ h => h) ?_).bind ?_
  · rintro e t rfl
    exact stops
  · rintro position t ⟨hfind, rfl⟩
    obtain ⟨hfound, hmissing⟩ := hs.find (le_refl _) hfind
    cases position with
    | some slot =>
        have hmem := List.mem_of_getElem? (hfound slot rfl)
        rw [addName_of_mem hmem] at hg
        exact hg slot t hs
    | none =>
        have hnew : name ∉ names := by simpa using hmissing rfl
        rw [addName_of_not_mem hnew, List.length_append] at hg
        simp only [bind_assoc]
        exact introduce_writes hnew (hg (-1)) t hs

theorem getVariablePos_found {amount : Nat} {name : String} (hamount : amount ≤ names.length) (hname : name ∈ names.take amount)
    {g : Int × Nat → Gen Namespaces β}
    (hg : ∀ slot : Nat, names[slot]? = some name → Writes inner place.function outer names (g (slot, amount)) names₁ P) :
    Writes inner place.function outer names (getVariablePos Namespaces.names place amount name >>= g) names₁ P := by
  intro s hs
  rw [getVariablePos, bind_assoc]
  refine (look_ends.mono (fun _ _ h => h) ?_).bind ?_
  · rintro e t rfl
    exact stops
  · rintro position t ⟨hfind, rfl⟩
    obtain ⟨hfound, hmissing⟩ := hs.find hamount hfind
    cases position with
    | some slot => exact hg slot (hfound slot rfl) t hs
    | none => exact absurd hname (hmissing rfl)

theorem textAt_writes {env : Environment} {bits : BitVec 64} : Writes ∅ function outer names (textAt env bits) names True := by
  unfold textAt
  cases env.text bits with
  | some name => exact .pure
  | none => exact .throw

theorem var_name_writes {env : Environment} {tree : TreeNode} : Writes ∅ function outer names (var_name env tree) names True := by
  unfold Language.var_name
  split
  all_goals first
    | exact .pure
    | exact textAt_writes
    | exact .throw

/-- The name of a variable that is set, or of a parameter. -/
theorem var_name_simple {env : Environment} {tree : TreeNode} (h : Simple tree) {g : String → Gen Namespaces β}
    (hg : Writes inner function outer names (g tree.name) names₁ P) :
    Writes inner function outer names (var_name env tree >>= g) names₁ P := by
  cases h with
  | «variable» name => exact hg
  | _ => exact fun _ _ => stops

theorem setPrevious_writes {operation : Options} :
    Writes ∅ function outer names (setPrevious operation : Gen Namespaces Unit) names True :=
  .modify (fun _ => rfl) fun _ => rfl

theorem printParam_writes {name : String} (hname : name ∈ names) :
    Writes ∅ place.function outer names (printParam Namespaces.names place names.length name) names True := by
  have hfound : ∀ {g : Int × Nat → Gen Namespaces Unit},
      (∀ slot : Nat, names[slot]? = some name → Writes ∅ place.function outer names (g (slot, names.length)) names True) →
        Writes ∅ place.function outer names (getVariablePos Namespaces.names place names.length name >>= g) names True :=
    fun hg => getVariablePos_found (le_refl _) (by rwa [List.take_length]) hg
  refine Writes.get fun s => ?_
  dsimp only
  split_ifs
  · exact Writes.before (print_plain trivial fun _ => trivial) fun _ => hfound fun slot hslot => print_variable hslot
  · exact hfound fun slot hslot => (print_variable hslot).before fun _ => print_plain trivial fun _ => trivial
  · exact hfound fun slot hslot => print_variable hslot
  · exact hfound fun _ _ => hfound fun slot hslot => print_variable hslot
  · exact hfound fun slot hslot => print_variable hslot
  · exact .pure

/-! ## The generator -/

theorem printOperation_simple_writes {env : Environment} {tree : TreeNode} (h : Simple tree) :
    Writes ∅ place.function outer names (printOperation Namespaces.names env place tree) (tree.namesAfter names)
      (tree.CallsFit place.function.isSome names) := by
  induction h generalizing place names with
  | null => exact .pure
  | number bits => exact vars_before_writes (print_plain trivial fun _ => trivial)
  | «variable» name =>
      refine vars_before_writes (var_name_simple (.variable name) (getVariablePos_writes fun _ => ?_))
      exact getVariablePos_found (le_refl _) (by rw [List.take_length]; exact mem_addName) fun slot hslot => print_variable hslot
  | call hname _ ih =>
      refine vars_before_writes (setPrevious_writes.before fun _ => ih.first fun _ => ?_)
      refine Writes.after print_shift fun _ => var_name_writes.before fun _ => ?_
      exact Writes.before (print_plain trivial fun _ => trivial) fun _ => print_plain trivial fun _ => by simp [Clear]
  | @operation op left right hop hleft hright ihleft ihright =>
      refine vars_before_writes ?_
      simp only [simpleOperators, List.mem_cons, List.not_mem_nil, or_false] at hop
      obtain rfl | rfl | rfl | rfl | rfl | rfl | rfl | rfl | rfl | rfl | rfl | rfl | rfl | rfl | rfl | rfl | rfl | rfl | rfl := hop
      · exact ihleft.first fun _ => ihright.after fun _ => print_plain trivial fun _ => trivial
      · exact ihright.first fun _ => ihleft.after fun _ => print_plain trivial fun _ => trivial
      · exact ihleft.first fun _ => ihright.after fun _ => print_plain trivial fun _ => trivial
      · exact ihright.first fun _ => ihleft.after fun _ => print_plain trivial fun _ => trivial
      · exact .pure
      · exact ihleft.after fun _ => print_plain trivial fun _ => trivial
      · exact ihleft.after fun _ => print_plain trivial fun _ => trivial
      · exact ihleft.after fun _ => print_plain trivial fun _ => trivial
      · exact .pure
      · exact ihleft.first fun _ => ihright.after fun _ => Writes.get fun s => print_plain trivial fun _ => trivial
      · exact .pure
      · exact .pure
      · exact .pure
      · exact ihright.first fun _ => ihleft.after fun _ => Writes.get fun s => print_plain trivial fun _ => trivial
      · exact ihleft.first fun _ => ihright.after fun _ => Writes.get fun s => print_plain trivial fun _ => trivial
      · refine var_name_simple hleft (getVariablePos_writes fun _ => ihright.after fun _ => ?_)
        have hprefix := isPrefix_namesAfter right (addName names left.name)
        refine getVariablePos_found hprefix.length_le ?_ fun slot hslot => print_variable hslot
        rw [← List.prefix_iff_eq_take.1 hprefix]
        exact mem_addName
      · exact setPrevious_writes.before fun _ => ihleft
      · exact setPrevious_writes.before fun _ => ihleft
      · exact var_name_simple hleft (getVariablePos_writes fun _ => (printParam_writes mem_addName).before fun _ => ihright)

/-- The nodes below a node, and the node. -/
def below (node : List Bool) : Set (List Bool) := { other | node <+: other }

theorem below_subset {node node' : List Bool} (h : node <+: node') : below node' ⊆ below node := fun _ hother => h.trans hother

theorem disjoint_below (node : List Bool) : Disjoint (below (node ++ [false])) (below (node ++ [true])) := by
  rw [Set.disjoint_left]
  intro other hleft hright
  have hsame := List.prefix_of_prefix_length_le hleft hright (by simp)
  simp at hsame

section
variable {node : List Bool} (hfunction : ∀ other ∈ function, other.length < node.length)
  (hinner : ∀ other ∈ inner, node <+: other ∧ node.length < other.length)
include hfunction hinner

/-- The function around a declaration has no line in it. -/
theorem Written.linesOf_around {added : List (Place × Line)} (h : Written inner (some node) [] added names₁) :
    function ≠ some node ∧ linesOf function added = [] := by
  have hne : function ≠ some node := fun heq => absurd (hfunction node heq) (lt_irrefl _)
  refine ⟨hne, ?_⟩
  by_contra hlines
  obtain ⟨other, hother, rfl⟩ := h.inside function hne hlines
  have := hfunction other rfl
  have := (hinner other hother).2
  omega

theorem Written.around {added : List (Place × Line)} (h : Written inner (some node) [] added names₁) :
    Written (below node) function names added names where
  own := by
    rw [(h.linesOf_around hfunction hinner).2]
    exact .nil
  inside other hother hlines := by
    by_cases heq : other = some node
    · exact ⟨node, List.prefix_refl _, heq⟩
    · exact (h.inside other heq hlines).imp fun _ hnode => ⟨(hinner _ hnode.1).1, hnode.2⟩
  whole other _ := by
    by_cases heq : other = some node
    · exact ⟨names₁, heq ▸ h.own⟩
    · exact h.whole other heq

theorem Written.frames_around {added : List (Place × Line)} (h : Written inner (some node) [] added names₁) {n : Nat} :
    Frames function n added ↔ Frames (some node) 0 added := by
  obtain ⟨hne, hnil⟩ := h.linesOf_around hfunction hinner
  rw [Frames, Frames, hnil]
  constructor
  · rintro ⟨-, hothers⟩
    refine ⟨fun _ => hothers _ hne.symm, fun other _ => ?_⟩
    by_cases heq : other = function
    · rw [heq, hnil]
      trivial
    · exact hothers other heq
  · rintro ⟨hown, hothers⟩
    refine ⟨fun _ => trivial, fun other _ => ?_⟩
    by_cases heq : other = some node
    · exact heq ▸ hown rfl
    · exact hothers other heq

theorem declare_writes (hroom : outer ≠ [] → names.length ≤ MAX_VARIABLES) {body : Gen Namespaces α}
    (hbody : Writes inner (some node) (names :: outer) [] body names₁ P) :
    Writes (below node) function outer names (do
      update (Namespaces.names.declare names.length)
      let _ ← body
      update Namespaces.names.leave) names P := by
  intro s hs
  refine (update_ends.mono (fun _ _ h => h) ?_).bind ?_
  · rintro e t rfl
    exact stops
  · rintro - t ⟨tables, hdeclare, rfl⟩
    refine ((hbody _ (hs.declare hroom hdeclare)).mono (fun _ _ h => h) ?_).bind ?_
    · rintro e s₁ ⟨added, stop, htext, hwritten, hframes⟩
      exact ⟨added, names, htext, hwritten.around hfunction hinner, fun hP => (hwritten.frames_around hfunction hinner).2 (hframes hP)⟩
    · rintro a s₁ ⟨hs₁, added, htext, hwritten, hframes⟩
      refine update_ends.mono ?_ ?_
      · rintro - s₂ ⟨tables', hleave, rfl⟩
        exact ⟨hs₁.leave hleave, added, htext, hwritten.around hfunction hinner, (hwritten.frames_around hfunction hinner).trans hframes⟩
      · rintro e s₂ rfl
        exact ⟨added, names, htext, hwritten.around hfunction hinner,
          fun hP => (hwritten.frames_around hfunction hinner).2 (hframes.2 hP)⟩

end

theorem function_deeper (h : ∀ other ∈ place.function, other.length < place.node.length) {deeper : List Bool}
    (hdeeper : place.node <+: deeper) : ∀ other ∈ place.function, other.length < deeper.length :=
  fun other hother => (h other hother).trans_le hdeeper.length_le

theorem printOperation_writes {env : Environment} {tree : TreeNode} (h : Block tree)
    (hplace : ∀ other ∈ place.function, other.length < place.node.length) (houter : outer ≠ [] → place.function.isSome)
    (hfits : tree.DeclarationsFit place.function.isSome names) :
    Writes (below place.node) place.function outer names (printOperation Namespaces.names env place tree) (tree.namesAfter names)
      (tree.CallsFit place.function.isSome names) := by
  induction h generalizing place outer names with
  | simple h => exact (printOperation_simple_writes h).mono (Set.empty_subset _)
  | statement _ _ ihleft ihright =>
      refine vars_before_writes ?_
      have hleft := @ihleft outer names place.left (function_deeper hplace (List.prefix_append _ _)) houter hfits.1
      have hright := @ihright outer _ place.right (function_deeper hplace (List.prefix_append _ _)) houter hfits.2
      refine (hleft.bind (fun _ => hright) (disjoint_below place.node)).mono ?_
      exact Set.union_subset (below_subset (List.prefix_append _ _)) (below_subset (List.prefix_append _ _))
  | @declaration name params body hname hparams _ ihbody =>
      refine vars_before_writes ?_
      have hheader : Writes ∅ (some place.node) (names :: outer) []
          (printOperation Namespaces.names env place.inside.left (node .NAME_T name params .null)) (params.namesAfter [])
          (params.CallsFit true []) := by
        refine vars_before_writes (var_name_writes.before fun _ => Writes.before (print_plain trivial fun _ => trivial) fun _ => ?_)
        refine Writes.before (print_plain trivial fun _ => trivial) fun _ => setPrevious_writes.before fun _ => ?_
        exact printOperation_simple_writes hparams
      have hbody := @ihbody (names :: outer) (params.namesAfter []) place.inside.right
        (fun other hother => by cases hother; simp [Place.right, Place.inside]) (fun _ => rfl) hfits.2
      have hpush : Writes ∅ (some place.node) (names :: outer) (params.namesAfter [])
          (print place.inside (.instruction "push rcx")) (params.namesAfter []) True :=
        print_plain trivial fun _ => trivial
      have hwhole := hheader.first fun _ => hpush.before fun _ => hbody
      have hdeclare := declare_writes hplace (fun other hother => ⟨?_, ?_⟩) (fun h => hfits.1 (houter h)) hwhole
      · simp only [bind_assoc] at hdeclare
        exact hdeclare
      · exact (List.prefix_append _ _).trans hother
      · exact (Nat.lt_succ_self _).trans_le (by simpa [Place.right, Place.inside] using List.IsPrefix.length_le hother)
  | conditional hcondition _ _ ihif ihelse =>
      refine vars_before_writes ((printOperation_simple_writes hcondition).first fun _ => vars_before_writes ?_)
      refine Writes.get fun s => Writes.before (.modify (fun _ => rfl) fun _ => rfl) fun _ => ?_
      have hif := @ihif outer _ place.right.left (function_deeper hplace (by simp [Place.left, Place.right])) houter hfits.2.1
      have helse := @ihelse outer _ place.right.right (function_deeper hplace (by simp [Place.right])) houter hfits.2.2
      refine (hif.bind (fun _ => ?_) (disjoint_below place.right.node)).mono ?_
      · exact Writes.before (print_plain trivial fun _ => trivial) fun _ =>
          Writes.before (print_plain trivial fun _ => trivial) fun _ => helse.after fun _ => print_plain trivial fun _ => trivial
      · exact Set.union_subset (below_subset (by simp [Place.left, Place.right])) (below_subset (by simp [Place.right]))
  | loop _ _ _ => exact vars_before_writes .pure
  | ret hparams =>
      refine vars_before_writes (Writes.before (print_plain trivial fun _ => trivial) fun _ => setPrevious_writes.before fun _ => ?_)
      refine ((printOperation_simple_writes hparams).after fun _ => ?_).mono (Set.empty_subset _)
      exact Writes.before (print_plain trivial fun _ => trivial) fun _ => print_plain trivial fun _ => trivial

theorem startState_represents : Represents startState.names [] [] where
  offset := rfl
  pointer := rfl
  entries := .inl fun i name hi => by simp at hi
  enclosing := trivial

theorem printCmdsInFile_writes {env : Environment} {root : TreeNode} (h : Block root) (hfits : root.DeclarationsFit false []) :
    Writes (below []) none [] [] (printCmdsInFile Namespaces.names env root) (root.namesAfter []) (root.CallsFit false []) := by
  have hroot := @printOperation_writes [] [] {} env root h (fun _ hother => by cases hother) (fun houter => absurd rfl houter) hfits
  refine Writes.before (print_plain trivial fun _ => trivial) fun _ => ?_
  exact Writes.before (print_plain trivial fun _ => trivial) fun _ => hroot.after fun _ => print_plain trivial fun _ => trivial

end

end CompilerLab.Language
