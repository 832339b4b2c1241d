import CompilerLab.Asm.Integers
import CompilerLab.Asm.Lemmas.Passes

/-!
# The two passes of the assembler

When every label is declared once, the second pass gives each jump the position of its label, exactly when what the assembler copies
fits into its arrays.
-/

namespace CompilerLab.Asm

open Lib.Scanf

variable {d : Doubles} {a : Assembler} {text before after : List AsmLine} {l : AsmLine} {labels : List Label} {pos : Int}

/-! ## The table of labels -/

/-- The labels a text declares. -/
def declaredNames (text : List AsmLine) : List Str := text.filterMap AsmLine.declared

/-- Its declarations with their positions. -/
def positions (pos : Int) : List AsmLine → List Label
  | [] => []
  | l :: text => (l.declared.map fun name => ⟨name, pos⟩).toList ++ positions (pos + l.kind.size) text

theorem positions_names (pos : Int) (text : List AsmLine) : (positions pos text).map Label.name = declaredNames text := by
  induction text generalizing pos with
  | nil => rfl
  | cons l text ih =>
      rw [positions, List.map_append, ih]
      simp only [declaredNames, List.filterMap_cons]
      cases l.declared with
      | none => rfl
      | some name => rfl

theorem mem_positions {name : Str} (h : l.declared = some name) :
    ⟨name, pos + size before⟩ ∈ positions pos (before ++ l :: after) := by
  induction before generalizing pos with
  | nil =>
      rw [List.nil_append, positions, h, size_nil, Int.natCast_zero, Int.add_zero]
      exact List.mem_cons_self
  | cons l' before ih =>
      rw [List.cons_append, positions, size_cons]
      have hpos : pos + ↑(l'.kind.size + size before) = pos + l'.kind.size + size before := by
        push_cast
        omega
      rw [hpos]
      exact List.mem_append_right _ ih

theorem declare_known (h : ∀ name, l.declared = some name → name ∈ labels.map Label.name) :
    l.declare labels pos = labels := by
  unfold AsmLine.declare
  unfold AsmLine.declared at h
  split
  · next name hk =>
      rw [hk] at h
      exact if_pos (h name rfl)
  · rfl

theorem declare_new {name : Str} (h : l.declared = some name) (hnew : name ∉ labels.map Label.name) :
    l.declare labels pos = labels ++ [⟨name, pos⟩] := by
  unfold AsmLine.declared at h
  unfold AsmLine.declare
  split at h
  · next name' hk =>
      injection h with h
      subst h
      exact if_neg hnew
  · cases h

theorem table_known (h : ∀ name ∈ declaredNames text, name ∈ labels.map Label.name) : table labels pos text = labels := by
  induction text generalizing pos with
  | nil => rfl
  | cons l text ih =>
      rw [table, declare_known fun name hname => h name (List.mem_filterMap.mpr ⟨l, List.mem_cons_self, hname⟩)]
      refine ih fun name hname => h name ?_
      rw [declaredNames, List.filterMap_cons]
      split
      · exact hname
      · exact List.mem_cons_of_mem _ hname

theorem table_new (hnodup : (declaredNames text).Nodup) (hnew : ∀ name ∈ declaredNames text, name ∉ labels.map Label.name) :
    table labels pos text = labels ++ positions pos text := by
  induction text generalizing labels pos with
  | nil => exact (List.append_nil _).symm
  | cons l text ih =>
      rw [declaredNames, List.filterMap_cons] at hnodup hnew
      rw [table, positions]
      cases hl : l.declared with
      | none =>
          rw [hl] at hnodup hnew
          rw [declare_known fun name hname => by rw [hl] at hname; cases hname]
          exact ih hnodup hnew
      | some name =>
          rw [hl] at hnodup hnew
          obtain ⟨hname, hrest⟩ := List.nodup_cons.mp hnodup
          rw [declare_new hl (hnew name List.mem_cons_self), ih hrest fun name' hname' => ?_]
          · exact List.append_assoc _ _ _
          · rw [List.map_append, List.mem_append, not_or]
            refine ⟨hnew name' (List.mem_cons_of_mem _ hname'), fun hmem => ?_⟩
            obtain rfl := List.mem_singleton.mp hmem
            exact hname hname'

theorem find_label {label : Label} (hnodup : (labels.map Label.name).Nodup) (h : label ∈ labels) :
    labels.find? (fun l => label.name == l.name) = some label := by
  induction labels with
  | nil => cases h
  | cons l labels ih =>
      rw [List.map_cons, List.nodup_cons] at hnodup
      cases h with
      | head => simp
      | tail _ hmem =>
          have hne : (label.name == l.name) = false :=
            beq_eq_false_iff_ne.mpr fun heq => hnodup.1 (heq ▸ List.mem_map_of_mem hmem)
          rw [List.find?_cons_of_neg (by simp [hne])]
          exact ih hnodup.2 hmem

/-! ## The passes -/

/-- The passes of `RawToBin` over a text. -/
structure Passes (d : Doubles) (text : List AsmLine) where
  first : Assembler
  zeroed : Assembler
  second : Assembler
  result : Assembler
  firstPass : EachLineToBin d (texts text) (AsmInfoCtor (texts text)) = some first
  toZero : CmdsToZero (texts text) first = some zeroed
  secondPass : EachLineToBin d (texts text) zeroed = some second
  header : WriteProgramHeader second = some result

theorem rawToBin_iff {b : Assembler} : RawToBin d (texts text) = some b ↔ ∃ p : Passes d text, p.result = b := by
  constructor
  · intro h
    obtain ⟨a₁, h₁, hrest⟩ := Option.bind_eq_some_iff.mp h
    obtain ⟨a₂, h₂, hrest'⟩ := Option.bind_eq_some_iff.mp hrest
    obtain ⟨a₃, h₃, h₄⟩ := Option.bind_eq_some_iff.mp hrest'
    exact ⟨⟨a₁, a₂, a₃, b, h₁, h₂, h₃, h₄⟩, rfl⟩
  · rintro ⟨p, rfl⟩
    exact Option.bind_eq_some_iff.mpr ⟨_, p.firstPass, Option.bind_eq_some_iff.mpr ⟨_, p.toZero,
      Option.bind_eq_some_iff.mpr ⟨_, p.secondPass, p.header⟩⟩⟩

/-- A line that writes nothing. -/
def AsmLine.Silent (l : AsmLine) : Prop := l.kind = .comment ∨ ∃ name, l.kind = .label name

namespace Passes

/-- The lines begin at the same positions in both passes, and the operand of a jump to a declared label is the position at which
the first command after the declaration begins. -/
structure Resolves (p : Passes d text) : Prop where
  offsets : ∀ before after, text = before ++ after → ∃ b₁ b₂,
    EachLineToBin d (texts before) (AsmInfoCtor (texts text)) = some b₁ ∧ EachLineToBin d (texts before) p.zeroed = some b₂ ∧
    b₁.cur_len = b₂.cur_len
  operands : ∀ before l after label, text = before ++ l :: after → l.kind = .jump label →
    ∀ before' decl between after', text = before' ++ decl :: between ++ after' → decl.kind = .label label →
    (∀ l' ∈ between, l'.Silent) → ∃ b b', EachLineToBin d (texts before) p.zeroed = some b ∧
    EachLineToBin d (texts (before' ++ decl :: between)) p.zeroed = some b' ∧
    peek p.result.commands (b.cur_len + 1) = d.ofInt b'.cur_len

end Passes

/-- The copies of the lines and the labels fit into the arrays of the assembler. -/
structure FitsText (text : List AsmLine) : Prop where
  nonempty : text ≠ []
  lines : ∀ l ∈ text, l.Fits
  labels : (declaredNames text).length ≤ MAX_LABELS

theorem exists_pass_before {a' : Assembler} (h : EachLineToBin d (texts text) a = some a')
    (htext : text = before ++ after) : ∃ b, EachLineToBin d (texts before) a = some b := by
  rw [htext, texts, List.map_append, EachLineToBin_append] at h
  obtain ⟨b, hb, -⟩ := Option.bind_eq_some_iff.mp h
  exact ⟨b, hb⟩

theorem size_silent (h : ∀ l ∈ text, l.Silent) : size text = 0 := by
  induction text with
  | nil => rfl
  | cons l text ih =>
      rw [size_cons, ih fun l' hl' => h l' (List.mem_cons_of_mem _ hl')]
      rcases h l List.mem_cons_self with hk | ⟨name, hk⟩ <;> rw [hk] <;> rfl

namespace Passes

theorem zeroed_eq (p : Passes d text) : p.zeroed.cur_len = SERVICE_DATA_LEN ∧ p.zeroed.labels = p.first.labels ∧
    p.zeroed.capacity = p.first.capacity := by
  obtain ⟨-, -, h⟩ := write_eq_some p.toZero
  rw [h]
  exact ⟨rfl, rfl, rfl⟩

/-- After the first pass the labels are known with their positions. -/
theorem labels_eq (p : Passes d text) (hdecl : (declaredNames text).Nodup) :
    p.zeroed.labels = positions SERVICE_DATA_LEN text := by
  rw [p.zeroed_eq.2.1, (EachLineToBin_passed p.firstPass).labels]
  exact (table_new hdecl fun _ _ => List.not_mem_nil).trans (List.nil_append _)

theorem labels_during (p : Passes d text) (hdecl : (declaredNames text).Nodup) {b : Assembler}
    (htext : text = before ++ after) (h : EachLineToBin d (texts before) p.zeroed = some b) :
    b.labels = positions SERVICE_DATA_LEN text := by
  rw [(EachLineToBin_passed h).labels, p.labels_eq hdecl]
  refine table_known fun name hname => ?_
  rw [positions_names, htext, declaredNames, List.filterMap_append]
  exact List.mem_append_left _ hname

theorem resolves (p : Passes d text) (hdecl : (declaredNames text).Nodup) : p.Resolves where
  offsets before after htext := by
    obtain ⟨b₁, h₁⟩ := exists_pass_before p.firstPass htext
    obtain ⟨b₂, h₂⟩ := exists_pass_before p.secondPass htext
    refine ⟨b₁, b₂, h₁, h₂, ?_⟩
    rw [(EachLineToBin_passed h₁).cur_len, (EachLineToBin_passed h₂).cur_len, p.zeroed_eq.1]
    rfl
  operands before l after label htext hl before' decl between after' htext' hdeclares hsilent := by
    obtain ⟨b, hb, hoperand⟩ := EachLineToBin_operand p.secondPass htext hl
    obtain ⟨b', hb'⟩ := exists_pass_before p.secondPass htext'
    refine ⟨b, b', hb, hb', ?_⟩
    have hdeclared : decl.declared = some label := by rw [AsmLine.declared, hdeclares]
    have hmem : (⟨label, SERVICE_DATA_LEN + size before'⟩ : Label) ∈ b.labels := by
      rw [p.labels_during hdecl htext hb, htext', List.append_assoc]
      exact mem_positions hdeclared
    have hnodup : (b.labels.map Label.name).Nodup := by
      rw [p.labels_during hdecl htext hb, positions_names]
      exact hdecl
    have hfound : foundPos b label = SERVICE_DATA_LEN + size before' := by
      rw [foundPos, FindLabel, find_label hnodup hmem]
    have hcur' : b'.cur_len = SERVICE_DATA_LEN + size before' := by
      rw [(EachLineToBin_passed hb').cur_len, p.zeroed_eq.1, size_append, size_cons, size_silent hsilent, hdeclares]
      rfl
    have hcur : b.cur_len = SERVICE_DATA_LEN + size before := by
      rw [(EachLineToBin_passed hb).cur_len, p.zeroed_eq.1]
    obtain ⟨-, -, hresult⟩ := write_eq_some p.header
    rw [hcur', ← hfound, ← hoperand, hresult]
    refine peek_poke_of_le ?_
    rw [hcur, SERVICE_DATA_LEN, List.length_append, Lib.length_toBytes]
    simp only [List.length_cons, List.length_nil]
    omega

theorem fits (p : Passes d text) (hdecl : (declaredNames text).Nodup) : FitsText text := by
  have hpass := EachLineToBin_passed p.firstPass
  refine ⟨?_, hpass.fits, ?_⟩
  · rintro rfl
    have hcap : p.second.capacity = 0 :=
      (EachLineToBin_passed p.secondPass).capacity.trans (p.zeroed_eq.2.2.trans hpass.capacity)
    obtain ⟨-, hle, -⟩ := write_eq_some p.header
    rw [hcap, List.length_append, Lib.length_toBytes] at hle
    simp only [List.length_cons, List.length_nil] at hle
    omega
  · rw [← positions_names SERVICE_DATA_LEN text, List.length_map, ← p.labels_eq hdecl, p.zeroed_eq.2.1]
    exact hpass.room (Nat.zero_le _)

end Passes

theorem FitsText.passes (h : FitsText text) (hdecl : (declaredNames text).Nodup) : Nonempty (Passes d text) := by
  have hlen := List.length_pos_iff.mpr h.nonempty
  have hstart : 0 ≤ SERVICE_DATA_LEN := by decide
  have htexts : (texts text).length = text.length := List.length_map _
  have htable : table [] SERVICE_DATA_LEN text = positions SERVICE_DATA_LEN text :=
    (table_new hdecl fun _ _ => List.not_mem_nil).trans (List.nil_append _)
  have hpositions : (positions SERVICE_DATA_LEN text).length ≤ MAX_LABELS := by
    rw [← List.length_map Label.name, positions_names]
    exact h.labels
  obtain ⟨first, hfirst⟩ : ∃ a, EachLineToBin d (texts text) (AsmInfoCtor (texts text)) = some a := by
    refine EachLineToBin_exists hstart ?_ h.lines (by rw [← htable] at hpositions; exact hpositions)
    simp only [AsmInfoCtor, htexts, SERVICE_DATA_LEN]
    omega
  have hpass := EachLineToBin_passed hfirst
  have hcap : first.capacity = 32 * text.length := hpass.capacity.trans (by rw [AsmInfoCtor, htexts])
  obtain ⟨zeroed, hzero⟩ : ∃ a, CmdsToZero (texts text) first = some a :=
    ⟨_, write_eq (le_refl _) (by simp only [List.length_replicate, hcap, htexts]; omega)⟩
  obtain ⟨-, -, hzeroed⟩ := write_eq_some hzero
  have hlabels : zeroed.labels = positions SERVICE_DATA_LEN text := by
    rw [hzeroed]
    exact hpass.labels.trans htable
  obtain ⟨second, hsecond⟩ : ∃ a, EachLineToBin d (texts text) zeroed = some a := by
    refine EachLineToBin_exists (by rw [hzeroed]; exact hstart) ?_ h.lines ?_
    · rw [hzeroed]
      simp only [hcap, SERVICE_DATA_LEN]
      omega
    · rw [hlabels, table_known fun name hname => by rwa [positions_names]]
      exact hpositions
  have hcap' : second.capacity = 32 * text.length := by
    rw [(EachLineToBin_passed hsecond).capacity, hzeroed]
    exact hcap
  obtain ⟨result, hresult⟩ : ∃ a, WriteProgramHeader second = some a := by
    refine ⟨_, write_eq (le_refl _) ?_⟩
    rw [hcap', List.length_append, Lib.length_toBytes]
    simp only [List.length_cons, List.length_nil]
    omega
  exact ⟨⟨first, zeroed, second, result, hfirst, hzero, hsecond, hresult⟩⟩

theorem passes_resolve_iff (hdecl : (declaredNames text).Nodup) : (∃ p : Passes d text, p.Resolves) ↔ FitsText text := by
  constructor
  · rintro ⟨p, -⟩
    exact p.fits hdecl
  · intro h
    obtain ⟨p⟩ : Nonempty (Passes d text) := h.passes hdecl
    exact ⟨p, p.resolves hdecl⟩

/-- `jmp l`, `l:` and `hlt`. -/
def jumpToEnd : List AsmLine :=
  [⟨_, _, @IsAssembly.jump .JMP ' ' ['l'] ['l'] [] (by decide) rfl rfl⟩,
    ⟨_, _, @IsAssembly.label ['l', ':'] [] rfl (by decide) rfl⟩,
    ⟨_, _, @IsAssembly.plain .HLT [] (by decide) (by decide) separated_nil⟩]

theorem passes_resolve_iff_jumpToEnd : (∃ p : Passes Doubles.integers jumpToEnd, p.Resolves) ↔ FitsText jumpToEnd :=
  passes_resolve_iff (by decide)

/-- A label of twenty characters. -/
def longLabel : AsmLine where
  text := List.replicate 20 'a' ++ [':']
  kind := .label (List.replicate 20 'a')
  isAssembly := @IsAssembly.label (List.replicate 20 'a' ++ [':']) [] rfl (by decide) rfl

theorem longLabel_overflows : (declaredNames [longLabel]).Nodup ∧
    ¬ ∃ p : Passes Doubles.integers [longLabel], p.Resolves := by
  refine ⟨by decide, fun ⟨p, _⟩ => ?_⟩
  have hfits : longLabel.text.length < MAX_CMD_LEN := (p.fits (by decide)).lines longLabel List.mem_cons_self
  exact absurd hfits (by decide)

end CompilerLab.Asm
