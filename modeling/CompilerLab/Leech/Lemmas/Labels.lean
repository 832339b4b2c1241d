import CompilerLab.Leech.Frontend

/-!
# Labels and pending references

What the actions of the grammar do to an instruction that has already been pushed.
-/

namespace CompilerLab.Leech

/-- The number of instructions among code entries. -/
def CodeEntry.isInstruction : CodeEntry → Bool
  | LABEL _ => false
  | instruction _ _ => true

abbrev count (entries : List CodeEntry) : Nat := entries.countP CodeEntry.isInstruction

/-- The code entry is an instruction with the label as its operand. -/
def CodeEntry.RefersTo (label : Str) (entry : CodeEntry) : Prop := ∃ opcode, entry = .instruction opcode (.IDENTIFIER label)

namespace Driver

variable {d d' : Driver} {entry : CodeEntry} {entries : List CodeEntry} {l : Str} {i : Nat} {L : Str → Prop}

/-! ## Steps and runs -/

abbrev code (d : Driver) : List Instruction := d.leechFile.code

theorem codeEntry_ok (h : d.codeEntry entry = .ok d') : (∃ name, entry = .LABEL name ∧ d' = d.label name) ∨
    ∃ opcode operand, entry = .instruction (some opcode) operand ∧ d' = d.instruction opcode operand := by
  cases entry with
  | LABEL name => exact .inl ⟨name, rfl, (Except.ok.inj h).symm⟩
  | instruction opcode operand =>
      cases opcode with
      | none => cases h
      | some opcode => exact .inr ⟨opcode, operand, rfl, (Except.ok.inj h).symm⟩

theorem foldlM_cons_ok {α : Type} {f : Driver → α → Except Error Driver} {a : α} {as : List α}
    (h : (a :: as).foldlM f d = .ok d') : ∃ d₁, f d a = .ok d₁ ∧ as.foldlM f d₁ = .ok d' := by
  rw [List.foldlM_cons] at h
  cases hf : f d a with
  | ok d₁ =>
      rw [hf] at h
      exact ⟨d₁, rfl, h⟩
  | error e =>
      rw [hf] at h
      cases h

theorem foldlM_append_ok {α : Type} {f : Driver → α → Except Error Driver} {as bs : List α}
    (h : (as ++ bs).foldlM f d = .ok d') : ∃ d₁, as.foldlM f d = .ok d₁ ∧ bs.foldlM f d₁ = .ok d' := by
  rw [List.foldlM_append] at h
  cases hf : as.foldlM f d with
  | ok d₁ =>
      rw [hf] at h
      exact ⟨d₁, rfl, h⟩
  | error e =>
      rw [hf] at h
      cases h

/-- Pending references are to instructions that have been pushed, and the global counter counts these. -/
structure Sound (d : Driver) : Prop where
  length : d.code.length = d.globalInstrCount
  bounded : ∀ l i, d.forwardBranches l = some i → i < d.globalInstrCount

/-- The instruction has been pushed, and only the labels in `L` are waiting to change it. -/
structure Referred (d : Driver) (i : Nat) (L : Str → Prop) : Prop where
  pushed : i < d.code.length
  waiting : ∀ l, d.forwardBranches l = some i → L l

@[simp] theorem length_setArg (code : List Instruction) (i a : Nat) : (setArg code i a).length = code.length :=
  List.length_modify _ _ _

theorem length_label (d : Driver) (name : Str) : (d.label name).code.length = d.code.length := by
  simp only [code, label]
  split
  · exact length_setArg _ _ _
  · rfl

theorem length_instruction (d : Driver) (opcode : Opcodes) (operand : Operand) :
    (d.instruction opcode operand).code.length = d.code.length + 1 := List.length_append

/-- What a reference leaves pending. -/
theorem pending_ok {operand : Operand} (h : d.pending operand l = some i) :
    d.forwardBranches l = some i ∨ operand = .IDENTIFIER l ∧ d.labels l = none ∧ i = d.globalInstrCount := by
  cases operand with
  | empty => exact .inl h
  | INTEGER value => exact .inl h
  | IDENTIFIER label =>
      cases hlabel : d.labels label with
      | some n =>
          rw [pending, hlabel] at h
          exact .inl h
      | none =>
          simp only [pending, hlabel] at h
          by_cases hl : l = label
          · subst hl
            rw [Function.update_self] at h
            exact .inr ⟨rfl, hlabel, (Option.some.inj h).symm⟩
          · rw [Function.update_of_ne hl] at h
            exact .inl h

/-- The counters after a code entry. -/
theorem codeEntry_counts (h : d.codeEntry entry = .ok d') : d'.instrCount = d.instrCount + count [entry] ∧
    d'.globalInstrCount = d.globalInstrCount + count [entry] ∧ d'.code.length = d.code.length + count [entry] := by
  rcases codeEntry_ok h with ⟨name, rfl, rfl⟩ | ⟨opcode, operand, rfl, rfl⟩
  · exact ⟨rfl, rfl, length_label d name⟩
  · exact ⟨rfl, rfl, length_instruction d opcode operand⟩

theorem codeEntry_sound (h : d.codeEntry entry = .ok d') (hs : d.Sound) : d'.Sound := by
  obtain ⟨-, hglobal, hlength⟩ := codeEntry_counts h
  refine ⟨by rw [hlength, hglobal, hs.length], fun l i hi => ?_⟩
  rcases codeEntry_ok h with ⟨name, rfl, rfl⟩ | ⟨opcode, operand, rfl, rfl⟩
  · exact hs.bounded l i hi
  · rcases pending_ok hi with hi | ⟨-, -, rfl⟩
    · exact Nat.lt_succ_of_lt (hs.bounded l i hi)
    · exact Nat.lt_succ_self _

/-- No code entry but the declaration of a label that is waiting changes an instruction. -/
theorem codeEntry_keeps (h : d.codeEntry entry = .ok d') (hs : d.Sound) (hr : d.Referred i L)
    (hl : ∀ name, entry = .LABEL name → ¬ L name) : d'.code[i]? = d.code[i]? ∧ d'.Referred i L := by
  rcases codeEntry_ok h with ⟨name, rfl, rfl⟩ | ⟨opcode, operand, rfl, rfl⟩
  · refine ⟨?_, by rw [length_label]; exact hr.pushed, hr.waiting⟩
    simp only [code, label]
    split
    · next idx hidx =>
        have hne : idx ≠ i := fun he => hl name rfl (hr.waiting name (he ▸ hidx))
        rw [setArg, List.getElem?_modify]
        simp only [if_neg hne]
        exact Option.map_id'
    · rfl
  · refine ⟨List.getElem?_append_left hr.pushed, ?_, fun l hi => ?_⟩
    · exact Nat.lt_of_lt_of_le hr.pushed (by rw [length_instruction]; exact Nat.le_succ _)
    · rcases pending_ok hi with hi | ⟨-, -, rfl⟩
      · exact hr.waiting l hi
      · exact absurd hr.pushed (by rw [hs.length]; exact Nat.lt_irrefl _)

theorem codeEntry_labels (h : d.codeEntry entry = .ok d') (hl : entry ≠ .LABEL l) : d'.labels l = d.labels l := by
  rcases codeEntry_ok h with ⟨name, rfl, rfl⟩ | ⟨opcode, operand, rfl, rfl⟩
  · exact Function.update_of_ne (fun he => hl (congrArg CodeEntry.LABEL he.symm)) _ _
  · rfl

theorem codeEntry_forwardBranches (h : d.codeEntry entry = .ok d') (hl : ¬ entry.RefersTo l) :
    d'.forwardBranches l = d.forwardBranches l := by
  rcases codeEntry_ok h with ⟨name, rfl, rfl⟩ | ⟨opcode, operand, rfl, rfl⟩
  · rfl
  · cases operand with
    | empty => rfl
    | INTEGER value => rfl
    | IDENTIFIER label =>
        have hne : l ≠ label := fun he => hl ⟨_, by rw [he]⟩
        cases hlabel : d.labels label with
        | some n => simp only [instruction, pending, hlabel]
        | none =>
            simp only [instruction, pending, hlabel]
            exact Function.update_of_ne hne _ _

theorem entries_counts (h : entries.foldlM codeEntry d = .ok d') : d'.instrCount = d.instrCount + count entries ∧
    d'.globalInstrCount = d.globalInstrCount + count entries ∧ d'.code.length = d.code.length + count entries := by
  induction entries generalizing d with
  | nil =>
      obtain rfl := Except.ok.inj h
      exact ⟨rfl, rfl, rfl⟩
  | cons entry entries ih =>
      obtain ⟨d₁, h₁, h⟩ := foldlM_cons_ok h
      obtain ⟨hi, hg, hc⟩ := codeEntry_counts h₁
      obtain ⟨hi', hg', hc'⟩ := ih h
      have hcount : count (entry :: entries) = count [entry] + count entries := @List.countP_append _ _ [entry] entries
      exact ⟨by omega, by omega, by omega⟩

theorem entries_sound (h : entries.foldlM codeEntry d = .ok d') (hs : d.Sound) : d'.Sound := by
  induction entries generalizing d with
  | nil => exact Except.ok.inj h ▸ hs
  | cons entry entries ih =>
      obtain ⟨d₁, h₁, h⟩ := foldlM_cons_ok h
      exact ih h (codeEntry_sound h₁ hs)

theorem entries_keep (h : entries.foldlM codeEntry d = .ok d') (hs : d.Sound) (hr : d.Referred i L)
    (hl : ∀ name, .LABEL name ∈ entries → ¬ L name) : d'.code[i]? = d.code[i]? ∧ d'.Referred i L := by
  induction entries generalizing d with
  | nil =>
      obtain rfl := Except.ok.inj h
      exact ⟨rfl, hr⟩
  | cons entry entries ih =>
      obtain ⟨d₁, h₁, h⟩ := foldlM_cons_ok h
      obtain ⟨hcode, hr₁⟩ := codeEntry_keeps h₁ hs hr fun name he => hl name (he ▸ List.mem_cons_self)
      obtain ⟨hcode', hr'⟩ := ih h (codeEntry_sound h₁ hs) hr₁ fun name hmem => hl name (List.mem_cons_of_mem _ hmem)
      exact ⟨hcode'.trans hcode, hr'⟩

theorem entries_labels (h : entries.foldlM codeEntry d = .ok d') (hl : .LABEL l ∉ entries) : d'.labels l = d.labels l := by
  induction entries generalizing d with
  | nil => exact Except.ok.inj h ▸ rfl
  | cons entry entries ih =>
      obtain ⟨d₁, h₁, h⟩ := foldlM_cons_ok h
      rw [List.mem_cons, not_or] at hl
      exact (ih h hl.2).trans (codeEntry_labels h₁ fun he => hl.1 he.symm)

theorem entries_forwardBranches (h : entries.foldlM codeEntry d = .ok d') (hl : ∀ e ∈ entries, ¬ e.RefersTo l) :
    d'.forwardBranches l = d.forwardBranches l := by
  induction entries generalizing d with
  | nil => exact Except.ok.inj h ▸ rfl
  | cons entry entries ih =>
      obtain ⟨d₁, h₁, h⟩ := foldlM_cons_ok h
      exact (ih h fun e he => hl e (List.mem_cons_of_mem _ he)).trans
        (codeEntry_forwardBranches h₁ (hl entry List.mem_cons_self))

/-! ## References -/

/-- The driver at the beginning of the code block of a function. -/
structure AtCode (d : Driver) : Prop extends d.Sound where
  instrCount : d.instrCount = 0
  labels : d.labels = fun _ => none
  forwardBranches : d.forwardBranches = fun _ => none

variable {before between after : List CodeEntry} {opcode : Option Opcodes}

/-- The argument of the instruction with the given index. -/
abbrev argAt (d : Driver) (i : Nat) : Option Byte := d.code[i]?.map Instruction.arg

/-- The instruction that has just been pushed. -/
theorem instruction_argAt (d : Driver) (opcode : Opcodes) (operand : Operand) :
    (d.instruction opcode operand).argAt d.code.length = some (d.argument operand) := by
  have hget : (d.leechFile.code ++ [({ opcode, arg := d.argument operand } : Instruction)])[d.code.length]? =
    some { opcode, arg := d.argument operand } := List.getElem?_concat_length
  exact congrArg (Option.map Instruction.arg) hget

theorem instruction_referred (hs : d.Sound) (opcode : Opcodes) (operand : Operand) :
    (d.instruction opcode operand).Referred d.code.length
      fun l => operand = .IDENTIFIER l ∧ d.labels l = none where
  pushed := by rw [length_instruction]; exact Nat.lt_succ_self _
  waiting l hl := by
    rcases pending_ok hl with hl | ⟨hop, hnone, -⟩
    · exact absurd (hs.bounded l _ hl) (by rw [hs.length]; exact Nat.lt_irrefl _)
    · exact ⟨hop, hnone⟩

/-- A reference to a label that has been declared keeps the index of the label in the function. -/
theorem backward_reference (hd : d.AtCode) (h : (before ++ .LABEL l :: between ++
      .instruction opcode (.IDENTIFIER l) :: after).foldlM codeEntry d = .ok d') (hl : .LABEL l ∉ between) :
    d'.argAt (d.globalInstrCount + count (before ++ .LABEL l :: between)) = some (BitVec.ofNat 8 (count before)) := by
  obtain ⟨d₃, h₃, h⟩ := foldlM_append_ok h
  obtain ⟨d₁, h₁, h₃'⟩ := foldlM_append_ok h₃
  obtain ⟨d₂, h₂, h₃'⟩ := foldlM_cons_ok h₃'
  obtain ⟨d₄, h₄, h⟩ := foldlM_cons_ok h
  have hs₃ := entries_sound h₃ hd.toSound
  have hindex : d₃.code.length = d.globalInstrCount + count (before ++ .LABEL l :: between) :=
    (entries_counts h₃).2.2.trans (by rw [hd.length])
  have hlabel : d₃.labels l = some (count before) := by
    have hcount := (entries_counts h₁).1
    rw [hd.instrCount, Nat.zero_add] at hcount
    rw [entries_labels h₃' hl, ← Except.ok.inj h₂, ← hcount]
    exact Function.update_self _ _ _
  rcases codeEntry_ok h₄ with ⟨name, he, -⟩ | ⟨opcode, operand, he, rfl⟩
  · cases he
  · injection he with _ he
    subst he
    have hs₄ := codeEntry_sound h₄ hs₃
    have hr := instruction_referred hs₃ opcode (.IDENTIFIER l)
    have hkeep := (entries_keep h hs₄ hr fun name _ hw => by
      injection hw.1 with he
      rw [← he, hlabel] at hw
      cases hw.2).1
    rw [argAt, ← hindex, hkeep]
    refine (instruction_argAt d₃ opcode _).trans ?_
    rw [argument, hlabel]
    rfl

/-- A pending reference is given the index of its label in the function, if there is no other reference in between. -/
theorem forward_reference (hd : d.AtCode) (h : (before ++ .instruction opcode (.IDENTIFIER l) :: between ++
      .LABEL l :: after).foldlM codeEntry d = .ok d') (hbefore : .LABEL l ∉ before) (hbetween : .LABEL l ∉ between)
    (hafter : .LABEL l ∉ after) (honly : ∀ e ∈ between, ¬ e.RefersTo l) :
    d'.argAt (d.globalInstrCount + count before) =
      some (BitVec.ofNat 8 (count (before ++ .instruction opcode (.IDENTIFIER l) :: between))) := by
  obtain ⟨d₃, h₃, h⟩ := foldlM_append_ok h
  obtain ⟨d₁, h₁, h₃'⟩ := foldlM_append_ok h₃
  obtain ⟨d₂, h₂, h₃'⟩ := foldlM_cons_ok h₃'
  obtain ⟨d₄, h₄, h⟩ := foldlM_cons_ok h
  have hs₁ := entries_sound h₁ hd.toSound
  have hindex : d₁.code.length = d.globalInstrCount + count before := (entries_counts h₁).2.2.trans (by rw [hd.length])
  have hlabel : d₁.labels l = none := by rw [entries_labels h₁ hbefore, hd.labels]
  rcases codeEntry_ok h₂ with ⟨name, he, -⟩ | ⟨opcode, operand, he, rfl⟩
  · cases he
  · injection he with _ he
    subst he
    have hs₂ := codeEntry_sound h₂ hs₁
    have hr₂ := instruction_referred hs₁ opcode (.IDENTIFIER l)
    obtain ⟨hkeep, hr₃⟩ := entries_keep h₃' hs₂ hr₂ fun name hname hw => by
      injection hw.1 with he
      exact hbetween (he ▸ hname)
    have hpending : d₃.forwardBranches l = some d₁.code.length := by
      rw [entries_forwardBranches h₃' honly, hs₁.length]
      simp only [instruction, pending, hlabel, Function.update_self]
    obtain rfl := Except.ok.inj h₄
    have hs₃ := entries_sound h₃ hd.toSound
    have hr₄ : (d₃.label l).Referred d₁.code.length (fun l' => l' = l) :=
      ⟨by rw [length_label]; exact hr₃.pushed, fun l' hl' => by
        injection (hr₃.waiting l' hl').1 with he
        exact he.symm⟩
    have hkeep' := (entries_keep h (codeEntry_sound h₄ hs₃) hr₄ fun name hname he => hafter (he ▸ hname)).1
    have hset : (d₃.label l).argAt d₁.code.length = some (BitVec.ofNat 8 d₃.instrCount) := by
      have hlt := hr₃.pushed
      simp only [argAt, code, label, hpending, setArg, List.getElem?_modify, if_true]
      rw [List.getElem?_eq_getElem hlt]
      rfl
    have hcount := (entries_counts h₃).1
    rw [hd.instrCount, Nat.zero_add] at hcount
    rw [argAt, ← hindex, hkeep', ← hcount]
    exact hset

/-- A pending reference is forgotten when there is another one. -/
theorem forgotten_reference {opcode' : Option Opcodes} (hd : d.AtCode) (h : (before ++
      .instruction opcode (.IDENTIFIER l) :: between ++ .instruction opcode' (.IDENTIFIER l) :: after).foldlM codeEntry d =
      .ok d') (hbefore : .LABEL l ∉ before) (hbetween : .LABEL l ∉ between) :
    d'.argAt (d.globalInstrCount + count before) = some 0 := by
  obtain ⟨d₃, h₃, h⟩ := foldlM_append_ok h
  obtain ⟨d₁, h₁, h₃'⟩ := foldlM_append_ok h₃
  obtain ⟨d₂, h₂, h₃'⟩ := foldlM_cons_ok h₃'
  obtain ⟨d₄, h₄, h⟩ := foldlM_cons_ok h
  have hs₁ := entries_sound h₁ hd.toSound
  have hindex : d₁.code.length = d.globalInstrCount + count before := (entries_counts h₁).2.2.trans (by rw [hd.length])
  have hlabel : d₁.labels l = none := by rw [entries_labels h₁ hbefore, hd.labels]
  rcases codeEntry_ok h₂ with ⟨name, he, -⟩ | ⟨opcode, operand, he, rfl⟩
  · cases he
  · injection he with _ he
    subst he
    have hs₂ := codeEntry_sound h₂ hs₁
    have hr₂ := instruction_referred hs₁ opcode (.IDENTIFIER l)
    obtain ⟨hkeep, hr₃⟩ := entries_keep h₃' hs₂ hr₂ fun name hname hw => by
      injection hw.1 with he
      exact hbetween (he ▸ hname)
    have hlabel₃ : d₃.labels l = none := (entries_labels h₃' hbetween).trans hlabel
    have hs₃ := entries_sound h₃ hd.toSound
    have hlt : d₁.code.length < d₃.globalInstrCount := hs₃.length ▸ hr₃.pushed
    rcases codeEntry_ok h₄ with ⟨name, he, -⟩ | ⟨opcode', operand', he, rfl⟩
    · cases he
    · injection he with _ he
      subst he
      have hr₄ : (d₃.instruction opcode' (.IDENTIFIER l)).Referred d₁.code.length fun _ => False := by
        refine ⟨Nat.lt_of_lt_of_le hr₃.pushed (by rw [length_instruction]; exact Nat.le_succ _), fun l' hl' => ?_⟩
        have hpending : d₃.pending (.IDENTIFIER l) l' = some d₁.code.length := hl'
        have hl : l' = l := by
          rcases pending_ok hpending with hl' | ⟨hop, -⟩
          · injection (hr₃.waiting l' hl').1 with he
            exact he.symm
          · injection hop with he
            exact he.symm
        subst hl
        simp only [pending, hlabel₃, Function.update_self, Option.some.injEq] at hpending
        omega
      have hkeep' := (entries_keep h (codeEntry_sound h₄ hs₃) hr₄ fun _ _ => id).1
      have hpush : (d₃.instruction opcode' (.IDENTIFIER l)).code[d₁.code.length]? = d₃.code[d₁.code.length]? :=
        List.getElem?_append_left hr₃.pushed
      rw [argAt, ← hindex, hkeep', hpush, hkeep]
      refine (instruction_argAt d₁ opcode _).trans ?_
      rw [argument, hlabel]
      rfl

end Driver

end CompilerLab.Leech
