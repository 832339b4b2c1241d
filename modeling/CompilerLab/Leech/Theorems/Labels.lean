import CompilerLab.Leech.Lemmas.Frames
import CompilerLab.Leech.Lemmas.Labels

/-!
# Where labels lead

The declaration of a label counts the instructions of its function, while the executor jumps to an index in the whole code; and
only the last of several pending references to a label is given its index.
-/

namespace CompilerLab.Leech

/-- The number of instructions of functions. -/
def ProgramText.base (functions : ProgramText) : Nat := (functions.map fun f => count f.code).sum

/-! ## The code of a function in a program -/

namespace Driver

variable {d d' : Driver} {f : FuncText} {functions : ProgramText}

/-- The change of the driver is not about the code. -/
structure SameCode (d d' : Driver) : Prop where
  code : d'.code = d.code
  globalInstrCount : d'.globalInstrCount = d.globalInstrCount
  instrCount : d'.instrCount = d.instrCount
  labels : d'.labels = d.labels
  forwardBranches : d'.forwardBranches = d.forwardBranches

theorem SameCode.trans {d'' : Driver} (h : d.SameCode d') (h' : d'.SameCode d'') : d.SameCode d'' :=
  ⟨h'.code.trans h.code, h'.globalInstrCount.trans h.globalInstrCount, h'.instrCount.trans h.instrCount,
    h'.labels.trans h.labels, h'.forwardBranches.trans h.forwardBranches⟩

theorem foldl_sameCode {α : Type} {f : Driver → α → Driver} (hf : ∀ (d : Driver) a, d.SameCode (f d a)) (as : List α) (d : Driver) :
    d.SameCode (as.foldl f d) := by
  induction as generalizing d with
  | nil => exact ⟨rfl, rfl, rfl, rfl, rfl⟩
  | cons a as ih => exact (hf d a).trans (ih (f d a))

theorem leechObjEntry_sameCode (d : Driver) (entry : ConstEntry) : d.SameCode (d.leechObjEntry entry) := by
  cases entry <;> exact ⟨rfl, rfl, rfl, rfl, rfl⟩

theorem nameEntry_sameCode (d : Driver) (name : Str) : d.SameCode (d.nameEntry name) := ⟨rfl, rfl, rfl, rfl, rfl⟩

theorem func_ok (h : d.func f = .ok d') (hd : d.code.length = d.globalInstrCount) : ∃ d₀, d₀.AtCode ∧ d₀.code = d.code ∧
    d₀.globalInstrCount = d.globalInstrCount ∧ f.code.foldlM codeEntry d₀ = .ok d' := by
  obtain ⟨d₁, hd₁⟩ : ∃ d₁, d₁ = d.funcHeader f.name f.argNum := ⟨_, rfl⟩
  have hsame := (foldl_sameCode leechObjEntry_sameCode f.cpool d₁).trans
    (foldl_sameCode nameEntry_sameCode f.names _)
  have hcode : d₁.code = d.code := by rw [hd₁]; rfl
  have hglobal : d₁.globalInstrCount = d.globalInstrCount := by rw [hd₁]; rfl
  have hnone : d₁.forwardBranches = fun _ => none := by rw [hd₁]; rfl
  refine ⟨_, ⟨⟨?_, fun l i hi => ?_⟩, ?_, ?_, ?_⟩, hsame.code.trans hcode, hsame.globalInstrCount.trans hglobal, hd₁ ▸ h⟩
  · rw [hsame.code, hsame.globalInstrCount, hcode, hglobal, hd]
  · rw [hsame.forwardBranches, hnone] at hi
    cases hi
  · exact hsame.instrCount.trans (by rw [hd₁]; rfl)
  · exact hsame.labels.trans (by rw [hd₁]; rfl)
  · exact hsame.forwardBranches.trans hnone

theorem func_counts (h : d.func f = .ok d') (hd : d.code.length = d.globalInstrCount) :
    d'.code.length = d'.globalInstrCount ∧ d'.globalInstrCount = d.globalInstrCount + count f.code := by
  obtain ⟨d₀, hat, -, hglobal, hcode⟩ := func_ok h hd
  exact ⟨(entries_sound hcode hat.toSound).length, by rw [(entries_counts hcode).2.1, hglobal]⟩

theorem functions_counts (h : functions.foldlM func d = .ok d') (hd : d.code.length = d.globalInstrCount) :
    d'.code.length = d'.globalInstrCount ∧ d'.globalInstrCount = d.globalInstrCount + functions.base := by
  induction functions generalizing d with
  | nil => exact Except.ok.inj h ▸ ⟨hd, rfl⟩
  | cons f functions ih =>
      obtain ⟨d₁, h₁, h⟩ := foldlM_cons_ok h
      obtain ⟨hd₁, hglobal⟩ := func_counts h₁ hd
      obtain ⟨hd', hglobal'⟩ := ih h hd₁
      refine ⟨hd', hglobal'.trans ?_⟩
      rw [hglobal, ProgramText.base, ProgramText.base, List.map_cons, List.sum_cons, Nat.add_assoc]

/-- Later functions do not change the code of earlier ones. -/
theorem functions_keep (h : functions.foldlM func d = .ok d') (hd : d.code.length = d.globalInstrCount) {i : Nat}
    (hi : i < d.code.length) : d'.code[i]? = d.code[i]? := by
  induction functions generalizing d with
  | nil => exact Except.ok.inj h ▸ rfl
  | cons f functions ih =>
      obtain ⟨d₁, h₁, h⟩ := foldlM_cons_ok h
      obtain ⟨d₀, hat, hcode, hglobal, hentries⟩ := func_ok h₁ hd
      have hr : d₀.Referred i fun _ => False := by
        refine ⟨hcode ▸ hi, fun l hl => ?_⟩
        rw [hat.forwardBranches] at hl
        cases hl
      obtain ⟨hkeep, hr'⟩ := entries_keep hentries hat.toSound hr fun _ _ => id
      rw [ih h (func_counts h₁ hd).1 hr'.pushed, hkeep, hcode]

end Driver

namespace ProgramText

open Driver

variable {program before after : ProgramText} {f : FuncText} {file : LeechFile}

/-- The code of a function is made from its own entries only. -/
theorem parse_func (h : program.parse = .ok file) (hp : program = before ++ f :: after) : ∃ d d', d.AtCode ∧
    d.globalInstrCount = before.base ∧ f.code.foldlM codeEntry d = .ok d' ∧
    ∀ i a, d'.argAt i = some a → file.code[i]?.map Instruction.arg = some a := by
  obtain ⟨d₃, h₃, hfile⟩ : ∃ d₃, program.foldlM func {} = .ok d₃ ∧ file = d₃.leechFile := by
    rw [parse] at h
    cases hf : program.foldlM func {} with
    | ok d₃ =>
        rw [hf] at h
        exact ⟨d₃, rfl, (Except.ok.inj h).symm⟩
    | error e =>
        rw [hf] at h
        cases h
  rw [hp] at h₃
  obtain ⟨d₁, h₁, h₃⟩ := foldlM_append_ok h₃
  obtain ⟨d₂, h₂, h₃⟩ := foldlM_cons_ok h₃
  obtain ⟨hd₁, hglobal₁⟩ := functions_counts h₁ rfl
  obtain ⟨d₀, hat, -, hglobal, hentries⟩ := func_ok h₂ hd₁
  refine ⟨d₀, d₂, hat, by rw [hglobal, hglobal₁]; exact Nat.zero_add _, hentries, fun i a ha => ?_⟩
  have hi : i < d₂.code.length := by
    by_contra hge
    rw [argAt, List.getElem?_eq_none (Nat.le_of_not_lt hge)] at ha
    cases ha
  rw [hfile]
  rwa [argAt, ← functions_keep h₃ (func_counts h₂ hd₁).1 hi] at ha

/-! ## References and their labels -/

/-- The instruction with the index `i` jumps to the index `target`. -/
def JumpsTo (file : LeechFile) (i target : Nat) : Prop := ∃ inst, file.code[i]? = some inst ∧ inst.arg.toNat = target ∧
  ∀ (ops : LeechObj.FloatOps) (s s' : State), inst.opcode = .POP_JUMP_IF_FALSE ∨ inst.opcode = .POP_JUMP_IF_TRUE →
    s.nextPC = none → (execute ops file inst).run s = .ok ((), s') →
    s'.nextPC = none ∨ s'.nextPC = some (BitVec.ofNat 64 target)

/-- Every instruction with a label as its operand jumps to the first instruction after the label in its function. -/
def Resolves (program : ProgramText) (file : LeechFile) : Prop := ∀ (before : ProgramText) f after, program = before ++ f :: after →
  ∀ entries opcode l rest, f.code = entries ++ .instruction opcode (.IDENTIFIER l) :: rest →
  ∀ entries' rest', f.code = entries' ++ .LABEL l :: rest' →
    JumpsTo file (before.base + count entries) (before.base + count entries')

/-- Every label that is referred to is declared once in the function, and the indices of labels fit an argument. -/
structure WellLabelled (program : ProgramText) : Prop where
  declared : ∀ f ∈ program, ∀ e ∈ f.code, ∀ l, e.RefersTo l → f.code.count (.LABEL l) = 1
  fits : ∀ (before : ProgramText) f after entries l rest, program = before ++ f :: after → f.code = entries ++ .LABEL l :: rest →
    before.base + count entries < 256

/-- No function with references comes after an instruction of another function, and no two references to one label are pending
at the same time. -/
structure Resolvable (program : ProgramText) : Prop where
  first : ∀ (before : ProgramText) f after, program = before ++ f :: after → (∃ e ∈ f.code, ∃ l, e.RefersTo l) → before.base = 0
  once : ∀ f ∈ program, ∀ entries opcode opcode' l between between' rest,
    f.code ≠ entries ++ .instruction opcode (.IDENTIFIER l) :: between ++
      .instruction opcode' (.IDENTIFIER l) :: between' ++ .LABEL l :: rest

theorem jumpsTo_iff {i target : Nat} (htarget : target < 256) :
    JumpsTo file i target ↔ file.code[i]?.map Instruction.arg = some (BitVec.ofNat 8 target) := by
  constructor
  · rintro ⟨inst, hinst, harg, -⟩
    rw [hinst, ← harg, BitVec.ofNat_toNat, BitVec.setWidth_eq]
    rfl
  · intro h
    obtain ⟨inst, hinst, harg⟩ := Option.map_eq_some_iff.mp h
    have hnat : inst.arg.toNat = target := by rw [harg, BitVec.toNat_ofNat, Nat.mod_eq_of_lt htarget]
    refine ⟨inst, hinst, hnat, fun ops s s' hop hs hrun => ?_⟩
    have hwide : inst.arg.setWidth 64 = BitVec.ofNat 64 target := by
      rw [← hnat]
      exact BitVec.eq_of_toNat_eq (by simp)
    rw [← hwide]
    rcases hop with hop | hop
    · rw [execute, hop] at hrun
      exact popJump_nextPC hrun hs
    · rw [execute, hop] at hrun
      exact popJump_nextPC hrun hs

/-- A label that is declared once is declared on one side of a reference to it. -/
theorem label_side {entries rest entries' rest' : List CodeEntry} {opcode : Option Opcodes} {l : Str}
    (h : entries ++ .instruction opcode (.IDENTIFIER l) :: rest = entries' ++ .LABEL l :: rest')
    (hone : (entries' ++ .LABEL l :: rest').count (.LABEL l) = 1) :
    (∃ between, entries = entries' ++ .LABEL l :: between ∧ .LABEL l ∉ between) ∨
    ∃ between, entries' = entries ++ .instruction opcode (.IDENTIFIER l) :: between ∧ rest = between ++ .LABEL l :: rest' ∧
      .LABEL l ∉ entries ∧ .LABEL l ∉ between ∧ .LABEL l ∉ rest' := by
  rw [List.count_append, List.count_cons_self] at hone
  have hbefore : .LABEL l ∉ entries' := List.count_eq_zero.mp (by omega)
  have hafter : .LABEL l ∉ rest' := List.count_eq_zero.mp (by omega)
  rcases List.append_eq_append_iff.mp h with ⟨between, hentries, hrest⟩ | ⟨between, hentries, hrest⟩
  · cases between with
    | nil => simp at hrest
    | cons e between =>
        injection hrest with he hrest
        subst he
        rw [hentries, List.mem_append, List.mem_cons, not_or, not_or] at hbefore
        exact .inr ⟨between, hentries, hrest, hbefore.1, hbefore.2.2, hafter⟩
  · cases between with
    | nil => simp at hrest
    | cons e between =>
        injection hrest with he hrest
        subst he
        exact .inl ⟨between, hentries, fun hmem => hafter (hrest ▸ List.mem_append_left _ hmem)⟩

theorem resolves_of_resolvable (h : program.parse = .ok file) (hw : program.WellLabelled) (hr : program.Resolvable) :
    program.Resolves file := by
  intro before f after hp entries opcode l rest hcode entries' rest' hcode'
  have hmem : f ∈ program := hp ▸ List.mem_append_right _ List.mem_cons_self
  have href : CodeEntry.instruction opcode (.IDENTIFIER l) ∈ f.code := hcode ▸ List.mem_append_right _ List.mem_cons_self
  have hone := hw.declared f hmem _ href l ⟨opcode, rfl⟩
  have hbase := hr.first before f after hp ⟨_, href, l, opcode, rfl⟩
  obtain ⟨d, d', hat, hglobal, hentries, hfile⟩ := parse_func h hp
  rw [jumpsTo_iff (hw.fits before f after entries' l rest' hp hcode')]
  refine hfile _ _ ?_
  rw [hcode'] at hone
  rw [hbase, Nat.zero_add, Nat.zero_add]
  rw [hbase] at hglobal
  rcases label_side (hcode.symm.trans hcode') hone with ⟨between, rfl, hbetween⟩ | ⟨between, hentries', rfl, hb, hbetween, ha⟩
  · rw [hcode] at hentries
    have harg := backward_reference hat hentries hbetween
    rwa [hglobal, Nat.zero_add] at harg
  · have honly : ∀ e ∈ between, ¬ e.RefersTo l := by
      rintro e he ⟨opcode', rfl⟩
      obtain ⟨between₁, between₂, rfl⟩ := List.append_of_mem he
      exact hr.once f hmem entries opcode opcode' l between₁ between₂ rest' (by rw [hcode]; simp)
    rw [hcode, ← List.cons_append, ← List.append_assoc] at hentries
    have harg := forward_reference hat hentries hb hbetween ha honly
    rwa [hglobal, Nat.zero_add, ← hentries'] at harg

theorem ofNat_byte_inj {m n : Nat} (hm : m < 256) (hn : n < 256) (h : BitVec.ofNat 8 m = BitVec.ofNat 8 n) : m = n := by
  have hnat := congrArg BitVec.toNat h
  rwa [BitVec.toNat_ofNat, BitVec.toNat_ofNat, Nat.mod_eq_of_lt hm, Nat.mod_eq_of_lt hn] at hnat

theorem first_of_resolves (h : program.parse = .ok file) (hw : program.WellLabelled) (hr : program.Resolves file)
    (hp : program = before ++ f :: after) {e : CodeEntry} {l : Str} (he : e ∈ f.code) (href : e.RefersTo l) :
    before.base = 0 := by
  obtain ⟨opcode, rfl⟩ := href
  have hone := hw.declared f (hp ▸ List.mem_append_right _ List.mem_cons_self) _ he l ⟨opcode, rfl⟩
  obtain ⟨entries, rest, hcode⟩ := List.append_of_mem he
  obtain ⟨entries', rest', hcode'⟩ := List.append_of_mem (List.count_pos_iff.mp (by omega : 0 < f.code.count (.LABEL l)))
  have hfits := hw.fits before f after entries' l rest' hp hcode'
  have hjump := (jumpsTo_iff hfits).mp (hr before f after hp entries opcode l rest hcode entries' rest' hcode')
  obtain ⟨d, d', hat, hglobal, hentries, hfile⟩ := parse_func h hp
  rw [hcode'] at hone
  rcases label_side (hcode.symm.trans hcode') hone with ⟨between, rfl, hbetween⟩ | ⟨between, rfl, rfl, hb, hbetween, ha⟩
  · rw [hcode] at hentries
    have harg := hfile _ _ (backward_reference hat hentries hbetween)
    rw [hglobal, hjump] at harg
    have heq := ofNat_byte_inj hfits (by omega) (Option.some.inj harg)
    omega
  · by_cases honly : ∀ e ∈ between, ¬ e.RefersTo l
    · rw [hcode, ← List.cons_append, ← List.append_assoc] at hentries
      have harg := hfile _ _ (forward_reference hat hentries hb hbetween ha honly)
      rw [hglobal, hjump] at harg
      have heq := ofNat_byte_inj hfits (by omega) (Option.some.inj harg)
      omega
    · push Not at honly
      obtain ⟨e, he, opcode', rfl⟩ := honly
      obtain ⟨between₁, between₂, rfl⟩ := List.append_of_mem he
      rw [List.mem_append, not_or] at hbetween
      have hcode₂ : f.code = entries ++ .instruction opcode (.IDENTIFIER l) :: between₁ ++
          .instruction opcode' (.IDENTIFIER l) :: (between₂ ++ .LABEL l :: rest') := by rw [hcode]; simp
      rw [hcode₂] at hentries
      have harg := hfile _ _ (forgotten_reference hat hentries hb hbetween.1)
      rw [hglobal, hjump] at harg
      have heq := ofNat_byte_inj (n := 0) hfits (by omega) (Option.some.inj harg)
      omega

theorem once_of_resolves (h : program.parse = .ok file) (hw : program.WellLabelled) (hr : program.Resolves file)
    (hf : f ∈ program) (entries : List CodeEntry) (opcode opcode' : Option Opcodes) (l : Str)
    (between between' rest : List CodeEntry) : f.code ≠ entries ++ .instruction opcode (.IDENTIFIER l) :: between ++
      .instruction opcode' (.IDENTIFIER l) :: between' ++ .LABEL l :: rest := by
  intro hcode
  obtain ⟨before, after, hp⟩ := List.append_of_mem hf
  have href : CodeEntry.instruction opcode (.IDENTIFIER l) ∈ f.code := by simp [hcode]
  have hone := hw.declared f hf _ href l ⟨opcode, rfl⟩
  have hfits := hw.fits before f after _ l rest hp hcode
  have hjump := (jumpsTo_iff hfits).mp (hr before f after hp entries opcode l
    (between ++ .instruction opcode' (.IDENTIFIER l) :: between' ++ .LABEL l :: rest) (by rw [hcode]; simp) _ rest hcode)
  obtain ⟨d, d', hat, hglobal, hentries, hfile⟩ := parse_func h hp
  have hnone : ∀ x ∈ entries ++ .instruction opcode (.IDENTIFIER l) :: between, x ≠ .LABEL l := by
    rintro x hx rfl
    rw [hcode, List.count_append, List.count_cons_self, List.count_append] at hone
    exact List.count_eq_zero.mp (by omega) hx
  rw [hcode, List.append_assoc] at hentries
  have harg := hfile _ _ (forgotten_reference hat hentries
    (fun hmem => hnone _ (List.mem_append_left _ hmem) rfl)
    (fun hmem => hnone _ (List.mem_append_right _ (List.mem_cons_of_mem _ hmem)) rfl))
  rw [hglobal, hjump] at harg
  have heq := ofNat_byte_inj (n := 0) hfits (by omega) (Option.some.inj harg)
  simp [CodeEntry.isInstruction] at heq

/-- In an accepted program with well-formed labels, every reference leads to its label exactly when no function with references
has instructions before it and no two references to one label are pending at the same time. -/
theorem resolves_iff (h : program.parse = .ok file) (hw : program.WellLabelled) :
    program.Resolves file ↔ program.Resolvable :=
  ⟨fun hr => ⟨fun _ _ _ hp ⟨_, he, _, href⟩ => first_of_resolves h hw hr hp he href, fun _ hf => once_of_resolves h hw hr hf⟩,
    resolves_of_resolvable h hw⟩

theorem fits_of_base_lt (h : program.base < 256) {entries rest : List CodeEntry} {l : Str}
    (hp : program = before ++ f :: after) (hcode : f.code = entries ++ .LABEL l :: rest) :
    before.base + count entries < 256 := by
  have hle : count entries ≤ count f.code := by
    rw [hcode, count, count, List.countP_append]
    exact Nat.le_add_right _ _
  have hbase : program.base = before.base + (count f.code + after.base) := by
    rw [hp, base, List.map_append, List.sum_append, List.map_cons, List.sum_cons]
    rfl
  omega

/-- A function that jumps back to its beginning. -/
def loop (name : Str) : FuncText where
  name := name
  argNum := 0
  code := [.LABEL [0x6c], .instruction (some .POP_TOP) .empty,
    .instruction (some .POP_JUMP_IF_TRUE) (.IDENTIFIER [0x6c])]

theorem loop_declared {name : Str} {e : CodeEntry} (he : e ∈ (loop name).code) {l : Str} (href : e.RefersTo l) :
    (loop name).code.count (.LABEL l) = 1 := by
  obtain ⟨opcode, rfl⟩ := href
  simp only [loop, List.mem_cons, reduceCtorEq, CodeEntry.instruction.injEq, Operand.IDENTIFIER.injEq, and_false,
    List.not_mem_nil, or_false, false_or] at he
  rw [he.2]
  rfl

theorem loops_wellLabelled {names : List Str} (h : names.length < 100) : WellLabelled (names.map loop) where
  declared f hf e he l href := by
    obtain ⟨name, -, rfl⟩ := List.mem_map.mp hf
    exact loop_declared he href
  fits before f after entries l rest hp hcode := by
    refine fits_of_base_lt ?_ hp hcode
    have hbase : base (names.map loop) = names.length * 2 := by
      clear h hp
      induction names with
      | nil => rfl
      | cons name names ih =>
        rw [List.map_cons, base, List.map_cons, List.sum_cons]
        change 2 + base (names.map loop) = _
        rw [ih, List.length_cons]
        omega
    omega

theorem resolves_iff_loop : ∃ file, parse [loop kMainFuncName] = .ok file ∧
    (Resolves [loop kMainFuncName] file ↔ Resolvable [loop kMainFuncName]) :=
  ⟨_, rfl, resolves_iff rfl (@loops_wellLabelled [kMainFuncName] (by decide))⟩

/-- In the second of two functions the jump leads into the first one. -/
theorem second_loop : ∃ file, parse [loop [0x66], loop kMainFuncName] = .ok file ∧
    WellLabelled [loop [0x66], loop kMainFuncName] ∧ ¬ Resolves [loop [0x66], loop kMainFuncName] file := by
  have hw := @loops_wellLabelled [[0x66], kMainFuncName] (by decide)
  refine ⟨_, rfl, hw, fun hr => ?_⟩
  have hbase := @first_of_resolves _ [loop [0x66]] [] (loop kMainFuncName) _ rfl hw hr rfl
    _ [0x6c] (List.mem_cons_of_mem _ (List.mem_cons_of_mem _ List.mem_cons_self)) ⟨_, rfl⟩
  exact absurd hbase (by decide)

end ProgramText

end CompilerLab.Leech
