import CompilerLab.Leech.Executor
import CompilerLab.Leech.Lemmas.RoundTrip

/-!
# When a file survives being written and read
-/

namespace CompilerLab.Leech

open Lib LeechObj FileMeta

namespace LeechFile

/-- The functions are well formed, and a `std::size_t` holds the numbers of functions and of instructions. -/
structure WellFormed (file : LeechFile) : Prop where
  funcs : ∀ e ∈ file.fileMeta.funcs.entries, FuncMeta.WellFormed e.1 e.2
  funcNum : file.fileMeta.funcs.entries.length < 2 ^ 64
  instNum : file.code.length < 2 ^ 64

/-- The file that is read has the same functions and the same code, and executes in the same way. -/
structure Same (file file' : LeechFile) : Prop where
  funcs : file'.fileMeta.funcs.entries.Perm file.fileMeta.funcs.entries
  code : file'.code = file.code
  executes : ∀ (ops : FloatOps) (n : Nat), Executor.execute ops file' n = Executor.execute ops file n

/-- What is read from the bytes that are written is the file. -/
def RoundTrips (file : LeechFile) : Prop :=
  ∃ bytes file', file.serialize = .ok bytes ∧ deserialize bytes = .ok file' ∧ file.Same file'

/-- No function has arguments, no constant has a `None` in it, and every instruction has an opcode. -/
structure Survives (file : LeechFile) : Prop where
  argNum : ∀ e ∈ file.fileMeta.funcs.entries, e.2.argNum = 0
  noneless : ∀ e ∈ file.fileMeta.funcs.entries, e.2.hasNone = false
  opcodes : ∀ inst ∈ file.code, inst.opcode ≠ .UNKNOWN

variable {file file' : LeechFile}

/-! ## Execution of the same file -/

theorem execute_congr (hf : file'.fileMeta.funcs.entries.Perm file.fileMeta.funcs.entries) (hc : file'.code = file.code)
    (ops : FloatOps) (n : Nat) : Executor.execute ops file' n = Executor.execute ops file n := by
  have hat : funcAt file' = funcAt file := funext fun name => by rw [funcAt, funcAt, AList.perm_lookup hf]
  have hstep : Executor.step ops file' = Executor.step ops file := by
    funext s
    simp only [Executor.step, hc, Leech.execute, execute_CALL_FUNCTION, execute_CALL_METHOD, hat]
  have hrun : ∀ s, Executor.run ops file' n s = Executor.run ops file n s := by
    induction n with
    | zero => exact fun _ => rfl
    | succ n ih => exact fun s => by rw [Executor.run, Executor.run, hstep, funext ih]
  rw [Executor.execute, Executor.execute, State.initial, State.initial, AList.perm_lookup hf, funext hrun]

/-! ## Reading -/

/-- The functions are written one after the other. -/
theorem mapM_serialize {es : List (Sigma fun _ : Str => FuncMeta)} (h : ∀ e ∈ es, FuncMeta.WellFormed e.1 e.2) :
    ∃ parts, List.Forall₂ Written es parts ∧
      es.mapM (fun entry => do return serializeString entry.1 ++ (← entry.2.serialize)) = Except.ok parts := by
  induction es with
  | nil => exact ⟨[], .nil, rfl⟩
  | cons e es ih =>
      obtain ⟨bytes, hbytes, -⟩ := (h e List.mem_cons_self).reads
      obtain ⟨parts, hparts, hall⟩ := ih fun e' he' => h e' (List.mem_cons_of_mem _ he')
      refine ⟨(serializeString e.1 ++ bytes) :: parts, .cons ⟨bytes, hbytes, rfl⟩ hparts, ?_⟩
      rw [List.mapM_cons, hall, hbytes]
      rfl

theorem instruction_reads {inst : Instruction} (h : inst.opcode ≠ .UNKNOWN) :
    Reads Instruction.deserialize inst.serialize inst := by
  have hmake : Instruction.make (BitVec.ofNat 8 inst.opcode.toUnderlying.toNat) (BitVec.ofNat 8 inst.arg.toNat) = .ok inst := by
    rw [BitVec.ofNat_toNat, BitVec.ofNat_toNat, BitVec.setWidth_eq, BitVec.setWidth_eq, Instruction.make,
      Opcodes.cast_toUnderlying]
    obtain ⟨opcode, arg⟩ := inst
    cases opcode with
    | UNKNOWN => exact absurd rfl h
    | _ => rfl
  rw [Instruction.serialize, ← List.append_nil (toBytes 1 inst.arg.toNat)]
  exact (deserializeNum_byte _).bind ((deserializeNum_byte _).bind (lift_reads hmake))

theorem instruction_rejects {inst : Instruction} (h : inst.opcode = .UNKNOWN) :
    Rejects Instruction.deserialize inst.serialize := by
  have hmake : Instruction.make (BitVec.ofNat 8 inst.opcode.toUnderlying.toNat) (BitVec.ofNat 8 inst.arg.toNat) =
      .error (.invalid_argument "Trying to create Instruction with UNKNOWN opcode") := by
    rw [BitVec.ofNat_toNat, BitVec.setWidth_eq, Instruction.make, Opcodes.cast_toUnderlying, h]
  rw [Instruction.serialize, ← List.append_nil (toBytes 1 inst.arg.toNat)]
  exact Rejects.right (deserializeNum_byte _) (Rejects.right (deserializeNum_byte _) (lift_rejects hmake))

theorem code_reads {code : List Instruction} (h : ∀ inst ∈ code, inst.opcode ≠ .UNKNOWN) :
    Reads (readMany Instruction.deserialize code.length) (code.map Instruction.serialize).flatten code := by
  refine Reads.many ?_
  rw [List.forall₂_map_right_iff, List.forall₂_same]
  exact fun inst hi => instruction_reads (h inst hi)

theorem code_rejects {code : List Instruction} (h : ∃ inst ∈ code, inst.opcode = .UNKNOWN) :
    Rejects (readMany Instruction.deserialize code.length) (code.map Instruction.serialize).flatten := by
  obtain ⟨inst, hi, hu⟩ := h
  refine Rejects.many ?_ ⟨inst.serialize, List.mem_map_of_mem hi, instruction_rejects hu⟩
  rw [List.forall₂_map_right_iff, List.forall₂_same]
  intro inst _
  by_cases hu : inst.opcode = .UNKNOWN
  · exact .inr (instruction_rejects hu)
  · exact .inl (instruction_reads hu)

/-- The bytes of a file. -/
def layout (file : LeechFile) (parts : List (List Byte)) : List Byte :=
  theLEECH ++ ((toBytes 8 file.fileMeta.funcs.entries.length ++ parts.flatten) ++ (toBytes 8 file.code.length ++
    (file.code.map Instruction.serialize).flatten))

theorem serialize_eq (h : file.WellFormed) : ∃ parts, List.Forall₂ Written file.fileMeta.funcs.entries parts ∧
    file.serialize = .ok (file.layout parts) := by
  obtain ⟨parts, hparts, hall⟩ := mapM_serialize h.funcs
  refine ⟨parts, hparts, ?_⟩
  rw [serialize, FileMeta.serialize, hall, layout]
  simp only [← List.append_assoc]
  rfl

theorem layout_fuel (parts : List (List Byte)) : parts.flatten.length ≤ (file.layout parts).length := by
  simp only [layout, List.length_append]
  omega

theorem deserialize_ok {bytes : List Byte} (h : Reads (deserializeFrom bytes.length) bytes file') :
    deserialize bytes = .ok file' := by
  have hrun := h []
  rw [List.append_nil] at hrun
  rw [deserialize, StateT.run'_eq, hrun]
  rfl

theorem deserialize_fails {bytes : List Byte} (h : Rejects (deserializeFrom bytes.length) bytes) :
    deserialize bytes ≠ .ok file' := by
  intro hok
  rw [deserialize, StateT.run'_eq] at hok
  cases hr : (deserializeFrom bytes.length).run bytes with
  | ok p => exact h [] p.1 p.2 (by rw [List.append_nil]; exact hr)
  | error e =>
      rw [hr] at hok
      cases hok

variable {parts : List (List Byte)}

/-- The functions are read and copied. -/
theorem fileMeta_reads {fuel : Nat} (h : file.WellFormed) (hnone : ∀ e ∈ file.fileMeta.funcs.entries, e.2.hasNone = false)
    (hparts : List.Forall₂ Written file.fileMeta.funcs.entries parts) (hlen : parts.flatten.length ≤ fuel) :
    ∃ funcs : Funcs, funcs.entries = file.fileMeta.funcs.entries.map copiedEntry ∧ Reads (FileMeta.deserialize fuel)
      (toBytes 8 file.fileMeta.funcs.entries.length ++ parts.flatten) { funcs } := by
  have hempty : ∀ e ∈ file.fileMeta.funcs.entries, e.1 ∉ (∅ : Funcs) := fun _ _ => AList.notMem_empty _
  obtain ⟨funcs, hentries, hread⟩ :=
    readFuncs_reads hparts h.funcs hnone file.fileMeta.funcs.nodupKeys hempty hlen
  have hcopy : ∀ e ∈ funcs.entries, e.2.copy = .ok e.2.copied := by
    intro e he
    rw [hentries, AList.empty_entries, List.append_nil, List.mem_reverse, List.mem_map] at he
    obtain ⟨e', he', rfl⟩ := he
    exact FuncMeta.copy_eq (h.funcs e' he').constants (hnone e' he')
  obtain ⟨copies, hcopies, hok⟩ := copyFuncs_eq hcopy
  refine ⟨copies, ?_, ?_⟩
  · rw [hcopies, hentries, AList.empty_entries, List.append_nil, List.map_reverse, List.reverse_reverse, List.map_map]
    rfl
  · rw [← List.append_nil (List.flatten _)]
    exact (deserializeNum_size h.funcNum).bind (hread.bind ((lift_reads hok).bind (Reads.pure _)))

theorem fileMeta_rejects {fuel : Nat} (h : file.WellFormed) (hnone : ∃ e ∈ file.fileMeta.funcs.entries, e.2.hasNone = true)
    (hparts : List.Forall₂ Written file.fileMeta.funcs.entries parts) (hlen : parts.flatten.length ≤ fuel) :
    Rejects (FileMeta.deserialize fuel) (toBytes 8 file.fileMeta.funcs.entries.length ++ parts.flatten) :=
  Rejects.right (deserializeNum_size h.funcNum) (readFuncs_rejects hparts h.funcs hnone file.fileMeta.funcs.nodupKeys
    (fun _ _ => AList.notMem_empty _) hlen).left

/-- A file without a `None` and with the opcode of every instruction is read; the numbers of arguments are lost. -/
theorem reads_back (h : file.WellFormed) (hnone : ∀ e ∈ file.fileMeta.funcs.entries, e.2.hasNone = false)
    (hcode : ∀ inst ∈ file.code, inst.opcode ≠ .UNKNOWN) : ∃ bytes file', file.serialize = .ok bytes ∧
      deserialize bytes = .ok file' ∧ file'.code = file.code ∧
      file'.fileMeta.funcs.entries.Perm (file.fileMeta.funcs.entries.map copiedEntry) := by
  obtain ⟨parts, hparts, hser⟩ := serialize_eq h
  obtain ⟨funcs, hentries, hread⟩ := fileMeta_reads h hnone hparts (layout_fuel parts)
  have hcopy : ∀ e ∈ funcs.entries, e.2.copy = .ok e.2.copied := by
    intro e he
    rw [hentries, List.mem_map] at he
    obtain ⟨e', he', rfl⟩ := he
    exact FuncMeta.copy_eq (h.funcs e' he').constants (hnone e' he')
  obtain ⟨copies, hcopies, hok⟩ := copyFuncs_eq hcopy
  have hcopied : funcs.entries.map copiedEntry = funcs.entries := by
    rw [hentries, List.map_map]
    rfl
  have hfile : Reads (deserializeFrom (file.layout parts).length) (file.layout parts)
      { fileMeta := { funcs := copies }, code := file.code } := by
    refine (deserializeString_reads theLEECH).bind ?_
    rw [if_pos rfl]
    refine hread.bind ((deserializeNum_size h.instNum).bind ?_)
    rw [← List.append_nil (List.flatten _)]
    exact (code_reads hcode).bind ((lift_reads hok).bind (Reads.pure _))
  refine ⟨_, _, hser, deserialize_ok hfile, rfl, ?_⟩
  rw [← hentries, ← hcopied, hcopies]
  exact (List.reverse_perm _)

/-- A file with a `None`, or with an instruction without an opcode, is not read. -/
theorem not_read (h : file.WellFormed) (hbad : (∃ e ∈ file.fileMeta.funcs.entries, e.2.hasNone = true) ∨
    (∀ e ∈ file.fileMeta.funcs.entries, e.2.hasNone = false) ∧ ∃ inst ∈ file.code, inst.opcode = .UNKNOWN) :
    ∃ bytes, file.serialize = .ok bytes ∧ ∀ file', deserialize bytes ≠ .ok file' := by
  obtain ⟨parts, hparts, hser⟩ := serialize_eq h
  refine ⟨_, hser, fun file' => deserialize_fails ?_⟩
  refine Rejects.right (deserializeString_reads theLEECH) ?_
  rw [if_pos rfl]
  rcases hbad with hnone | ⟨hnone, hcode⟩
  · exact ((fileMeta_rejects h hnone hparts (layout_fuel parts)).append _).left
  · obtain ⟨funcs, -, hread⟩ := fileMeta_reads h hnone hparts (layout_fuel parts)
    exact Rejects.right hread (Rejects.right (deserializeNum_size h.instNum) (code_rejects hcode).left)

theorem survives_of_round_trips (h : file.WellFormed) (hr : file.RoundTrips) : file.Survives := by
  obtain ⟨bytes, file', hser, hde, hsame⟩ := hr
  have hread : ¬ ((∃ e ∈ file.fileMeta.funcs.entries, e.2.hasNone = true) ∨
      (∀ e ∈ file.fileMeta.funcs.entries, e.2.hasNone = false) ∧ ∃ inst ∈ file.code, inst.opcode = .UNKNOWN) := by
    intro hbad
    obtain ⟨bytes', hser', hno⟩ := not_read h hbad
    obtain rfl := Except.ok.inj (hser.symm.trans hser')
    exact hno file' hde
  push Not at hread
  have hnone : ∀ e ∈ file.fileMeta.funcs.entries, e.2.hasNone = false :=
    fun e he => Bool.eq_false_iff.mpr (hread.1 e he)
  have hcode := hread.2 hnone
  obtain ⟨bytes', file'', hser', hde', -, hperm⟩ := reads_back h hnone hcode
  obtain rfl := Except.ok.inj (hser.symm.trans hser')
  obtain rfl := Except.ok.inj (hde.symm.trans hde')
  refine ⟨fun e he => ?_, hnone, hcode⟩
  have hmem := (hsame.funcs.symm.trans hperm).subset he
  rw [List.mem_map] at hmem
  obtain ⟨e', -, rfl⟩ := hmem
  rfl

theorem round_trips_of_survives (h : file.WellFormed) (hs : file.Survives) : file.RoundTrips := by
  obtain ⟨bytes, file', hser, hde, hcode, hperm⟩ := reads_back h hs.noneless hs.opcodes
  have hself : file.fileMeta.funcs.entries.map copiedEntry = file.fileMeta.funcs.entries := by
    refine (List.map_congr_left fun e he => ?_).trans (List.map_id' _)
    have harg := hs.argNum e he
    obtain ⟨name, fm⟩ := e
    simp only [copiedEntry, FuncMeta.copied, Sigma.mk.injEq, heq_eq_eq, true_and]
    rw [← harg]
  rw [hself] at hperm
  exact ⟨bytes, file', hser, hde, hperm, hcode, execute_congr hperm hcode⟩

/-- A file is read back as it was written exactly when no function has arguments, no constant has a `None` in it and every
instruction has an opcode. -/
theorem round_trips_iff (h : file.WellFormed) : file.RoundTrips ↔ file.Survives :=
  ⟨survives_of_round_trips h, round_trips_of_survives h⟩

/-- A file with one function `f`, which returns its first name. -/
def oneFunction (argNum : BitVec 64) (cstPool : List LeechObj) : LeechFile where
  fileMeta := { funcs := AList.singleton [0x66] { argNum, cstPool, names := [[0x6e]] } }
  code := [{ opcode := .LOAD_FAST }, { opcode := .RETURN_VALUE }]

theorem oneFunction_wellFormed {argNum : BitVec 64} {cst : LeechObj} (h : cst.Constant) :
    (oneFunction argNum [cst]).WellFormed where
  funcs e he := by
    obtain rfl := List.mem_singleton.mp he
    have hone : 1 < 2 ^ 64 := by decide
    exact ⟨hone, fun c hc => List.mem_singleton.mp hc ▸ h, hone, hone, fun n hn => List.mem_singleton.mp hn ▸ hone⟩
  funcNum := (by decide : 1 < 2 ^ 64)
  instNum := (by decide : 2 < 2 ^ 64)

theorem round_trips_iff_nested :
    (oneFunction 0 [.TupleObj [.IntObj 1, .TupleObj [.FloatObj 2]]]).RoundTrips ↔
      (oneFunction 0 [.TupleObj [.IntObj 1, .TupleObj [.FloatObj 2]]]).Survives := by
  have hinner : (LeechObj.TupleObj [.FloatObj 2]).Constant :=
    .tuple (by decide) fun o ho => List.mem_singleton.mp ho ▸ .float 2
  refine round_trips_iff (oneFunction_wellFormed (.tuple (by decide) fun o ho => ?_))
  rcases List.mem_cons.mp ho with rfl | ho
  · exact .int 1
  · exact List.mem_singleton.mp ho ▸ hinner

/-- A function with one argument is not read back, and neither is a `None`. -/
theorem argument_lost : ((oneFunction 1 [.IntObj 0]).WellFormed ∧ ¬ (oneFunction 1 [.IntObj 0]).RoundTrips) ∧
    (oneFunction 0 [.NoneObj]).WellFormed ∧ ¬ (oneFunction 0 [.NoneObj]).RoundTrips := by
  have hint := @oneFunction_wellFormed 1 _ (.int 0)
  have hnone := @oneFunction_wellFormed 0 _ .none
  refine ⟨⟨hint, fun h => ?_⟩, hnone, fun h => ?_⟩
  · exact absurd ((survives_of_round_trips hint h).argNum _ (List.mem_singleton.mpr rfl)) (by decide)
  · exact absurd ((survives_of_round_trips hnone h).noneless _ (List.mem_singleton.mpr rfl)) (by decide)

end LeechFile

end CompilerLab.Leech
