import CompilerLab.Leech.Lemmas.Format

/-!
# Files that are not well formed

Whatever the bytes, reading them ends, and what it gives has no null pointers in it. But a constant of a type that is not known
is read as a null pointer, which is followed when the function is copied.
-/

namespace CompilerLab.Leech

open Lib

/-! ## Functions without null pointers -/

/-- Every constant of the function is an object, with a copy that is the same. -/
def FuncMeta.Whole (fm : FuncMeta) : Prop := ∀ o ∈ fm.cstPool, o.hasNull = false ∧ o.CopiedUnlessNull

theorem FuncMeta.Whole.hasNull {fm : FuncMeta} (h : fm.Whole) : fm.hasNull = false := by
  rw [FuncMeta.hasNull, LeechObj.anyNull_eq_any, List.any_eq_false]
  exact fun o ho => Bool.eq_false_iff.mp (h o ho).1

theorem FuncMeta.Whole.clones {fm : FuncMeta} (h : fm.Whole) : fm.clones = .ok fm.cstPool := by
  have hnull : LeechObj.anyNull fm.cstPool = false := h.hasNull
  rw [FuncMeta.clones, StateT.run'_eq, LeechObj.cloneAll_eq fun o ho => (h o ho).2, hnull]
  rfl

theorem FunctionBytes.whole {input : List Byte} {entry : Str × FuncMeta} (h : FunctionBytes input entry)
    (hn : entry.2.hasNull = false) : entry.2.Whole := by
  cases h with
  | @intro name addr argNum csts names hname hcstNum hcsts hnameNum hnames =>
      intro o ho
      rw [FuncMeta.hasNull, LeechObj.anyNull_eq_any, List.any_eq_false] at hn
      refine ⟨Bool.eq_false_iff.mpr (hn o ho), ?_⟩
      obtain ⟨p, hp, rfl⟩ := List.mem_map.mp ho
      exact (hcsts p hp).copied

namespace FileMeta

variable {funcs : Funcs} {fuel n : Nat} {s : List Byte}

/-- Every function is without null pointers. -/
def Solid (funcs : Funcs) : Prop := ∀ entry ∈ funcs.entries, entry.2.Whole

theorem Solid.empty : Solid ∅ := fun _ h => absurd h List.not_mem_nil

theorem Solid.insert {name : Str} {fm : FuncMeta} (h : Solid funcs) (hfm : fm.Whole) : Solid (funcs.insert name fm) := by
  intro entry hentry
  rw [AList.entries_insert] at hentry
  cases hentry with
  | head => exact hfm
  | tail _ hentry => exact h entry ((List.kerase_sublist name funcs.entries).subset hentry)

theorem Solid.lookup (h : Solid funcs) (name : Str) : ((funcs.lookup name).getD {}).Whole := by
  cases hl : funcs.lookup name with
  | none => exact fun o ho => absurd ho List.not_mem_nil
  | some fm => exact h ⟨name, fm⟩ (AList.mem_lookup_iff.mp hl)

/-- What `funcs[name] = meta` comes to. -/
theorem setFunc_cases {input : List Byte} {entry : Str × FuncMeta} (h : Solid funcs) (he : FunctionBytes input entry) :
    (entry.2.hasNull = true ∧ setFunc funcs entry = .error .nullDereference) ∨
    entry.2.hasNull = false ∧ ∃ funcs', setFunc funcs entry = .ok funcs' ∧ Solid funcs' := by
  rw [setFunc, FuncMeta.assign, he.clones_eq]
  cases hn : entry.2.hasNull with
  | true => exact .inl ⟨rfl, rfl⟩
  | false =>
      refine .inr ⟨rfl, _, rfl, h.insert fun o ho => ?_⟩
      rcases List.mem_append.mp ho with ho | ho
      · exact h.lookup entry.1 o ho
      · exact he.whole hn o ho

theorem copyFuncs_solid (h : Solid funcs) : ∃ copies, copyFuncs funcs = .ok copies ∧ Solid copies := by
  have hfold : ∀ (entries : List (Sigma fun _ : Str => FuncMeta)) (acc : Funcs), (∀ e ∈ entries, e.2.Whole) → Solid acc →
      ∃ copies, entries.foldlM (fun (copies : Funcs) entry => do return copies.insert entry.1 (← entry.2.copy)) acc =
        Except.ok (ε := Error) copies ∧ Solid copies := by
    intro entries
    induction entries with
    | nil => exact fun acc _ hacc => ⟨acc, rfl, hacc⟩
    | cons e entries ih =>
        intro acc hentries hacc
        have hwhole : e.2.Whole := hentries e List.mem_cons_self
        have hcopy : e.2.copy = .ok e.2.copied := by
          rw [FuncMeta.copy, hwhole.clones]
          rfl
        have hrest : Solid (acc.insert e.1 e.2.copied) := hacc.insert hwhole
        obtain ⟨copies, hcopies, hsolid⟩ := ih _ (fun e' he' => hentries e' (List.mem_cons_of_mem _ he')) hrest
        refine ⟨copies, ?_, hsolid⟩
        rw [List.foldlM_cons, hcopy]
        exact hcopies
  exact hfold funcs.entries ∅ h Solid.empty

/-! ## The functions of a file -/

/-- Among the next functions there is one with a null pointer, and all before it are complete and without one. -/
def NullWithin (n : Nat) (s : List Byte) : Prop :=
  ∃ (before : List (List Byte)) (part rest : List Byte), s = before.flatten ++ (part ++ rest) ∧ before.length < n ∧
    (∀ p ∈ before, ∃ entry, FunctionBytes p entry ∧ entry.2.hasNull = false) ∧
    ∃ entry, FunctionBytes part entry ∧ entry.2.hasNull = true

theorem NullWithin.cons {input : List Byte} {entry : Str × FuncMeta} (he : FunctionBytes input entry)
    (hn : entry.2.hasNull = false) (h : NullWithin n s) : NullWithin (n + 1) (input ++ s) := by
  obtain ⟨before, part, rest, rfl, hlen, hbefore, hpart⟩ := h
  refine ⟨input :: before, part, rest, ?_, Nat.succ_lt_succ hlen, ?_, hpart⟩
  · rw [List.flatten_cons, List.append_assoc]
  · intro p hp
    cases hp with
    | head => exact ⟨entry, he, hn⟩
    | tail _ hp => exact hbefore p hp

theorem readFuncs_succ (funcs : Funcs) (n : Nat) : readFuncs fuel funcs (n + 1) =
    FuncMeta.deserialize fuel >>= fun entry => (liftM (setFunc funcs entry) : Istream Funcs) >>= fun funcs =>
      readFuncs fuel funcs n := rfl

/-- The functions that are read are without null pointers; an error that is no exception comes from a null pointer. -/
theorem readFuncs_run (fuel : Nat) (h : Solid funcs) (n : Nat) (s : List Byte) :
    (∃ e, (readFuncs fuel funcs n).run s = .error e ∧ (e = .nullDereference → NullWithin n s)) ∨
    ∃ funcs' s', (readFuncs fuel funcs n).run s = .ok (funcs', s') ∧ Solid funcs' := by
  induction n generalizing funcs s with
  | zero => exact .inr ⟨funcs, s, rfl, h⟩
  | succ n ih =>
      rw [readFuncs_succ]
      rcases bind_run (FuncMeta.deserialize fuel) _ s with ⟨e, he, hrun⟩ | ⟨entry, s', hentry, hrun⟩
      · exact .inl ⟨e, hrun, fun hnull => absurd hnull (FunctionBytes.raises fuel s e he)⟩
      · rw [hrun]
        obtain ⟨input, rfl, hbytes⟩ := FunctionBytes.accepts fuel s entry s' hentry
        rcases setFunc_cases h hbytes with ⟨hn, hset⟩ | ⟨hn, funcs', hset, hsolid⟩
        · rw [hset]
          exact .inl ⟨_, rfl, fun _ => ⟨[], input, s', rfl, Nat.succ_pos n, fun p hp => absurd hp List.not_mem_nil, entry,
            hbytes, hn⟩⟩
        · rw [hset]
          rcases ih hsolid s' with ⟨e, he, hnull⟩ | hok
          · exact .inl ⟨e, he, fun h => (hnull h).cons hbytes hn⟩
          · exact .inr hok

/-- A null pointer is followed when the function is stored. -/
theorem NullWithin.readFuncs (h : NullWithin n s) (hs : Solid funcs) (hf : s.length ≤ fuel) :
    (readFuncs fuel funcs n).run s = .error .nullDereference := by
  obtain ⟨before, part, rest, rfl, hlen, hbefore, entry, hpart, hn⟩ := h
  induction before generalizing funcs n with
  | nil =>
      cases n with
      | zero => cases hlen
      | succ n =>
          simp only [List.flatten_nil, List.nil_append, List.length_append] at hf
          rw [readFuncs_succ, StateT.run_bind, List.flatten_nil, List.nil_append, hpart.reads (by omega) rest]
          rcases setFunc_cases hs hpart with ⟨-, hset⟩ | ⟨hn', -⟩
          · rw [ok_bind, hset]
            rfl
          · rw [hn] at hn'
            cases hn'
  | cons p before ih =>
      cases n with
      | zero => cases hlen
      | succ n =>
          obtain ⟨entry', hentry', hn'⟩ := hbefore p List.mem_cons_self
          simp only [List.flatten_cons, List.append_assoc, List.length_append] at hf ⊢
          rw [readFuncs_succ, StateT.run_bind, hentry'.reads (by omega)]
          rcases setFunc_cases hs hentry' with ⟨hnull, -⟩ | ⟨-, funcs', hset, hsolid⟩
          · rw [hn'] at hnull
            cases hnull
          · rw [ok_bind, hset]
            exact ih hsolid (by simp only [List.length_append]; omega) (Nat.lt_of_succ_lt_succ hlen)
              fun q hq => hbefore q (List.mem_cons_of_mem _ hq)

end FileMeta

/-! ## Reading ends -/

namespace LeechFile

variable {bytes : List Byte}

theorem deserializeNum_consumes (size : Nat) : Consumes (deserializeNum size) fun _ => size :=
  (deserializeNum_accepts size).consumes fun _ _ h => (h.2 ▸ length_toBytes size _).ge

theorem deserializeString_consumes (size : Nat) : Consumes (deserializeString size) fun _ => 0 :=
  (deserializeString_accepts size).consumes fun _ _ _ => Nat.zero_le _

theorem deserializeObj_consumes (fuel : Nat) : Consumes (deserializeObj fuel) LeechObj.elements :=
  (deserializeObj_accepts fuel).consumes fun _ _ h => h.elements_le

theorem lift_consumes {α : Type} (x : Except Error α) : Consumes (liftM x : Istream α) fun _ => 0 := by
  intro s a s' h
  cases x with
  | error e => cases h
  | ok b =>
      cases h
      exact (Nat.zero_add _).le

theorem consumes_zero {α : Type} {d : Istream α} {size : α → Nat} (h : Consumes d size) : Consumes d fun _ => 0 :=
  fun s a s' hs => (Nat.add_le_add_right (Nat.zero_le _) _).trans (h s a s' hs)

theorem deserializeVal_agree {reader reader' : Istream LeechObj} {k : Nat} (hc : Consumes reader fun _ => 0)
    (h : Agree k reader reader') (type : Nat) : Agree k (deserializeVal reader type) (deserializeVal reader' type) := by
  rw [deserializeVal, deserializeVal]
  split
  · exact .refl _
  · split
    · exact .refl _
    · split
      · exact .refl _
      · split
        · have hrest : Agree (k - 8) reader reader' := fun s hs => h s (hs.trans (Nat.sub_le k 8))
          exact (Agree.refl _).bind (deserializeNum_consumes 8) fun len =>
            (hrest.many hc len).bind (hc.many len) fun tuple => .refl _
        · exact .refl _

/-- The depth of an object is bounded by the number of bytes that are left. -/
theorem deserializeObj_agree {k : Nat} : ∀ {fuel fuel' : Nat}, k ≤ fuel → k ≤ fuel' →
    Agree k (deserializeObj fuel) (deserializeObj fuel') := by
  induction k with
  | zero =>
      have hempty : ∀ fuel, (deserializeObj fuel).run [] = .error (.runtime_error "Can't read number from istream") := by
        intro fuel
        cases fuel with
        | zero => rfl
        | succ fuel => rfl
      intro fuel fuel' _ _ s hs
      obtain rfl := List.eq_nil_of_length_eq_zero (Nat.le_zero.mp hs)
      rw [hempty, hempty]
  | succ k ih =>
      intro fuel fuel' h h'
      obtain ⟨fuel, rfl⟩ := Nat.exists_eq_succ_of_ne_zero (Nat.ne_zero_of_lt h)
      obtain ⟨fuel', rfl⟩ := Nat.exists_eq_succ_of_ne_zero (Nat.ne_zero_of_lt h')
      have hrec : Agree k (deserializeObj fuel) (deserializeObj fuel') :=
        ih (Nat.le_of_succ_le_succ h) (Nat.le_of_succ_le_succ h')
      exact (Agree.refl _).bind (deserializeNum_consumes 1) fun type =>
        deserializeVal_agree (consumes_zero (deserializeObj_consumes fuel)) hrec type

theorem instruction_consumes : Consumes Instruction.deserialize fun _ => 1 + (1 + 0) :=
  (deserializeNum_consumes 1).bind fun _ => (deserializeNum_consumes 1).bind fun _ => lift_consumes _

theorem function_agree {k fuel fuel' : Nat} (h : k ≤ fuel) (h' : k ≤ fuel') :
    Agree k (FuncMeta.deserialize fuel) (FuncMeta.deserialize fuel') := by
  have hnum := consumes_zero (deserializeNum_consumes 8)
  have hobj := consumes_zero (deserializeObj_consumes fuel)
  rw [FuncMeta.deserialize, FuncMeta.deserialize]
  exact (Agree.refl _).bind hnum fun nameLen => (Agree.refl _).bind (deserializeString_consumes nameLen) fun name =>
    (Agree.refl _).bind hnum fun addr => (Agree.refl _).bind hnum fun argNum => (Agree.refl _).bind hnum fun cstNum =>
    ((deserializeObj_agree h h').many hobj cstNum).bind (hobj.many cstNum) fun cstPool => .refl _

theorem function_consumes (fuel : Nat) : Consumes (FuncMeta.deserialize fuel) fun entry => entry.2.elements :=
  (FunctionBytes.accepts fuel).consumes fun _ _ h => h.elements_le

theorem readFuncs_consumes (fuel : Nat) (funcs : Funcs) (n : Nat) :
    Consumes (FileMeta.readFuncs fuel funcs n) fun _ => 0 := by
  induction n generalizing funcs with
  | zero => exact .pure funcs
  | succ n ih =>
      rw [FileMeta.readFuncs_succ]
      exact (consumes_zero (function_consumes fuel)).bind fun entry => (lift_consumes _).bind fun funcs => ih funcs

theorem readFuncs_agree {k fuel fuel' : Nat} (h : k ≤ fuel) (h' : k ≤ fuel') (funcs : Funcs) (n : Nat) :
    Agree k (FileMeta.readFuncs fuel funcs n) (FileMeta.readFuncs fuel' funcs n) := by
  induction n generalizing funcs with
  | zero => exact .refl _
  | succ n ih =>
      rw [FileMeta.readFuncs_succ, FileMeta.readFuncs_succ]
      exact (function_agree h h').bind (consumes_zero (function_consumes fuel)) fun entry =>
        (Agree.refl _).bind (lift_consumes _) fun funcs => ih funcs

theorem fileMeta_agree {k fuel fuel' : Nat} (h : k ≤ fuel) (h' : k ≤ fuel') :
    Agree k (FileMeta.deserialize fuel) (FileMeta.deserialize fuel') := by
  rw [FileMeta.deserialize, FileMeta.deserialize]
  exact (Agree.refl _).bind (consumes_zero (deserializeNum_consumes 8)) fun fnum =>
    (readFuncs_agree h h' ∅ fnum).bind (readFuncs_consumes fuel ∅ fnum) fun funcs => .refl _

theorem fileMeta_consumes (fuel : Nat) : Consumes (FileMeta.deserialize fuel) fun _ => 0 := by
  rw [FileMeta.deserialize]
  exact (consumes_zero (deserializeNum_consumes 8)).bind fun fnum => (readFuncs_consumes fuel ∅ fnum).bind fun funcs =>
    (lift_consumes _).bind fun copies => .pure _

theorem deserializeFrom_agree {k fuel fuel' : Nat} (h : k ≤ fuel) (h' : k ≤ fuel') :
    Agree k (deserializeFrom fuel) (deserializeFrom fuel') := by
  rw [deserializeFrom, deserializeFrom]
  refine (Agree.refl _).bind (deserializeString_consumes _) fun magic => ?_
  split
  · exact (fileMeta_agree h h').bind (fileMeta_consumes fuel) fun fileMeta => .refl _
  · exact .refl _

theorem ends (bytes : List Byte) : Ends bytes where
  objects := deserializeObj_consumes
  names := readString_accepts.consumes fun _ _ h => by
    rw [h.2, serializeString, List.length_append, length_toBytes]
    omega
  functions := function_consumes
  instructions s inst s' h := (Nat.add_le_add_right (Nat.le_add_right 1 1) _).trans (instruction_consumes s inst s' h)
  depth fuel h := by
    rw [deserialize, StateT.run'_eq, StateT.run'_eq, deserializeFrom_agree h (Nat.le_refl _) bytes (Nat.le_refl _)]

/-! ## What reading comes to -/

theorem make_cases (opcode arg : Byte) : (∃ e, Instruction.make opcode arg = .error e ∧ Exceptional e) ∨
    ∃ inst, Instruction.make opcode arg = .ok inst ∧ inst.opcode ≠ .UNKNOWN := by
  rw [Instruction.make]
  split
  · exact .inl ⟨_, rfl, Error.noConfusion⟩
  · next op hne _ => exact .inr ⟨_, rfl, hne⟩
  · exact .inl ⟨_, rfl, Error.noConfusion⟩

theorem instruction_accepts : Accepts Instruction.deserialize fun _ inst => inst.opcode ≠ .UNKNOWN := by
  refine (deserializeNum_accepts 1).bind fun _ opcodeVal _ => (deserializeNum_accepts 1).bind fun _ arg _ => ?_
  intro s inst s' h
  rcases make_cases (BitVec.ofNat 8 opcodeVal) (BitVec.ofNat 8 arg) with ⟨e, he, -⟩ | ⟨inst', hinst, hop⟩
  · rw [he] at h
    cases h
  · rw [hinst] at h
    cases h
    exact ⟨[], rfl, hop⟩

theorem instruction_raises : Raises Instruction.deserialize Exceptional := by
  refine (deserializeNum_raises 1).bind fun opcodeVal => (deserializeNum_raises 1).bind fun arg => ?_
  intro s e h
  rcases make_cases (BitVec.ofNat 8 opcodeVal) (BitVec.ofNat 8 arg) with ⟨e', he, hexc⟩ | ⟨inst, hinst, -⟩
  · rw [he] at h
    cases h
    exact hexc
  · rw [hinst] at h
    cases h

/-- The functions of the file: they have no null pointers, or there is an error, which is an exception unless there is a function
with a null pointer. -/
theorem fileMeta_run (fuel : Nat) (s : List Byte) :
    (∃ e, (FileMeta.deserialize fuel).run s = .error e ∧ (e = .nullDereference →
      ∃ fnum s', s = toBytes 8 fnum ++ s' ∧ fnum < 2 ^ 64 ∧ FileMeta.NullWithin fnum s')) ∨
    ∃ fileMeta s', (FileMeta.deserialize fuel).run s = .ok (fileMeta, s') ∧ FileMeta.Solid fileMeta.funcs := by
  rw [FileMeta.deserialize]
  rcases bind_run (deserializeNum 8) _ s with ⟨e, he, hrun⟩ | ⟨fnum, s', hnum, hrun⟩
  · exact .inl ⟨e, hrun, fun hnull => absurd hnull (deserializeNum_raises 8 s e he)⟩
  · rw [hrun, StateT.run_bind]
    obtain ⟨input, rfl, hlt, rfl⟩ := deserializeNum_accepts_size s fnum s' hnum
    rcases FileMeta.readFuncs_run fuel FileMeta.Solid.empty fnum s' with ⟨e, he, hnull⟩ | ⟨funcs, s'', hok, hsolid⟩
    · rw [he]
      exact .inl ⟨e, rfl, fun h => ⟨fnum, s', rfl, hlt, hnull h⟩⟩
    · obtain ⟨copies, hcopies, hsolid'⟩ := FileMeta.copyFuncs_solid hsolid
      rw [hok, ok_bind, hcopies]
      exact .inr ⟨_, s'', rfl, hsolid'⟩

theorem copiesNull_iff : CopiesNull bytes ↔
    ∃ fnum s, bytes = theLEECH ++ (toBytes 8 fnum ++ s) ∧ fnum < 2 ^ 64 ∧ FileMeta.NullWithin fnum s := by
  constructor
  · rintro ⟨fnum, before, part, rest, rfl, hlt, hlen, hbefore, hpart⟩
    exact ⟨fnum, _, rfl, hlt, before, part, rest, rfl, hlen, hbefore, hpart⟩
  · rintro ⟨fnum, s, rfl, hlt, before, part, rest, rfl, hlen, hbefore, hpart⟩
    exact ⟨fnum, before, part, rest, rfl, hlt, hlen, hbefore, hpart⟩

theorem deserialize_cases (bytes : List Byte) :
    (∃ e, deserialize bytes = .error e ∧ (e = .nullDereference → CopiesNull bytes)) ∨
    ∃ file, deserialize bytes = .ok file ∧ FileMeta.Solid file.fileMeta.funcs ∧ ∀ inst ∈ file.code, inst.opcode ≠ .UNKNOWN := by
  rw [deserialize, StateT.run'_eq, deserializeFrom]
  rcases bind_run (deserializeString theLEECH.length) _ bytes with ⟨e, he, hrun⟩ | ⟨magic, s, hmagic, hrun⟩
  · rw [hrun]
    exact .inl ⟨e, rfl, fun hnull => absurd hnull (deserializeString_raises _ _ e he)⟩
  · rw [hrun]
    obtain ⟨_, rfl, rfl, -⟩ := deserializeString_accepts _ bytes magic s hmagic
    split
    · next hm =>
        subst hm
        rcases fileMeta_run (theLEECH ++ s).length s with ⟨e, he, hnull⟩ | ⟨fileMeta, s', hok, hsolid⟩
        · rw [StateT.run_bind, he]
          refine .inl ⟨e, rfl, fun h => copiesNull_iff.mpr ?_⟩
          obtain ⟨fnum, s', rfl, hlt, hnull⟩ := hnull h
          exact ⟨fnum, s', rfl, hlt, hnull⟩
        · rw [StateT.run_bind, hok, ok_bind]
          rcases bind_run (deserializeNum 8) _ s' with ⟨e, he, hrun⟩ | ⟨instNum, s₁, -, hrun⟩
          · rw [hrun]
            exact .inl ⟨e, rfl, fun h => absurd h (deserializeNum_raises 8 s' e he)⟩
          · rw [hrun]
            rcases bind_run (readMany Instruction.deserialize instNum) _ s₁ with ⟨e, he, hrun⟩ | ⟨code, s₂, hcode, hrun⟩
            · rw [hrun]
              exact .inl ⟨e, rfl, fun h => absurd h (instruction_raises.many instNum s₁ e he)⟩
            · obtain ⟨copies, hcopies, hcopied⟩ := FileMeta.copyFuncs_solid hsolid
              obtain ⟨_, -, parts, -, hparts, -, rfl⟩ := instruction_accepts.many instNum s₁ code s₂ hcode
              rw [hrun, hcopies]
              refine .inr ⟨_, rfl, hcopied, fun inst hinst => ?_⟩
              obtain ⟨p, hp, rfl⟩ := List.mem_map.mp hinst
              exact hparts p hp
    · exact .inl ⟨_, rfl, fun h => Error.noConfusion h⟩

/-- A null pointer is followed when there is one to copy. -/
theorem CopiesNull.deserialize (h : CopiesNull bytes) : deserialize bytes = .error .nullDereference := by
  obtain ⟨fnum, s, rfl, hlt, hnull⟩ := copiesNull_iff.mp h
  rw [LeechFile.deserialize, StateT.run'_eq, deserializeFrom, StateT.run_bind, deserializeString_reads theLEECH]
  have hlen : s.length ≤ (theLEECH ++ (toBytes 8 fnum ++ s)).length := by
    simp only [List.length_append]
    omega
  rw [ok_bind, if_pos rfl, StateT.run_bind, FileMeta.deserialize, StateT.run_bind, deserializeNum_size hlt, ok_bind,
    StateT.run_bind, hnull.readFuncs FileMeta.Solid.empty hlen]
  rfl

/-- Reading a file fails cleanly exactly when there is no constant of an unknown type in a function that is read to its end. -/
theorem failsCleanly_iff (bytes : List Byte) : FailsCleanly bytes ↔ ¬ CopiesNull bytes := by
  constructor
  · exact fun h hnull => h.raises _ hnull.deserialize rfl
  · intro hnull
    rcases deserialize_cases bytes with ⟨e, he, hcopies⟩ | ⟨file, hok, hsolid, hcode⟩
    · refine ⟨fun e' he' h => ?_, fun file hfile => ?_, fun file hfile => ?_, ends bytes⟩
      · obtain rfl := Except.error.inj (he.symm.trans he')
        exact hnull (hcopies h)
      · rw [he] at hfile
        cases hfile
      · rw [he] at hfile
        cases hfile
    · refine ⟨fun e he => ?_, fun file' hfile entry hentry => ?_, fun file' hfile => ?_, ends bytes⟩
      · rw [hok] at he
        cases he
      · obtain rfl := Except.ok.inj (hok.symm.trans hfile)
        exact (hsolid entry hentry).hasNull
      · obtain rfl := Except.ok.inj (hok.symm.trans hfile)
        exact hcode

/-- A file with one function, which has a `None` as its constant, as it is written. -/
def noneConstant : List Byte :=
  theLEECH ++ (toBytes 8 1 ++ (toBytes 8 0 ++ (toBytes 8 0 ++ (toBytes 8 0 ++ (toBytes 8 1 ++
    (ValueType.None.toUnderlying :: (toBytes 8 0 ++ toBytes 8 0)))))))

theorem noneConstant_not_clean : ¬ FailsCleanly noneConstant := by
  have hcst : ∀ p ∈ [([ValueType.None.toUnderlying], LeechObj.nullptr)], ConstantBytes p.1 p.2 := by
    intro p hp
    obtain rfl := List.mem_singleton.mp hp
    exact .unknown (by decide)
  have hfunction := @FunctionBytes.intro [] 0 0 [([ValueType.None.toUnderlying], .nullptr)] [] (by decide) (by decide) hcst
    (by decide) fun n hn => absurd hn List.not_mem_nil
  have hnull : CopiesNull noneConstant :=
    ⟨1, [], _, toBytes 8 0, rfl, by decide, Nat.one_pos, fun p hp => absurd hp List.not_mem_nil, _, hfunction, rfl⟩
  exact fun h => h.raises _ hnull.deserialize rfl

end LeechFile

end CompilerLab.Leech
