import CompilerLab.Leech.Lemmas.Serialize

/-!
# Files that are written and read

Copies of functions lose the number of arguments. A file that is read has been copied more than once.
-/

namespace CompilerLab.Leech

open Lib LeechObj

/-! ## Functions -/

namespace FuncMeta

/-- The constants are what the machine has constants of, and a `std::size_t` holds every size. -/
structure WellFormed (name : Str) (fm : FuncMeta) : Prop where
  name : name.length < 2 ^ 64
  constants : ∀ c ∈ fm.cstPool, c.Constant
  cstNum : fm.cstPool.length < 2 ^ 64
  nameNum : fm.names.length < 2 ^ 64
  names : ∀ n ∈ fm.names, n.length < 2 ^ 64

/-- There is a `None` among the constants. -/
def hasNone (fm : FuncMeta) : Bool := fm.cstPool.any LeechObj.hasNone

/-- What `deserialize` gives for a function. -/
def readBack (fm : FuncMeta) : FuncMeta := { fm with cstPool := fm.cstPool.map LeechObj.readBack }

/-- What is left of a function in a copy. -/
def copied (fm : FuncMeta) : FuncMeta := { fm with argNum := 0 }

variable {name : Str} {fm : FuncMeta}

theorem clones_self (h : ∀ c ∈ fm.cstPool, c.Constant) (hn : fm.hasNone = false) :
    fm.readBack = fm ∧ fm.clones = .ok fm.cstPool := by
  rw [hasNone, List.any_eq_false] at hn
  have hself : ∀ c ∈ fm.cstPool, c.readBack = c ∧ ∀ heap, c.clone.run heap = .ok (c, heap) :=
    fun c hc => (h c hc).clone_self (Bool.eq_false_iff.mpr (hn c hc))
  refine ⟨?_, ?_⟩
  · rw [readBack, List.map_congr_left fun c hc => (hself c hc).1, List.map_id']
  · have hrun := cloneAll_self (fun c hc => (hself c hc).2) []
    rw [clones, StateT.run'_eq, hrun]
    rfl

theorem clones_error (h : ∀ c ∈ fm.cstPool, c.Constant) (hn : fm.hasNone = true) : ∃ e, fm.readBack.clones = .error e := by
  rw [hasNone, List.any_eq_true] at hn
  obtain ⟨c, hc, hnc⟩ := hn
  obtain ⟨e, he⟩ := cloneAll_error (List.mem_map_of_mem (f := LeechObj.readBack) hc) ((h c hc).clone_error hnc) []
  refine ⟨e, ?_⟩
  rw [clones, StateT.run'_eq, readBack, he]
  rfl

theorem copy_eq (h : ∀ c ∈ fm.cstPool, c.Constant) (hn : fm.hasNone = false) : fm.copy = .ok fm.copied := by
  rw [copy, (clones_self h hn).2]
  rfl

theorem names_reads {names : List Str} (h : ∀ n ∈ names, n.length < 2 ^ 64) :
    Reads (readMany (do deserializeString (← deserializeNum 8)) names.length) (names.map serializeString).flatten names := by
  refine Reads.many ?_
  rw [List.forall₂_map_right_iff, List.forall₂_same]
  exact fun n hn => readString_reads (h n hn)

/-- A function is written, and read back with its constants as they are read. -/
theorem WellFormed.reads (h : WellFormed name fm) : ∃ bytes, fm.serialize = .ok bytes ∧
    ∀ fuel, bytes.length ≤ fuel → Reads (deserialize fuel) (serializeString name ++ bytes) (name, fm.readBack) := by
  obtain ⟨parts, hparts, hall⟩ := serializeAll_ok fun c hc => (h.constants c hc).reads.imp fun _ hc => hc.1
  refine ⟨_, by rw [serialize, hall]; rfl, fun fuel hf => ?_⟩
  have hcsts : List.Forall₂ (fun c bytes => Reads (deserializeObj fuel) bytes c) fm.readBack.cstPool parts := by
    refine forall₂_reads hparts (fun c hc bytes hbytes hle => ?_) ?_
    · obtain ⟨bytes', hbytes', hread⟩ := (h.constants c hc).reads
      obtain rfl := Except.ok.inj (hbytes.symm.trans hbytes')
      exact hread fuel hle
    · simp only [List.length_append] at hf
      omega
  have hpool := Reads.many hcsts
  rw [readBack, List.length_map] at hpool
  simp only [serializeString, List.append_assoc]
  unfold deserialize
  refine (deserializeNum_size h.name).bind ?_
  refine (deserializeString_reads name).bind ?_
  refine (deserializeNum_word fm.addr).bind ?_
  refine (deserializeNum_word fm.argNum).bind ?_
  refine (deserializeNum_size h.cstNum).bind ?_
  refine hpool.bind ?_
  refine (deserializeNum_size h.nameNum).bind ?_
  rw [← List.append_nil (List.flatten _)]
  refine (names_reads h.names).bind ?_
  rw [BitVec.ofNat_toNat, BitVec.ofNat_toNat, BitVec.setWidth_eq, BitVec.setWidth_eq]
  exact Reads.pure _

theorem assign_eq (h : ∀ c ∈ fm.cstPool, c.Constant) (hn : fm.hasNone = false) :
    ({} : FuncMeta).assign fm.readBack = .ok fm.copied := by
  obtain ⟨hread, hclones⟩ := clones_self h hn
  rw [hread, assign, hclones]
  rfl

end FuncMeta

/-! ## Maps of functions -/

namespace FileMeta

variable {fuel : Nat} {acc funcs : Funcs} {es : List (Sigma fun _ : Str => FuncMeta)} {parts : List (List Byte)}

/-- An entry of a copy of a map. -/
def copiedEntry (e : Sigma fun _ : Str => FuncMeta) : Sigma fun _ : Str => FuncMeta := ⟨e.1, e.2.copied⟩

/-- What is written for an entry. -/
def Written (e : Sigma fun _ : Str => FuncMeta) (part : List Byte) : Prop :=
  ∃ bytes, e.2.serialize = .ok bytes ∧ part = serializeString e.1 ++ bytes

theorem lift_reads {α : Type} {x : Except Error α} {a : α} (h : x = .ok a) : Reads (liftM x : Istream α) [] a := by
  subst h
  exact fun _ => rfl

theorem lift_rejects {α : Type} {x : Except Error α} {e : Error} (h : x = .error e) : Rejects (liftM x : Istream α) [] := by
  subst h
  intro rest a s hok
  cases hok

/-- The insertion of a new function keeps the other new functions new. -/
theorem fresh_insert {e : Sigma fun _ : Str => FuncMeta} {fm : FuncMeta} (hnodup : (e :: es).NodupKeys)
    (hfresh : ∀ e' ∈ e :: es, e'.1 ∉ acc) : ∀ e' ∈ es, e'.1 ∉ acc.insert e.1 fm := by
  intro e' he' hmem
  rcases (AList.mem_insert acc).mp hmem with heq | hmem
  · rw [List.nodupKeys_cons] at hnodup
    exact hnodup.1 (heq ▸ List.mem_keys_of_mem he')
  · exact hfresh e' (List.mem_cons_of_mem _ he') hmem

theorem copyFuncs_from (hcopy : ∀ e ∈ es, e.2.copy = .ok e.2.copied) (hnodup : es.NodupKeys)
    (hfresh : ∀ e ∈ es, e.1 ∉ acc) : ∃ funcs : Funcs, funcs.entries = (es.map copiedEntry).reverse ++ acc.entries ∧
      es.foldlM (fun (copies : Funcs) entry => do return copies.insert entry.1 (← entry.2.copy)) acc = .ok funcs := by
  induction es generalizing acc with
  | nil => exact ⟨acc, rfl, rfl⟩
  | cons e es ih =>
      have hnew : e.1 ∉ acc := hfresh e List.mem_cons_self
      have hrest : ∀ e' ∈ es, e'.1 ∉ acc.insert e.1 e.2.copied := fresh_insert hnodup hfresh
      obtain ⟨funcs, hentries, hfold⟩ := ih (fun e' he' => hcopy e' (List.mem_cons_of_mem _ he'))
        (List.nodupKeys_cons.mp hnodup).2 hrest
      refine ⟨funcs, ?_, ?_⟩
      · rw [hentries, AList.entries_insert_of_notMem hnew, List.map_cons, List.reverse_cons, List.append_assoc]
        rfl
      · rw [List.foldlM_cons, hcopy e List.mem_cons_self]
        exact hfold

theorem copyFuncs_eq (hcopy : ∀ e ∈ funcs.entries, e.2.copy = .ok e.2.copied) : ∃ copies : Funcs,
    copies.entries = (funcs.entries.map copiedEntry).reverse ∧ copyFuncs funcs = .ok copies := by
  have hempty : ∀ e ∈ funcs.entries, e.1 ∉ (∅ : Funcs) := fun _ _ => AList.notMem_empty _
  obtain ⟨copies, hentries, hfold⟩ := copyFuncs_from hcopy funcs.nodupKeys hempty
  exact ⟨copies, hentries.trans (List.append_nil _), hfold⟩

theorem setFunc_eq {e : Sigma fun _ : Str => FuncMeta} (h : ∀ c ∈ e.2.cstPool, c.Constant) (hn : e.2.hasNone = false)
    (hnew : e.1 ∉ acc) : setFunc acc (e.1, e.2.readBack) = .ok (acc.insert e.1 e.2.copied) := by
  rw [setFunc, AList.lookup_eq_none.mpr hnew, Option.getD_none, FuncMeta.assign_eq h hn]
  rfl

theorem setFunc_error {e : Sigma fun _ : Str => FuncMeta} (h : ∀ c ∈ e.2.cstPool, c.Constant) (hn : e.2.hasNone = true) :
    ∃ err, setFunc acc (e.1, e.2.readBack) = .error err := by
  obtain ⟨err, herr⟩ := FuncMeta.clones_error h hn
  refine ⟨err, ?_⟩
  rw [setFunc, FuncMeta.assign, herr]
  rfl

theorem written_reads {e : Sigma fun _ : Str => FuncMeta} {part : List Byte} (h : FuncMeta.WellFormed e.1 e.2)
    (hw : Written e part) (hf : part.length ≤ fuel) : Reads (FuncMeta.deserialize fuel) part (e.1, e.2.readBack) := by
  obtain ⟨bytes, hbytes, rfl⟩ := hw
  obtain ⟨bytes', hbytes', hread⟩ := h.reads
  obtain rfl := Except.ok.inj (hbytes.symm.trans hbytes')
  exact hread fuel (by rw [List.length_append] at hf; omega)

/-- Functions without a `None` are all read. -/
theorem readFuncs_reads (hparts : List.Forall₂ Written es parts) (hwf : ∀ e ∈ es, FuncMeta.WellFormed e.1 e.2)
    (hnone : ∀ e ∈ es, e.2.hasNone = false) (hnodup : es.NodupKeys) (hfresh : ∀ e ∈ es, e.1 ∉ acc)
    (hlen : parts.flatten.length ≤ fuel) : ∃ funcs : Funcs, funcs.entries = (es.map copiedEntry).reverse ++ acc.entries ∧
      Reads (readFuncs fuel acc es.length) parts.flatten funcs := by
  induction hparts generalizing acc with
  | nil => exact ⟨acc, rfl, Reads.pure acc⟩
  | @cons e part es parts hw _ ih =>
      rw [List.flatten_cons, List.length_append] at hlen
      have hnew : e.1 ∉ acc := hfresh e List.mem_cons_self
      have hset := setFunc_eq (hwf e List.mem_cons_self).constants (hnone e List.mem_cons_self) hnew
      have hrest : ∀ e' ∈ es, e'.1 ∉ acc.insert e.1 e.2.copied := fresh_insert hnodup hfresh
      obtain ⟨funcs, hentries, hread⟩ := ih (fun e' he' => hwf e' (List.mem_cons_of_mem _ he'))
        (fun e' he' => hnone e' (List.mem_cons_of_mem _ he')) (List.nodupKeys_cons.mp hnodup).2 hrest (by omega)
      refine ⟨funcs, ?_, ?_⟩
      · rw [hentries, AList.entries_insert_of_notMem hnew, List.map_cons, List.reverse_cons, List.append_assoc]
        rfl
      · exact (written_reads (hwf e List.mem_cons_self) hw (by omega)).bind ((lift_reads hset).bind hread)

/-- A function with a `None` makes the whole map unreadable. -/
theorem readFuncs_rejects (hparts : List.Forall₂ Written es parts) (hwf : ∀ e ∈ es, FuncMeta.WellFormed e.1 e.2)
    (hnone : ∃ e ∈ es, e.2.hasNone = true) (hnodup : es.NodupKeys) (hfresh : ∀ e ∈ es, e.1 ∉ acc)
    (hlen : parts.flatten.length ≤ fuel) : Rejects (readFuncs fuel acc es.length) parts.flatten := by
  induction hparts generalizing acc with
  | nil =>
      obtain ⟨e, he, -⟩ := hnone
      cases he
  | @cons e part es parts hw _ ih =>
      rw [List.flatten_cons, List.length_append] at hlen
      have hhead := written_reads (hwf e List.mem_cons_self) hw (by omega : part.length ≤ fuel)
      refine Rejects.right hhead ?_
      cases hn : e.2.hasNone with
      | true =>
          obtain ⟨err, herr⟩ : ∃ err, setFunc acc (e.1, e.2.readBack) = .error err :=
            setFunc_error (hwf e List.mem_cons_self).constants hn
          rw [← List.nil_append (List.flatten _)]
          exact ((lift_rejects herr).left).append _
      | false =>
          have hset := setFunc_eq (hwf e List.mem_cons_self).constants hn (hfresh e List.mem_cons_self)
          have hrest : ∃ e' ∈ es, e'.2.hasNone = true := by
            obtain ⟨e', he', hn'⟩ := hnone
            cases he' with
            | head => simp [hn] at hn'
            | tail _ he' => exact ⟨e', he', hn'⟩
          rw [← List.nil_append (List.flatten _)]
          exact Rejects.right (lift_reads hset) (ih (fun e' he' => hwf e' (List.mem_cons_of_mem _ he')) hrest
            (List.nodupKeys_cons.mp hnodup).2 (fresh_insert hnodup hfresh) (by omega))

end FileMeta

end CompilerLab.Leech
