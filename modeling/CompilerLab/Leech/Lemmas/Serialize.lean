import CompilerLab.Leech.LeechFile

/-!
# What is read back

A constant is read back as it was written, but for `None`, which is read as a null pointer. The copies made of the constants
follow the pointers, so a file with a `None` is not read at all.
-/

namespace CompilerLab.Leech

open Lib

@[simp] theorem ok_bind {α β : Type} (a : α) (f : α → Except Error β) : Except.ok a >>= f = f a := rfl

@[simp] theorem error_bind {α β : Type} (e : Error) (f : α → Except Error β) : Except.error e >>= f = .error e := rfl

/-! ## Numbers and strings -/

theorem deserializeNum_reads {size n : Nat} (h : n < 256 ^ size) : Reads (deserializeNum size) (toBytes size n) n := by
  have hread := (readExactly_reads (Error.runtime_error "Can't read number from istream") (toBytes size n)).map ofBytes
  rwa [length_toBytes, ofBytes_toBytes_of_lt h] at hread

theorem deserializeNum_size {n : Nat} (h : n < 2 ^ 64) : Reads (deserializeNum 8) (toBytes 8 n) n :=
  deserializeNum_reads (by omega)

theorem deserializeNum_byte (b : Byte) : Reads (deserializeNum 1) (toBytes 1 b.toNat) b.toNat :=
  deserializeNum_reads (by have := b.isLt; omega)

theorem deserializeNum_word (v : BitVec 64) : Reads (deserializeNum 8) (toBytes 8 v.toNat) v.toNat :=
  deserializeNum_size v.isLt

theorem deserializeString_reads (s : Str) : Reads (deserializeString s.length) s s := readExactly_reads _ s

theorem readString_reads {s : Str} (h : s.length < 2 ^ 64) :
    Reads (do deserializeString (← deserializeNum 8)) (serializeString s) s :=
  (deserializeNum_size h).bind (deserializeString_reads s)

/-- The type of an object is read, and then the rest of it. -/
theorem deserializeObj_reads {type : ValueType} {fuel : Nat} {input : List Byte} {o : LeechObj}
    (h : Reads (deserializeVal (deserializeObj fuel) type.ctorIdx) input o) :
    Reads (deserializeObj (fuel + 1)) (type.toUnderlying :: input) o := by
  have htype : toBytes 1 type.toUnderlying.toNat = [type.toUnderlying] := by cases type <;> rfl
  have hidx : type.toUnderlying.toNat = type.ctorIdx := by cases type <;> rfl
  have hread := deserializeNum_byte type.toUnderlying
  rw [htype, hidx] at hread
  exact hread.bind h

theorem deserializeObj_int (fuel : Nat) (v : BitVec 64) : Reads (deserializeObj (fuel + 1))
    (serializeTypeNSize .Integer 8 ++ toBytes 8 v.toNat) (.IntObj v) := by
  have hread : Reads (deserializeVal (deserializeObj fuel) ValueType.Integer.ctorIdx)
      (toBytes 8 8 ++ (toBytes 8 v.toNat ++ [])) (.IntObj (BitVec.ofNat 64 v.toNat)) :=
    (deserializeNum_size (by decide)).bind ((deserializeNum_word v).bind (Reads.pure _))
  rw [List.append_nil, BitVec.ofNat_toNat, BitVec.setWidth_eq] at hread
  exact deserializeObj_reads hread

theorem deserializeObj_float (fuel : Nat) (v : BitVec 64) : Reads (deserializeObj (fuel + 1))
    (serializeTypeNSize .Float 8 ++ toBytes 8 v.toNat) (.FloatObj v) := by
  have hread : Reads (deserializeVal (deserializeObj fuel) ValueType.Float.ctorIdx)
      (toBytes 8 8 ++ (toBytes 8 v.toNat ++ [])) (.FloatObj (BitVec.ofNat 64 v.toNat)) :=
    (deserializeNum_size (by decide)).bind ((deserializeNum_word v).bind (Reads.pure _))
  rw [List.append_nil, BitVec.ofNat_toNat, BitVec.setWidth_eq] at hread
  exact deserializeObj_reads hread

theorem deserializeObj_string (fuel : Nat) {s : Str} (h : s.length < 2 ^ 64) : Reads (deserializeObj (fuel + 1))
    (serializeTypeNSize .String s.length ++ s) (.StringObj s) := by
  have hread : Reads (deserializeVal (deserializeObj fuel) ValueType.String.ctorIdx)
      (toBytes 8 s.length ++ (s ++ [])) (.StringObj s) :=
    (deserializeNum_size h).bind ((deserializeString_reads s).bind (Reads.pure _))
  rw [List.append_nil] at hread
  exact deserializeObj_reads hread

theorem deserializeObj_tuple {fuel : Nat} {t : List LeechObj} {parts : List (List Byte)} (h : t.length < 2 ^ 64)
    (ht : List.Forall₂ (fun o bytes => Reads (deserializeObj fuel) bytes o) t parts) : Reads (deserializeObj (fuel + 1))
    (serializeTypeNSize .Tuple t.length ++ parts.flatten) (.TupleObj t) := by
  have hread : Reads (deserializeVal (deserializeObj fuel) ValueType.Tuple.ctorIdx)
      (toBytes 8 t.length ++ (parts.flatten ++ [])) (.TupleObj t) :=
    (deserializeNum_size h).bind ((Reads.many ht).bind (Reads.pure _))
  rw [List.append_nil] at hread
  exact deserializeObj_reads hread

theorem deserializeObj_none (fuel : Nat) : Reads (deserializeObj (fuel + 1)) (serializeTypeNSize .None 0) .nullptr :=
  @deserializeObj_reads .None fuel [] .nullptr (Reads.pure _)

/-! ## Constants -/

namespace LeechObj

/-- The object is built from integers, floats, strings, `None` and tuples, of sizes that a `std::size_t` holds. -/
inductive Constant : LeechObj → Prop where
  | none : Constant NoneObj
  | int (v : BitVec 64) : Constant (IntObj v)
  | float (v : BitVec 64) : Constant (FloatObj v)
  | string {s : Str} : s.length < 2 ^ 64 → Constant (StringObj s)
  | tuple {t : List LeechObj} : t.length < 2 ^ 64 → (∀ o ∈ t, Constant o) → Constant (TupleObj t)

mutual
/-- There is a `None` in the object. -/
def hasNone : LeechObj → Bool
  | NoneObj => true
  | TupleObj t => anyNone t
  | _ => false

def anyNone : List LeechObj → Bool
  | [] => false
  | o :: os => hasNone o || anyNone os
end

mutual
/-- What is read for an object. -/
def readBack : LeechObj → LeechObj
  | NoneObj => nullptr
  | TupleObj t => TupleObj (readAllBack t)
  | o => o

def readAllBack : List LeechObj → List LeechObj
  | [] => []
  | o :: os => readBack o :: readAllBack os
end

theorem anyNone_eq_any (os : List LeechObj) : anyNone os = os.any hasNone := by
  induction os with
  | nil => rfl
  | cons o os ih => rw [anyNone, ih, List.any_cons]

theorem readAllBack_eq_map (os : List LeechObj) : readAllBack os = os.map readBack := by
  induction os with
  | nil => rfl
  | cons o os ih => rw [readAllBack, ih, List.map_cons]

theorem serializeAll_ok {os : List LeechObj} (h : ∀ o ∈ os, ∃ bytes, o.serialize = .ok bytes) : ∃ parts : List (List Byte),
    List.Forall₂ (fun o bytes => o.serialize = .ok bytes) os parts ∧ serializeAll os = .ok parts.flatten := by
  induction os with
  | nil => exact ⟨[], .nil, rfl⟩
  | cons o os ih =>
      obtain ⟨bytes, hbytes⟩ := h o List.mem_cons_self
      obtain ⟨parts, hparts, hall⟩ := ih fun o' ho' => h o' (List.mem_cons_of_mem _ ho')
      refine ⟨bytes :: parts, .cons hbytes hparts, ?_⟩
      rw [serializeAll, hbytes, hall]
      rfl

theorem forall₂_reads {fuel : Nat} {os : List LeechObj} {parts : List (List Byte)}
    (hparts : List.Forall₂ (fun o bytes => o.serialize = .ok bytes) os parts)
    (h : ∀ o ∈ os, ∀ bytes, o.serialize = .ok bytes → bytes.length ≤ fuel → Reads (deserializeObj fuel) bytes o.readBack)
    (hlen : parts.flatten.length ≤ fuel) :
    List.Forall₂ (fun o bytes => Reads (deserializeObj fuel) bytes o) (os.map readBack) parts := by
  induction hparts with
  | nil => exact .nil
  | cons ho _ ih =>
      rw [List.flatten_cons, List.length_append] at hlen
      exact .cons (h _ List.mem_cons_self _ ho (by omega))
        (ih (fun o' ho' => h o' (List.mem_cons_of_mem _ ho')) (by omega))

/-- A constant is written, and read back by any reader that is given enough fuel. -/
theorem Constant.reads {o : LeechObj} (h : o.Constant) : ∃ bytes, o.serialize = .ok bytes ∧
    ∀ fuel, bytes.length ≤ fuel → Reads (deserializeObj fuel) bytes o.readBack := by
  induction h with
  | none =>
      refine ⟨_, rfl, fun fuel hf => ?_⟩
      cases fuel with
      | zero => simp [serializeTypeNSize] at hf
      | succ fuel => exact deserializeObj_none fuel
  | int v =>
      refine ⟨_, rfl, fun fuel hf => ?_⟩
      cases fuel with
      | zero => simp [serializeTypeNSize] at hf
      | succ fuel => exact deserializeObj_int fuel v
  | float v =>
      refine ⟨_, rfl, fun fuel hf => ?_⟩
      cases fuel with
      | zero => simp [serializeTypeNSize] at hf
      | succ fuel => exact deserializeObj_float fuel v
  | string hs =>
      refine ⟨_, rfl, fun fuel hf => ?_⟩
      cases fuel with
      | zero => simp [serializeTypeNSize] at hf
      | succ fuel => exact deserializeObj_string fuel hs
  | @tuple t hlen _ ih =>
      obtain ⟨parts, hparts, hall⟩ := serializeAll_ok fun o ho => (ih o ho).imp fun _ h => h.1
      refine ⟨serializeTypeNSize .Tuple t.length ++ parts.flatten, by rw [serialize, hall]; rfl, fun fuel hf => ?_⟩
      cases fuel with
      | zero => simp [serializeTypeNSize] at hf
      | succ fuel =>
          have hlen' : parts.flatten.length ≤ fuel := by
            simp only [serializeTypeNSize, ne_eq, reduceCtorEq, not_false_eq_true, if_true, List.cons_append,
              List.length_cons, List.length_append] at hf
            omega
          have hreads : List.Forall₂ (fun o bytes => Reads (deserializeObj fuel) bytes o) (t.map readBack) parts := by
            refine forall₂_reads hparts (fun o ho bytes hbytes hle => ?_) hlen'
            obtain ⟨bytes', hbytes', hread⟩ := ih o ho
            obtain rfl := Except.ok.inj (hbytes.symm.trans hbytes')
            exact hread fuel hle
          rw [← List.length_map (f := readBack)] at hlen ⊢
          rw [readBack, readAllBack_eq_map]
          exact deserializeObj_tuple hlen hreads

/-! ## Copies -/

theorem cloneAll_cons (o : LeechObj) (os : List LeechObj) (heap : Heap) : (cloneAll (o :: os)).run heap =
    o.clone.run heap >>= fun p => (cloneAll os).run p.2 >>= fun q => .ok (p.1 :: q.1, q.2) := by
  rw [cloneAll]
  simp only [StateT.run_bind, StateT.run_pure]
  rfl

theorem cloneAll_self {os : List LeechObj} (h : ∀ o ∈ os, ∀ heap, o.clone.run heap = .ok (o, heap)) (heap : Heap) :
    (cloneAll os).run heap = .ok (os, heap) := by
  induction os with
  | nil => rfl
  | cons o os ih =>
      rw [cloneAll_cons, h o List.mem_cons_self, ok_bind, ih fun o' ho' => h o' (List.mem_cons_of_mem _ ho')]
      rfl

/-- Without a `None`, what is read is what was written, and its copy is the same. -/
theorem Constant.clone_self {o : LeechObj} (h : o.Constant) (hn : o.hasNone = false) :
    o.readBack = o ∧ ∀ heap, o.clone.run heap = .ok (o, heap) := by
  induction h with
  | none => simp [hasNone] at hn
  | int v => exact ⟨rfl, fun _ => rfl⟩
  | float v => exact ⟨rfl, fun _ => rfl⟩
  | string _ => exact ⟨rfl, fun _ => rfl⟩
  | @tuple t _ _ ih =>
      rw [hasNone, anyNone_eq_any, List.any_eq_false] at hn
      have hself : ∀ o ∈ t, o.readBack = o ∧ ∀ heap, o.clone.run heap = .ok (o, heap) :=
        fun o ho => ih o ho (Bool.eq_false_iff.mpr (hn o ho))
      refine ⟨?_, fun heap => ?_⟩
      · rw [readBack, readAllBack_eq_map, List.map_congr_left fun o ho => (hself o ho).1, List.map_id']
      · rw [clone, StateT.run_bind, cloneAll_self (fun o ho => (hself o ho).2) heap]
        rfl

theorem cloneAll_error {os : List LeechObj} {o : LeechObj} (ho : o ∈ os) (h : ∀ heap, ∃ e, o.clone.run heap = .error e)
    (heap : Heap) : ∃ e, (cloneAll os).run heap = .error e := by
  induction os generalizing heap with
  | nil => cases ho
  | cons o' os ih =>
      rw [cloneAll_cons]
      cases hc : o'.clone.run heap with
      | error e => exact ⟨e, rfl⟩
      | ok p =>
          cases ho with
          | head =>
              obtain ⟨e, he⟩ := h heap
              rw [he] at hc
              cases hc
          | tail _ ho =>
              obtain ⟨e, he⟩ := ih ho p.2
              refine ⟨e, ?_⟩
              rw [ok_bind, he]
              rfl

/-- With a `None`, the copy of what is read follows a null pointer. -/
theorem Constant.clone_error {o : LeechObj} (h : o.Constant) (hn : o.hasNone = true) (heap : Heap) :
    ∃ e, o.readBack.clone.run heap = .error e := by
  induction h generalizing heap with
  | none => exact ⟨_, rfl⟩
  | int v => simp [hasNone] at hn
  | float v => simp [hasNone] at hn
  | string _ => simp [hasNone] at hn
  | @tuple t _ _ ih =>
      rw [hasNone, anyNone_eq_any, List.any_eq_true] at hn
      obtain ⟨o, ho, hno⟩ := hn
      obtain ⟨e, he⟩ := cloneAll_error (List.mem_map_of_mem (f := readBack) ho) (ih o ho hno) heap
      refine ⟨e, ?_⟩
      rw [readBack, readAllBack_eq_map, clone, StateT.run_bind, he]
      rfl

end LeechObj

end CompilerLab.Leech
