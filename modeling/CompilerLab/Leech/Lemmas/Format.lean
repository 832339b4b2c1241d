import CompilerLab.Leech.Format
import CompilerLab.Leech.Lemmas.RoundTrip

/-!
# The readers and the format

The readers of constants and functions read exactly what is in the format.
-/

namespace CompilerLab.Leech

open Lib

/-- The error is an exception of the source. -/
def Exceptional (e : Error) : Prop := e ≠ .nullDereference

/-! ## Numbers and strings -/

theorem deserializeNum_accepts (size : Nat) :
    Accepts (deserializeNum size) fun input n => n < 256 ^ size ∧ input = toBytes size n := by
  rw [deserializeNum, map_eq_pure_bind]
  refine (readExactly_accepts _ size).bind fun input bs h => .pure ?_
  obtain ⟨rfl, rfl⟩ := h
  exact ⟨ofBytes_lt bs, by rw [List.append_nil, toBytes_ofBytes]⟩

theorem deserializeNum_accepts_size : Accepts (deserializeNum 8) fun input n => n < 2 ^ 64 ∧ input = toBytes 8 n := by
  have hpow : 256 ^ 8 = 2 ^ 64 := by decide
  have h := deserializeNum_accepts 8
  rwa [hpow] at h

theorem deserializeString_accepts (size : Nat) :
    Accepts (deserializeString size) fun input s => s = input ∧ s.length = size := readExactly_accepts _ size

theorem readString_accepts : Accepts (do deserializeString (← deserializeNum 8)) fun input s =>
    s.length < 2 ^ 64 ∧ input = serializeString s := by
  refine deserializeNum_accepts_size.bind fun input n hn => ?_
  intro s str s' h
  obtain ⟨input', rfl, rfl, rfl⟩ := deserializeString_accepts n s str s' h
  exact ⟨str, rfl, hn.1, by rw [hn.2, serializeString]⟩

theorem deserializeNum_raises (size : Nat) : Raises (deserializeNum size) Exceptional := by
  rw [deserializeNum, map_eq_pure_bind]
  exact (readExactly_raises size Error.noConfusion).bind fun _ => .pure _

theorem deserializeString_raises (size : Nat) : Raises (deserializeString size) Exceptional :=
  readExactly_raises size Error.noConfusion

/-! ## Constants -/

theorem toUnderlying_of_toNat {type : Byte} {t : ValueType} (h : type.toNat = t.ctorIdx) : type = t.toUnderlying := by
  apply BitVec.eq_of_toNat_eq
  rw [h]
  cases t <;> rfl

/-- The size of a number, which is not looked at, and its value. -/
theorem number_accepts (make : BitVec 64 → LeechObj) : Accepts (do
      let _ ← deserializeNum 8
      let val ← deserializeNum 8
      return make (BitVec.ofNat 64 val)) fun input o =>
    ∃ size value : BitVec 64, input = toBytes 8 size.toNat ++ toBytes 8 value.toNat ∧ o = make value := by
  refine deserializeNum_accepts_size.bind fun input size hsize => deserializeNum_accepts_size.bind fun input' val hval =>
    .pure ?_
  obtain ⟨hsize, rfl⟩ := hsize
  obtain ⟨hval, rfl⟩ := hval
  refine ⟨BitVec.ofNat 64 size, BitVec.ofNat 64 val, ?_, rfl⟩
  rw [BitVec.toNat_ofNat, BitVec.toNat_ofNat, Nat.mod_eq_of_lt hsize, Nat.mod_eq_of_lt hval, List.append_nil]

theorem number_reads (make : BitVec 64 → LeechObj) (size value : BitVec 64) : Reads (do
      let _ ← deserializeNum 8
      let val ← deserializeNum 8
      return make (BitVec.ofNat 64 val)) (toBytes 8 size.toNat ++ toBytes 8 value.toNat) (make value) := by
  have hvalue : BitVec.ofNat 64 value.toNat = value := by rw [BitVec.ofNat_toNat, BitVec.setWidth_eq]
  rw [← List.append_nil (toBytes 8 value.toNat)]
  refine (deserializeNum_word size).bind ((deserializeNum_word value).bind ?_)
  rw [hvalue]
  exact Reads.pure _

theorem deserializeVal_accepts {reader : Istream LeechObj} (h : Accepts reader ConstantBytes) (type : Byte) :
    Accepts (deserializeVal reader type.toNat) fun input o => ConstantBytes (type :: input) o := by
  rw [deserializeVal]
  split
  · next ht =>
      rw [toUnderlying_of_toNat ht]
      intro s o s' h
      obtain ⟨input, rfl, size, value, rfl, rfl⟩ := number_accepts .IntObj s o s' h
      exact ⟨_, rfl, .int size value⟩
  · split
    · next ht =>
        rw [toUnderlying_of_toNat ht]
        intro s o s' h
        obtain ⟨input, rfl, size, value, rfl, rfl⟩ := number_accepts .FloatObj s o s' h
        exact ⟨_, rfl, .float size value⟩
    · split
      · next ht =>
          rw [toUnderlying_of_toNat ht]
          refine deserializeNum_accepts_size.bind fun input n hn => (deserializeString_accepts n).bind fun input' s hs =>
            .pure ?_
          obtain ⟨hn, rfl⟩ := hn
          obtain ⟨rfl, rfl⟩ := hs
          rw [List.append_nil]
          exact .string hn
      · split
        · next ht =>
            rw [toUnderlying_of_toNat ht]
            refine deserializeNum_accepts_size.bind fun input n hn => (h.many n).bind fun input' os hos => .pure ?_
            obtain ⟨hn, rfl⟩ := hn
            obtain ⟨parts, rfl, hparts, rfl, rfl⟩ := hos
            rw [List.append_nil]
            exact .tuple hn hparts
        · next h₁ h₂ h₃ h₄ =>
            refine .pure (.unknown fun hmem => ?_)
            simp only [readTypes, List.mem_cons, List.not_mem_nil, or_false] at hmem
            rcases hmem with rfl | rfl | rfl | rfl
            · exact h₁ rfl
            · exact h₂ rfl
            · exact h₃ rfl
            · exact h₄ rfl

theorem deserializeObj_accepts (fuel : Nat) : Accepts (deserializeObj fuel) ConstantBytes := by
  induction fuel with
  | zero =>
      intro s o s' h
      cases h
  | succ fuel ih =>
      refine (deserializeNum_accepts 1).bind fun input n hn => ?_
      obtain ⟨hn, rfl⟩ := hn
      have hbyte : (BitVec.ofNat 8 n).toNat = n := by
        rw [BitVec.toNat_ofNat]
        exact Nat.mod_eq_of_lt hn
      have hval := deserializeVal_accepts ih (BitVec.ofNat 8 n)
      rw [hbyte] at hval
      exact hval

theorem deserializeVal_raises {reader : Istream LeechObj} (h : Raises reader Exceptional) (n : Nat) :
    Raises (deserializeVal reader n) Exceptional := by
  rw [deserializeVal]
  split
  · exact (deserializeNum_raises 8).bind fun _ => (deserializeNum_raises 8).bind fun _ => .pure _
  · split
    · exact (deserializeNum_raises 8).bind fun _ => (deserializeNum_raises 8).bind fun _ => .pure _
    · split
      · exact (deserializeNum_raises 8).bind fun n => (deserializeString_raises n).bind fun _ => .pure _
      · split
        · exact (deserializeNum_raises 8).bind fun n => (h.many n).bind fun _ => .pure _
        · exact .pure _

theorem deserializeObj_raises (fuel : Nat) : Raises (deserializeObj fuel) Exceptional := by
  induction fuel with
  | zero =>
      intro s e h
      cases h
      exact Error.noConfusion
  | succ fuel ih => exact (deserializeNum_raises 1).bind fun n => deserializeVal_raises ih n

/-- Parts that are in the format one by one are read one by one. -/
theorem parts_read {fuel : Nat} {parts : List (List Byte × LeechObj)}
    (h : ∀ p ∈ parts, p.1.length ≤ fuel → Reads (deserializeObj fuel) p.1 p.2)
    (hlen : (parts.map Prod.fst).flatten.length ≤ fuel) :
    List.Forall₂ (fun o bytes => Reads (deserializeObj fuel) bytes o) (parts.map Prod.snd) (parts.map Prod.fst) := by
  rw [List.forall₂_map_left_iff, List.forall₂_map_right_iff, List.forall₂_same]
  intro p hp
  exact h p hp ((List.sublist_flatten_of_mem (List.mem_map_of_mem hp)).length_le.trans hlen)

/-- What is in the format is read by any reader that is given enough fuel. -/
theorem ConstantBytes.reads {input : List Byte} {o : LeechObj} (h : ConstantBytes input o) :
    ∀ fuel, input.length ≤ fuel → Reads (deserializeObj fuel) input o := by
  induction h with
  | int size value =>
      intro fuel hf
      cases fuel with
      | zero => cases hf
      | succ fuel => exact @deserializeObj_reads .Integer fuel _ _ (number_reads .IntObj size value)
  | float size value =>
      intro fuel hf
      cases fuel with
      | zero => cases hf
      | succ fuel => exact @deserializeObj_reads .Float fuel _ _ (number_reads .FloatObj size value)
  | string hs =>
      intro fuel hf
      cases fuel with
      | zero => cases hf
      | succ fuel => exact deserializeObj_string fuel hs
  | @tuple parts hlen _ ih =>
      intro fuel hf
      cases fuel with
      | zero => cases hf
      | succ fuel =>
          rw [List.length_cons, List.length_append, length_toBytes] at hf
          have hparts := parts_read (fun p hp => ih p hp fuel) (by omega)
          rw [← List.length_map (f := Prod.snd)] at hlen ⊢
          exact deserializeObj_tuple hlen hparts
  | @unknown type htype =>
      intro fuel hf
      cases fuel with
      | zero => cases hf
      | succ fuel =>
          have hval : deserializeVal (deserializeObj fuel) type.toNat = pure .nullptr := by
            have hne : ∀ t : ValueType, t.toUnderlying ∈ readTypes → type.toNat ≠ t.ctorIdx := fun t ht heq =>
              htype (toUnderlying_of_toNat heq ▸ ht)
            rw [deserializeVal, if_neg (hne .Integer (by decide)), if_neg (hne .Float (by decide)),
              if_neg (hne .String (by decide)), if_neg (hne .Tuple (by decide))]
          have hread := (deserializeNum_byte type).bind (f := deserializeVal (deserializeObj fuel))
            (hval ▸ Reads.pure LeechObj.nullptr)
          have hbyte : toBytes 1 type.toNat = [type] := by
            rw [toBytes, toBytes, BitVec.ofNat_toNat, BitVec.setWidth_eq]
          rw [hbyte] at hread
          exact hread

/-! ## Null pointers -/

namespace LeechObj

theorem anyNull_eq_any (os : List LeechObj) : anyNull os = os.any hasNull := by
  induction os with
  | nil => rfl
  | cons o os ih => rw [anyNull, ih, List.any_cons]

/-- The copy of an object that has been read is the object, or follows a null pointer in it. -/
def CopiedUnlessNull (o : LeechObj) : Prop :=
  ∀ heap, o.clone.run heap = if o.hasNull then .error .nullDereference else .ok (o, heap)

theorem cloneAll_eq {os : List LeechObj} (h : ∀ o ∈ os, CopiedUnlessNull o) (heap : Heap) :
    (cloneAll os).run heap = if anyNull os then .error .nullDereference else .ok (os, heap) := by
  induction os with
  | nil => rfl
  | cons o os ih =>
      rw [cloneAll_cons, h o List.mem_cons_self heap, anyNull]
      cases ho : o.hasNull with
      | true => rfl
      | false =>
          have hrest := ih fun o' ho' => h o' (List.mem_cons_of_mem _ ho')
          rw [if_neg Bool.false_ne_true, ok_bind, hrest, Bool.false_or]
          cases anyNull os with
          | true => rfl
          | false => rfl

end LeechObj

theorem ConstantBytes.copied {input : List Byte} {o : LeechObj} (h : ConstantBytes input o) : o.CopiedUnlessNull := by
  induction h with
  | int size value => exact fun _ => rfl
  | float size value => exact fun _ => rfl
  | string _ => exact fun _ => rfl
  | @tuple parts _ _ ih =>
      intro heap
      have hparts : ∀ o ∈ parts.map Prod.snd, o.CopiedUnlessNull := by
        intro o ho
        obtain ⟨p, hp, rfl⟩ := List.mem_map.mp ho
        exact ih p hp
      rw [LeechObj.clone, StateT.run_bind, LeechObj.cloneAll_eq hparts, LeechObj.hasNull]
      cases LeechObj.anyNull (parts.map Prod.snd) with
      | true => rfl
      | false => rfl
  | unknown _ => exact fun _ => rfl

theorem elementsAll_le {parts : List (List Byte × LeechObj)} (h : ∀ p ∈ parts, p.2.elements ≤ p.1.length) :
    LeechObj.elementsAll (parts.map Prod.snd) ≤ (parts.map Prod.fst).flatten.length := by
  induction parts with
  | nil => exact Nat.le_refl 0
  | cons p parts ih =>
      rw [List.map_cons, List.map_cons, List.flatten_cons, List.length_append, LeechObj.elementsAll]
      exact Nat.add_le_add (h p List.mem_cons_self) (ih fun q hq => h q (List.mem_cons_of_mem _ hq))

/-- A constant takes a byte for every object in it. -/
theorem ConstantBytes.elements_le {input : List Byte} {o : LeechObj} (h : ConstantBytes input o) :
    o.elements ≤ input.length := by
  induction h with
  | int size value => simp [LeechObj.elements]
  | float size value => simp [LeechObj.elements]
  | string _ => simp [LeechObj.elements]
  | @tuple parts _ _ ih =>
      rw [LeechObj.elements, List.length_cons, List.length_append]
      have hall := elementsAll_le ih
      omega
  | unknown _ => simp [LeechObj.elements]

/-! ## Functions -/

namespace FunctionBytes

variable {input : List Byte} {entry : Str × FuncMeta}

theorem names_accepts (n : Nat) : Accepts (readMany (do deserializeString (← deserializeNum 8)) n) fun input names =>
    names.length = n ∧ (∀ s ∈ names, s.length < 2 ^ 64) ∧ input = (names.map serializeString).flatten := by
  intro s names s' h
  obtain ⟨input, rfl, parts, rfl, hparts, rfl, rfl⟩ := readString_accepts.many n s names s' h
  refine ⟨_, rfl, List.length_map _, ?_, ?_⟩
  · intro name hname
    obtain ⟨p, hp, rfl⟩ := List.mem_map.mp hname
    exact (hparts p hp).1
  · rw [List.map_map]
    exact congrArg List.flatten (List.map_congr_left fun p hp => (hparts p hp).2)

theorem length_le_flatten (names : List Str) : names.length ≤ (names.map serializeString).flatten.length := by
  induction names with
  | nil => exact Nat.le_refl 0
  | cons name names ih =>
      rw [List.map_cons, List.flatten_cons, List.length_append, serializeString, List.length_append, length_toBytes,
        List.length_cons]
      omega

theorem accepts (fuel : Nat) : Accepts (FuncMeta.deserialize fuel) FunctionBytes := by
  rw [FuncMeta.deserialize]
  refine deserializeNum_accepts_size.bind fun _ nameLen hnameLen => (deserializeString_accepts nameLen).bind fun _ name hname =>
    deserializeNum_accepts_size.bind fun _ addr haddr => deserializeNum_accepts_size.bind fun _ argNum hargNum =>
    deserializeNum_accepts_size.bind fun _ cstNum hcstNum => ((deserializeObj_accepts fuel).many cstNum).bind
    fun _ cstPool hcsts => deserializeNum_accepts_size.bind fun _ nameNum hnameNum => (names_accepts nameNum).bind
    fun _ names hnames => .pure ?_
  obtain ⟨hnameLen, rfl⟩ := hnameLen
  obtain ⟨rfl, rfl⟩ := hname
  obtain ⟨haddr, rfl⟩ := haddr
  obtain ⟨hargNum, rfl⟩ := hargNum
  obtain ⟨hcstNum, rfl⟩ := hcstNum
  obtain ⟨csts, rfl, hcsts, rfl, rfl⟩ := hcsts
  obtain ⟨hnameNum, rfl⟩ := hnameNum
  obtain ⟨rfl, hnames, rfl⟩ := hnames
  have hfunction := @intro name (BitVec.ofNat 64 addr) (BitVec.ofNat 64 argNum) csts names hnameLen hcstNum hcsts hnameNum
    hnames
  rw [BitVec.toNat_ofNat, BitVec.toNat_ofNat, Nat.mod_eq_of_lt haddr, Nat.mod_eq_of_lt hargNum, serializeString,
    List.append_assoc] at hfunction
  rwa [List.append_nil]

theorem raises (fuel : Nat) : Raises (FuncMeta.deserialize fuel) Exceptional := by
  rw [FuncMeta.deserialize]
  exact (deserializeNum_raises 8).bind fun nameLen => (deserializeString_raises nameLen).bind fun _ =>
    (deserializeNum_raises 8).bind fun _ => (deserializeNum_raises 8).bind fun _ => (deserializeNum_raises 8).bind
    fun cstNum => ((deserializeObj_raises fuel).many cstNum).bind fun _ => (deserializeNum_raises 8).bind fun nameNum =>
    (((deserializeNum_raises 8).bind fun n => deserializeString_raises n).many nameNum).bind fun _ => .pure _

theorem reads (h : FunctionBytes input entry) {fuel : Nat} (hf : input.length ≤ fuel) :
    Reads (FuncMeta.deserialize fuel) input entry := by
  cases h with
  | @intro name addr argNum csts names hname hcstNum hcsts hnameNum hnames =>
      simp only [List.length_append] at hf
      have hparts := parts_read (fun p hp => (hcsts p hp).reads fuel) (by omega)
      have hpool := Reads.many hparts
      rw [List.length_map] at hpool
      rw [serializeString, List.append_assoc, FuncMeta.deserialize]
      refine (deserializeNum_size hname).bind ?_
      refine (deserializeString_reads name).bind ?_
      refine (deserializeNum_word addr).bind ?_
      refine (deserializeNum_word argNum).bind ?_
      refine (deserializeNum_size hcstNum).bind ?_
      refine hpool.bind ?_
      refine (deserializeNum_size hnameNum).bind ?_
      rw [← List.append_nil (List.flatten (names.map serializeString))]
      refine (FuncMeta.names_reads hnames).bind ?_
      rw [BitVec.ofNat_toNat, BitVec.ofNat_toNat, BitVec.setWidth_eq, BitVec.setWidth_eq]
      exact Reads.pure _

/-- A function takes a byte for each of its constants and names. -/
theorem elements_le (h : FunctionBytes input entry) : entry.2.elements ≤ input.length := by
  cases h with
  | @intro name addr argNum csts names hname hcstNum hcsts hnameNum hnames =>
      have hparts := elementsAll_le fun p hp => (hcsts p hp).elements_le
      have hnames := length_le_flatten names
      simp only [List.length_append, length_toBytes, FuncMeta.elements]
      omega

/-- The copies of the constants of a function that has been read. -/
theorem clones_eq (h : FunctionBytes input entry) :
    entry.2.clones = if entry.2.hasNull then .error .nullDereference else .ok entry.2.cstPool := by
  cases h with
  | @intro name addr argNum csts names hname hcstNum hcsts hnameNum hnames =>
      have hparts : ∀ o ∈ csts.map Prod.snd, o.CopiedUnlessNull := by
        intro o ho
        obtain ⟨p, hp, rfl⟩ := List.mem_map.mp ho
        exact (hcsts p hp).copied
      rw [FuncMeta.clones, StateT.run'_eq, LeechObj.cloneAll_eq hparts, FuncMeta.hasNull]
      cases LeechObj.anyNull (csts.map Prod.snd) with
      | true => rfl
      | false => rfl

end FunctionBytes

end CompilerLab.Leech
