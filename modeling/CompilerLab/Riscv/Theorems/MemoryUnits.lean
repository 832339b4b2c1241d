import CompilerLab.Riscv.MemoryAccess

/-!
# Results on the memory units

The data memory rejects addresses past its end only, whatever the width of the access; the instruction memory rejects none.
-/

namespace CompilerLab.Riscv

open CompilerLab.Lib

/-- An access of the data memory at an address the check lets through ends in the array, and so does every fetch. -/
def Access.Fits : Access → Prop
  | .load mode address => address.toNat ≤ DataMemUnit.capacity * 4 → (Access.load mode address).Inside
  | .store mode address data => address.toNat ≤ DataMemUnit.capacity * 4 → (Access.store mode address data).Inside
  | .fetch address => (Access.fetch address).Inside

namespace DataMemUnit

variable {m : DataMemUnit} {mode : Byte} {address : Word} {memory : Nat → Byte}

theorem checkAddress_eq (address : Word) (access : String) : ∃ e, e ≠ .outsideArray ∧
    checkAddress address access = if address.toNat ≤ capacity * 4 then .ok () else .error e := by
  refine ⟨.InvalidAddressException ("data " ++ access ++ " overflow - address=" ++ toString address.toNat), by simp, ?_⟩
  by_cases h : address.toNat ≤ capacity * 4
  · rw [checkAddress, if_neg h.not_gt, if_pos h]
  · rw [checkAddress, if_pos (not_le.1 h), if_neg h]

theorem inArray_bind {α : Type} (bytes a size : Nat) (x : α) :
    (inArray bytes a size >>= fun _ => pure x) = if a + size ≤ bytes then .ok x else .error .outsideArray := by
  unfold inArray
  split <;> rfl

/-! ## Loads -/

theorem signExtend_eq {n : Nat} (x : BitVec n) : x.signExtend 32 = BitVec.ofInt 32 (Int.bmod x.toNat (2 ^ n)) := by
  rw [BitVec.signExtend, BitVec.toInt_eq_toNat_bmod]

/-- What a load finds at the end of the checks. -/
theorem loadValue_eq (mode : Byte) (address : Word) (memory : Nat → Byte) : ∃ e, e ≠ .outsideArray ∧
    loadValue mode address memory =
      if modeSize mode = 0 then .error e
      else if address.toNat + modeSize mode ≤ capacity * 4 then
        .ok (extended mode ((List.range (modeSize mode)).map fun k => memory (address.toNat + k)))
      else .error .outsideArray := by
  refine ⟨.logic_error ("invalid funct3: " ++ toString mode.toNat), by simp, ?_⟩
  unfold loadValue modeSize extended
  generalize mode.toNat = n
  rcases n with _ | _ | _ | _ | _ | _ | n
  · simp only [inArray_bind, signExtendFromByte, signExtend_eq]
    simp [List.range_succ, leNat_one]
  · simp only [inArray_bind, signExtendFromByte2, signExtend_eq]
    simp [List.range_succ, leNat_two]
  · simp only [inArray_bind]
    simp [List.range_succ, leNat_four]
  · simp
  · simp only [inArray_bind]
    simp [List.range_succ, leNat_one]
  · simp only [inArray_bind]
    simp [List.range_succ, leNat_two]
  · simp

/-! ## Stores -/

theorem writeBytes_lastStored (init : Nat → Byte) (ws : List ByteWrite) (a size : Nat) (w : Word) :
    writeBytes (lastStored init ws) a size w =
      lastStored init ({ address := a, bytes := leBytes size w.toNat } :: ws) := by
  funext i
  simp only [writeBytes, lastStored, length_leBytes]
  split
  · next hi =>
      have hk : i - a < size := by omega
      have hpow : (256 : Nat) ^ (i - a) = 2 ^ (8 * (i - a)) := by
        rw [pow_mul]
        rfl
      simp [leBytes, List.getD_eq_getElem?_getD, hk, BitVec.extractLsb', Nat.shiftRight_eq_div_pow, hpow]
  · rfl

theorem storeValue_eq (mode : Byte) (address writeData : Word) (memory : Nat → Byte) :
    storeValue mode address writeData memory =
      if mode.toNat ≤ 2 then
        if address.toNat + modeSize mode ≤ capacity * 4 then
          .ok (writeBytes memory address.toNat (modeSize mode) writeData)
        else .error .outsideArray
      else .ok memory := by
  unfold storeValue modeSize
  generalize mode.toNat = n
  rcases n with _ | _ | _ | n
  · simp only [inArray_bind]
    simp
  · simp only [inArray_bind]
    simp
  · simp only [inArray_bind]
    simp
  · simp

/-! ## Both together -/

theorem getData_eq (m : DataMemUnit) : ∃ e, e ≠ .outsideArray ∧ m.getData =
    if m.address.toNat ≤ capacity * 4 ∧ modeSize m.storeMode ≠ 0 then
      if m.address.toNat + modeSize m.storeMode ≤ capacity * 4 then
        .ok (extended m.storeMode ((List.range (modeSize m.storeMode)).map fun k => m.memory (m.address.toNat + k)))
      else .error .outsideArray
    else .error e := by
  obtain ⟨e, he, hcheck⟩ := checkAddress_eq m.address "read"
  obtain ⟨e', he', hload⟩ := loadValue_eq m.storeMode m.address m.memory
  by_cases ha : m.address.toNat ≤ capacity * 4
  · refine ⟨e', he', ?_⟩
    rw [getData, hcheck, if_pos ha, hload]
    by_cases hsize : modeSize m.storeMode = 0
    · simp [hsize]
      rfl
    · simp [hsize, ha]
      rfl
  · refine ⟨e, he, ?_⟩
    rw [getData, hcheck, if_neg ha]
    simp [ha]
    rfl

/-- A unit that does not write reads. -/
theorem useDataMemory_read (h : m.writeEnable = false) :
    (MemoryUnits.useDataMemory m).1.memory = m.memory ∧ (MemoryUnits.useDataMemory m).2 = m.getData := by
  unfold MemoryUnits.useDataMemory tick
  rw [h]
  cases hd : m.getData with
  | error e => exact ⟨rfl, rfl⟩
  | ok v => exact ⟨rfl, hd⟩

/-- A store that ends in the array, or writes nothing, is read again. -/
theorem useDataMemory_write (h : m.writeEnable = true) (ha : m.address.toNat ≤ capacity * 4)
    (hin : m.storeMode.toNat ≤ 2 → m.address.toNat + modeSize m.storeMode ≤ capacity * 4) :
    ∃ m' : DataMemUnit, MemoryUnits.useDataMemory m = (m', m'.getData) ∧ m'.storeMode = m.storeMode ∧
      m'.address = m.address ∧ m'.memory =
        if m.storeMode.toNat ≤ 2 then writeBytes m.memory m.address.toNat (modeSize m.storeMode) m.writeData else m.memory := by
  obtain ⟨e, he, hcheck⟩ := checkAddress_eq m.address "write"
  have htick : m.tick = (storeValue m.storeMode m.address m.writeData m.memory).map fun memory => { m with memory } := by
    rw [tick, if_pos h, hcheck, if_pos ha]
    cases storeValue m.storeMode m.address m.writeData m.memory <;> rfl
  unfold MemoryUnits.useDataMemory
  rw [htick, storeValue_eq]
  by_cases hmode : m.storeMode.toNat ≤ 2
  · simp only [if_pos hmode, if_pos (hin hmode)]
    exact ⟨_, rfl, rfl, rfl, rfl⟩
  · simp only [if_neg hmode]
    exact ⟨_, rfl, rfl, rfl, rfl⟩

/-- A store that starts in the array and goes on behind it is undefined. -/
theorem useDataMemory_outside (h : m.writeEnable = true) (ha : m.address.toNat ≤ capacity * 4) (hmode : m.storeMode.toNat ≤ 2)
    (hin : ¬ m.address.toNat + modeSize m.storeMode ≤ capacity * 4) :
    MemoryUnits.useDataMemory m = (m, .error .outsideArray) := by
  obtain ⟨e, he, hcheck⟩ := checkAddress_eq m.address "write"
  unfold MemoryUnits.useDataMemory
  rw [tick, if_pos h, hcheck, if_pos ha, storeValue_eq, if_pos hmode, if_neg hin]
  rfl

/-- A unit that is to write past the end of the memory throws. -/
theorem useDataMemory_overflow (h : m.writeEnable = true) (ha : ¬ m.address.toNat ≤ capacity * 4) :
    ∃ e, e ≠ .outsideArray ∧ MemoryUnits.useDataMemory m = (m, .error e) := by
  obtain ⟨e, he, hcheck⟩ := checkAddress_eq m.address "write"
  refine ⟨e, he, ?_⟩
  unfold MemoryUnits.useDataMemory
  rw [tick, if_pos h, hcheck, if_neg ha]
  rfl

end DataMemUnit

/-- The memory stage uses the data memory as a load or a store does. -/
theorem Pipeline.doMemory_useDataMemory {s t : Pipeline} (h : s.doMemory = .ok t)
    (hused : (!s.memoryRegister.current.memToReg || s.memoryRegister.current.memWe) = true) :
    ∃ v, MemoryUnits.useDataMemory (s.dataMemUnit.setSignals s.memoryRegister.current) = (t.dataMemUnit, .ok v) ∧
      t.writeBackRegister.next.wbD =
        multiplexer2 s.memoryRegister.current.memToReg v s.memoryRegister.current.aluRes := by
  simp only [Pipeline.doMemory, hused, if_true, bind_eq_ok] at h
  obtain ⟨m, htick, v, hdata, ht⟩ := h
  cases ht
  refine ⟨v, ?_, rfl⟩
  have hm : (s.dataMemUnit.setSignals s.memoryRegister.current).tick = .ok m := htick
  rw [MemoryUnits.useDataMemory, hm]
  exact congrArg (Prod.mk m) hdata

/-! ## Sequences of accesses -/

namespace MemoryUnits

open DataMemUnit

variable {init : Nat → Byte} {ws : List ByteWrite} {s : MemoryUnits}

theorem fits_of_size_zero {mode : Byte} {address : Word} (h : modeSize mode = 0) (ha : address.toNat ≤ capacity * 4) :
    address.toNat + modeSize mode ≤ capacity * 4 := by
  rw [h]
  exact ha

theorem exact_load (hs : s.dataMemUnit.memory = lastStored init ws) (mode : Byte) (address : Word) :
    s.Exact init ws (.load mode address) ↔ (Access.load mode address).Fits := by
  obtain ⟨hmem, hres⟩ := useDataMemory_read (m := s.dataMemUnit.forLoad mode address) rfl
  obtain ⟨e, he, hdata⟩ := getData_eq (s.dataMemUnit.forLoad mode address)
  have hmemory : (s.perform (.load mode address)).1.dataMemUnit.memory = lastStored init ws := hmem.trans hs
  have hresult : (s.perform (.load mode address)).2 = _ := hres.trans hdata
  rw [Exact, hmemory, hresult]
  simp only [forLoad_storeMode, forLoad_address, forLoad_memory, hs]
  split_ifs with h₁ h₂
  · simp [h₂, Access.history, Access.written, Access.Returns, Access.Fits, Access.Inside, Access.value, storedBytes]
  · simp [h₁.1, h₂, Access.Returns, Access.Fits, Access.Inside]
  · have hin : address.toNat ≤ capacity * 4 → address.toNat + modeSize mode ≤ capacity * 4 := fun ha =>
      fits_of_size_zero (not_not.1 fun hsize => h₁ ⟨ha, hsize⟩) ha
    simpa [he, Access.history, Access.Returns, Access.Fits, Access.Inside] using hin

theorem not_storeMode_of_size_zero {mode : Byte} (h : modeSize mode = 0) : ¬ mode.toNat ≤ 2 := by
  unfold modeSize at h
  generalize mode.toNat = n at h ⊢
  rcases n with _ | _ | _ | n
  · cases h
  · cases h
  · cases h
  · omega

/-- What has been written is the history of the memory. -/
theorem written_lastStored (mode : Byte) (address data : Word) :
    (if mode.toNat ≤ 2 then writeBytes (lastStored init ws) address.toNat (modeSize mode) data else lastStored init ws) =
      lastStored init ((Access.store mode address data).written ++ ws) := by
  simp only [Access.written]
  split
  · exact writeBytes_lastStored init ws _ _ _
  · rfl

theorem exact_store (hs : s.dataMemUnit.memory = lastStored init ws) (mode : Byte) (address data : Word) :
    s.Exact init ws (.store mode address data) ↔ (Access.store mode address data).Fits := by
  have hperform : s.perform (.store mode address data) =
      ({ s with dataMemUnit := (useDataMemory (s.dataMemUnit.forStore mode address data)).1 },
        (useDataMemory (s.dataMemUnit.forStore mode address data)).2) := rfl
  rw [Exact, hperform]
  by_cases ha : address.toNat ≤ capacity * 4
  · by_cases hout : mode.toNat ≤ 2 ∧ ¬ address.toNat + modeSize mode ≤ capacity * 4
    · rw [useDataMemory_outside rfl ha hout.1 hout.2]
      simp [hout.2, ha, Access.Returns, Access.Fits, Access.Inside]
    · obtain ⟨m', huse, hmode', haddress', hmemory'⟩ := useDataMemory_write (m := s.dataMemUnit.forStore mode address data) rfl ha
        fun hmode => not_not.1 fun hin => hout ⟨hmode, hin⟩
      simp only [forStore_storeMode, forStore_address, forStore_memory, forStore_writeData, hs, written_lastStored]
        at hmode' haddress' hmemory'
      obtain ⟨e, he, hdata⟩ := getData_eq m'
      rw [hmode', haddress'] at hdata
      rw [huse, hdata]
      by_cases hsize : modeSize mode = 0
      · have hmode := not_storeMode_of_size_zero hsize
        simp [hmemory', hsize, he, ha, hmode, Access.history, Access.written, Access.Returns, Access.Fits, Access.Inside]
      · by_cases hin : address.toNat + modeSize mode ≤ capacity * 4
        · simp [hmemory', hsize, hin, ha, Access.history, Access.Returns, Access.Fits, Access.Inside, Access.value]
        · simp [hsize, hin, ha, Access.Returns, Access.Fits, Access.Inside]
  · obtain ⟨e, he, huse⟩ := useDataMemory_overflow (m := s.dataMemUnit.forStore mode address data) rfl ha
    rw [huse]
    simp [hs, he, ha, Access.history, Access.Returns, Access.Fits]

theorem exact_fetch (hs : s.dataMemUnit.memory = lastStored init ws) (address : Word) :
    s.Exact init ws (.fetch address) ↔ (Access.fetch address).Fits := by
  have hget : (s.perform (.fetch address)).2 =
      if address.toNat + 4 ≤ InstrMemUnit.capacity * 4 then
        .ok ((s.instrMemUnit.memory (address.toNat / 4 + 1) ++ s.instrMemUnit.memory (address.toNat / 4)).extractLsb'
          (8 * (address.toNat % 4)) 32)
      else .error .outsideArray := inArray_bind _ _ _ _
  have hmemory : (s.perform (.fetch address)).1.dataMemUnit.memory = lastStored init ws := hs
  rw [Exact, hmemory, hget]
  split
  · next hin =>
      have haligned : address.toNat % 4 = 0 →
          (s.instrMemUnit.memory (address.toNat / 4 + 1) ++ s.instrMemUnit.memory (address.toNat / 4)).extractLsb'
            (8 * (address.toNat % 4)) 32 = s.instrMemUnit.memory (address.toNat / 4) := by
        intro h
        rw [h, BitVec.extractLsb'_append_eq_right]
      simpa [hin, Access.history, Access.written, Access.Returns, Access.Fits, Access.Inside, Access.value] using haligned
  · next hin =>
      simp [hin, Access.Returns, Access.Fits, Access.Inside]

/-- A single access is exact when it fits. -/
theorem exact_iff_fits (hs : s.dataMemUnit.memory = lastStored init ws) (access : Access) :
    s.Exact init ws access ↔ access.Fits := by
  cases access with
  | load mode address => exact exact_load hs mode address
  | store mode address data => exact exact_store hs mode address data
  | fetch address => exact exact_fetch hs address

theorem allExact_iff {accesses : List Access} (hs : s.dataMemUnit.memory = lastStored init ws) :
    AllExact init ws s accesses ↔ ∀ access ∈ accesses, access.Fits := by
  induction accesses generalizing s ws with
  | nil => exact ⟨fun _ _ h => absurd h List.not_mem_nil, fun _ => trivial⟩
  | cons access rest ih =>
      rw [AllExact, List.forall_mem_cons, exact_iff_fits hs]
      constructor
      · rintro ⟨hfits, hrest⟩
        exact ⟨hfits, (ih ((exact_iff_fits hs access).2 hfits).1).1 hrest⟩
      · rintro ⟨hfits, hrest⟩
        exact ⟨hfits, (ih ((exact_iff_fits hs access).2 hfits).1).2 hrest⟩

/-- Every sequence of accesses is exact when each data access that is let through ends in the array and no fetch goes past the
end of the instructions. -/
theorem memory_units_exact_iff (s : MemoryUnits) (accesses : List Access) :
    AllExact s.dataMemUnit.memory [] s accesses ↔ ∀ access ∈ accesses, access.Fits :=
  allExact_iff rfl

/-- A byte is read behind the last one. -/
theorem load_past_end_wrong :
    ¬ AllExact (fun _ => 0) [] { dataMemUnit := {}, instrMemUnit := {} } [.load 0 0x4000#32] := by
  rintro ⟨⟨-, h⟩, -⟩
  exact absurd rfl h

end MemoryUnits

end CompilerLab.Riscv
