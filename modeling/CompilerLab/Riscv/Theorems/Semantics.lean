import CompilerLab.Lib.Rv32i
import CompilerLab.Riscv.Pipeline

/-!
# Results on the meaning of instructions

What decode and execute make of an instruction is what RV32I says, but for JALR, whose target is taken for a displacement, and
for the signed branches, which compare without signs.
-/

namespace CompilerLab.Riscv

open CompilerLab.Lib

open Rv32i (Instruction)

/-! ## Fields -/

theorem field_eq {mask : Word} {n : Nat} (w : Word) (start : Nat) (hmask : mask.toNat = 2 ^ n - 1) :
    ((w >>> start) &&& mask).setWidth 8 = (w.extractLsb' start n).setWidth 8 := by
  apply BitVec.eq_of_toNat_eq
  rw [BitVec.toNat_setWidth, BitVec.toNat_and, BitVec.toNat_ushiftRight, hmask, Nat.and_two_pow_sub_one_eq_mod,
    BitVec.toNat_setWidth, BitVec.extractLsb'_toNat]

theorem getOpcode_eq (w : Word) : getOpcode w = (Rv32i.opcode w).setWidth 8 := field_eq w 0 rfl

theorem getFunct3_eq (w : Word) : getFunct3 w = (Rv32i.funct3 w).setWidth 8 := field_eq w 12 rfl

theorem getFunct7_eq (w : Word) : getFunct7 w = (Rv32i.funct7 w).setWidth 8 := field_eq w 25 rfl

theorem getRd_eq (w : Word) : getRd w = (Rv32i.rd w).setWidth 8 := field_eq w 7 rfl

/-! ## Control -/

/-- The control signal of an operation. -/
def aluControlOf : Rv32i.Arith → ALUControl
  | .add => .ADD
  | .sub => .SUB
  | .sll => .SLL
  | .slt => .SLT
  | .sltu => .SLTU
  | .xor => .XOR
  | .srl => .SRL
  | .sra => .SRA
  | .or => .OR
  | .and => .AND

/-- The control signal of a condition. -/
def cmpControlOf : Rv32i.Condition → CmpControl
  | .eq => .EQ
  | .ne => .NE
  | .lt => .LT
  | .ge => .GE
  | .ltu => .LTU
  | .geu => .GEU

def operationOf : Instruction → ALUControl
  | .jal | .branch _ => .NOP
  | .opImm o | .op o => aluControlOf o
  | _ => .ADD

def comparisonOf : Instruction → CmpControl
  | .branch c => cmpControlOf c
  | _ => .NOP

def opcodeOf : Instruction → Byte
  | .lui => 0b0110111
  | .auipc => 0b0010111
  | .jal => 0b1101111
  | .jalr => 0b1100111
  | .branch _ => 0b1100011
  | .load _ => 0b0000011
  | .store _ => 0b0100011
  | .opImm _ => 0b0010011
  | .op _ => 0b0110011

theorem registerOp_of : ∀ (f3 : BitVec 3) (f7 : BitVec 7), ∀ o ∈ Rv32i.Arith.ofFuncts? f3 f7,
    ControlUnit.registerOp (f3.setWidth 8) (f7.setWidth 8) = .ok (aluControlOf o) := by decide +kernel

theorem immediateOp_of : ∀ (f3 : BitVec 3) (f7 : BitVec 7), ∀ o ∈ Rv32i.Arith.ofFunctsImm? f3 f7,
    ControlUnit.immediateOp (f3.setWidth 8) (f7.setWidth 8) = .ok (aluControlOf o) := by decide +kernel

theorem branchCmp_of : ∀ f3 : BitVec 3, ∀ c ∈ Rv32i.Condition.ofFunct3? f3,
    ControlUnit.branchCmp 0b1100011#8 (f3.setWidth 8) = .ok (cmpControlOf c) := by decide

/-- What the control unit finds out about an accepted word: all signals follow from the opcode but two. -/
theorem tick_eq {opcode funct3 funct7 : Byte} {cu : ControlUnit} (h : ControlUnit.tick opcode funct3 funct7 = .ok cu) :
    ∃ aluOp cmpControl, ControlUnit.aluControl opcode funct3 funct7 = .ok aluOp ∧
      ControlUnit.branchCmp opcode funct3 = .ok cmpControl ∧
      cu = {
        opcode, funct3, funct7
        isJalr := opcode == 0b1100111#8
        wbWe := !(opcode == 0b0100011#8 || opcode == 0b1100011#8 || opcode == 0b1110011#8)
        memWe := opcode == 0b0100011#8
        memToReg := opcode != 0b0000011#8
        brnCond := opcode == 0b1100011#8
        jmpCond := opcode == 0b1101111#8 || opcode == 0b1100111#8
        cmpControl
        aluSrc2 := getInstructionType opcode == .IType || getInstructionType opcode == .SType ||
          getInstructionType opcode == .UType
        aluOp, instrType := getInstructionType opcode } := by
  unfold ControlUnit.tick at h
  split at h
  · cases h
  split at h
  · cases h
  simp only [bind_eq_ok] at h
  obtain ⟨aluOp, halu, cmpControl, hcmp, h⟩ := h
  cases h
  exact ⟨aluOp, cmpControl, halu, hcmp, rfl⟩

/-- The control unit on an instruction. -/
theorem tick_of {op : BitVec 7} {f3 : BitVec 3} {f7 : BitVec 7} {i : Instruction}
    (hi : Instruction.ofFields? op f3 f7 = some i) :
    op.setWidth 8 = opcodeOf i ∧
      ControlUnit.aluControl (op.setWidth 8) (f3.setWidth 8) (f7.setWidth 8) = .ok (operationOf i) ∧
      ControlUnit.branchCmp (op.setWidth 8) (f3.setWidth 8) = .ok (comparisonOf i) := by
  unfold Instruction.ofFields? at hi
  split at hi
  · cases hi
    exact ⟨rfl, rfl, rfl⟩
  · cases hi
    exact ⟨rfl, rfl, rfl⟩
  · cases hi
    exact ⟨rfl, rfl, rfl⟩
  · split at hi
    · cases hi
      exact ⟨rfl, rfl, rfl⟩
    · cases hi
  · obtain ⟨c, hc, rfl⟩ := Option.map_eq_some_iff.1 hi
    exact ⟨rfl, rfl, branchCmp_of f3 c hc⟩
  · obtain ⟨w, hw, rfl⟩ := Option.map_eq_some_iff.1 hi
    exact ⟨rfl, rfl, rfl⟩
  · obtain ⟨w, hw, rfl⟩ := Option.map_eq_some_iff.1 hi
    exact ⟨rfl, rfl, rfl⟩
  · obtain ⟨o, ho, rfl⟩ := Option.map_eq_some_iff.1 hi
    exact ⟨rfl, immediateOp_of f3 f7 o ho, rfl⟩
  · obtain ⟨o, ho, rfl⟩ := Option.map_eq_some_iff.1 hi
    exact ⟨rfl, registerOp_of f3 f7 o ho, rfl⟩
  · cases hi

/-! ## Operations -/

theorem ALU_of (o : Rv32i.Arith) (x y : Word) : ALU (aluControlOf o) x y = o.apply x y := by
  have hshift : (y &&& 0x1f#32).toNat = y.toNat % 32 := by
    rw [BitVec.toNat_and]
    exact Nat.and_two_pow_sub_one_eq_mod y.toNat 5
  cases o with
  | sll => exact congrArg (x <<< ·) hshift
  | srl => exact congrArg (x >>> ·) hshift
  | sra => exact congrArg x.sshiftRight hshift
  | slt => simp [aluControlOf, ALU, Rv32i.Arith.apply, BitVec.slt]
  | sltu => simp [aluControlOf, ALU, Rv32i.Arith.apply, BitVec.ult]
  | _ => rfl

/-- A comparison is the one of the instruction when it is of signed numbers of one sign, or of numbers without signs. -/
theorem Cmp_of (c : Rv32i.Condition) (x y : Word) :
    Cmp (cmpControlOf c) x y = c.holds x y ↔ (c = .lt ∨ c = .ge → x.msb = y.msb) := by
  have hslt : decide (x.toInt < y.toInt) = (x.msb != y.msb).xor (x.ult y) := BitVec.slt_eq_ult
  have hge : decide (y.toInt ≤ x.toInt) = !decide (x.toInt < y.toInt) := by
    by_cases h : x.toInt < y.toInt
    · simp [h, not_le.2 h]
    · simp [h, not_lt.1 h]
  cases c with
  | lt =>
      simp only [cmpControlOf, Cmp, Rv32i.Condition.holds, hslt]
      cases x.ult y <;> cases x.msb <;> cases y.msb <;> decide
  | ge =>
      simp only [cmpControlOf, Cmp, Rv32i.Condition.holds, hge, hslt]
      cases x.ult y <;> cases x.msb <;> cases y.msb <;> decide
  | eq => simp [cmpControlOf, Cmp, Rv32i.Condition.holds]
  | ne => simp [cmpControlOf, Cmp, Rv32i.Condition.holds]
  | ltu => simp [cmpControlOf, Cmp, Rv32i.Condition.holds, BitVec.ult]
  | geu =>
      by_cases h : x.toNat < y.toNat
      · simp [cmpControlOf, Cmp, Rv32i.Condition.holds, BitVec.ult, h]
      · simp [cmpControlOf, Cmp, Rv32i.Condition.holds, BitVec.ult, h, not_lt.1 h]

/-! ## Decode and execute -/

/-- What is handed to the memory stage writes back what the instruction does. -/
def MemoryState.WritesBack (mem : MemoryState) : Rv32i.WriteBack → Prop
  | .nothing => mem.wbWe = false
  | .value v => mem.wbWe = true ∧ mem.memToReg = true ∧ mem.aluRes = v
  | .loaded w address =>
      mem.wbWe = true ∧ mem.memToReg = false ∧ mem.aluRes = address ∧ mem.storeMode = w.funct3.setWidth 8

/-- What is handed to the memory stage stores what the instruction does. -/
def MemoryState.Stores (mem : MemoryState) : Option (Rv32i.StoreWidth × Word × Word) → Prop
  | none => mem.memWe = false
  | some (w, address, data) =>
      mem.memWe = true ∧ mem.aluRes = address ∧ mem.writeData = data ∧ mem.storeMode = w.funct3.setWidth 8

/-- Executed at its address with the values it has read, an instruction does what its word says. -/
structure ExecuteState.Executes (e : ExecuteState) (i : Instruction) (x y : Word) : Prop where
  target : (if e.redirects e.data1 e.data2 then some (e.pcDe + e.pcDisp e.data1 e.data2) else none) =
    (i.outcome (immediateExtensionBlock e.instr) e.pcDe x y).target
  rd : (e.executed e.data1 e.data2).wbA = (Rv32i.rd e.instr).setWidth 8
  writeBack : (e.executed e.data1 e.data2).WritesBack (i.outcome (immediateExtensionBlock e.instr) e.pcDe x y).writeBack
  store : (e.executed e.data1 e.data2).Stores (i.outcome (immediateExtensionBlock e.instr) e.pcDe x y).store

/-- A JALR is at the address zero, and the operands of a signed branch have one sign. -/
def Ordinary (i : Instruction) (pc x y : Word) : Prop :=
  (i = .jalr → pc = 0) ∧ ∀ c, i = .branch c → c = .lt ∨ c = .ge → x.msb = y.msb

theorem loadWidth_of : ∀ f3 : BitVec 3, ∀ w ∈ Rv32i.LoadWidth.ofFunct3? f3, f3 = w.funct3 := by decide

theorem storeWidth_of : ∀ f3 : BitVec 3, ∀ w ∈ Rv32i.StoreWidth.ofFunct3? f3, f3 = w.funct3 := by decide

theorem and_clear_lowest (t : Word) : t &&& 0xfffffffe#32 = t &&& ~~~1#32 := rfl

/-- The decoded state of an instruction, with all its signals. -/
theorem decoded_of {w x y pc : Word} {cu : ControlUnit} {i : Instruction}
    (h : ControlUnit.tick (getOpcode w) (getFunct3 w) (getFunct7 w) = .ok cu) (hi : i ∈ Instruction.ofWord? w) :
    decoded cu x y pc w false = {
      aluOp := operationOf i
      aluSrc2 := getInstructionType (opcodeOf i) == .IType || getInstructionType (opcodeOf i) == .SType ||
        getInstructionType (opcodeOf i) == .UType
      isJalr := opcodeOf i == 0b1100111#8
      wbWe := !(opcodeOf i == 0b0100011#8 || opcodeOf i == 0b1100011#8 || opcodeOf i == 0b1110011#8)
      memWe := opcodeOf i == 0b0100011#8
      memToReg := opcodeOf i != 0b0000011#8
      brnCond := opcodeOf i == 0b1100011#8
      jmpCond := opcodeOf i == 0b1101111#8 || opcodeOf i == 0b1100111#8
      cmpControl := comparisonOf i
      funct3 := (Rv32i.funct3 w).setWidth 8
      data1 := multiplexer2 (opcodeOf i == 0b0110111#8) (multiplexer2 (opcodeOf i == 0b0010111#8) x pc) 0
      data2 := y
      pcDe := pc
      instr := w } := by
  rw [getOpcode_eq, getFunct3_eq, getFunct7_eq] at h
  obtain ⟨hop, halu, hcmp⟩ := tick_of hi
  obtain ⟨aluOp, cmpControl, halu', hcmp', rfl⟩ := tick_eq h
  rw [halu] at halu'
  rw [hcmp] at hcmp'
  cases halu'
  cases hcmp'
  simp only [decoded, hop]

theorem load_funct3 {w : Word} {width : Rv32i.LoadWidth} (h : Instruction.load width ∈ Instruction.ofWord? w) :
    Rv32i.funct3 w = width.funct3 := by
  unfold Instruction.ofWord? Instruction.ofFields? at h
  split at h
  case h_6 =>
    obtain ⟨v, hv, hi⟩ := Option.map_eq_some_iff.1 h
    cases hi
    exact loadWidth_of _ _ hv
  all_goals simp at h

theorem store_funct3 {w : Word} {width : Rv32i.StoreWidth} (h : Instruction.store width ∈ Instruction.ofWord? w) :
    Rv32i.funct3 w = width.funct3 := by
  unfold Instruction.ofWord? Instruction.ofFields? at h
  split at h
  case h_7 =>
    obtain ⟨v, hv, hi⟩ := Option.map_eq_some_iff.1 h
    cases hi
    exact storeWidth_of _ _ hv
  all_goals simp at h

/-- Decode and execute do what the instruction does if and only if it is an ordinary one. -/
theorem executes_iff {w pc x y : Word} {cu : ControlUnit} {i : Instruction}
    (h : ControlUnit.tick (getOpcode w) (getFunct3 w) (getFunct7 w) = .ok cu) (hi : i ∈ Instruction.ofWord? w) :
    (decoded cu x y pc w false).Executes i x y ↔ Ordinary i pc x y := by
  rw [decoded_of h hi]
  cases i with
  | lui =>
      refine iff_of_true ⟨rfl, getRd_eq w, ⟨rfl, rfl, ?_⟩, rfl⟩ (by simp [Ordinary])
      exact BitVec.zero_add _
  | auipc => exact iff_of_true ⟨rfl, getRd_eq w, ⟨rfl, rfl, rfl⟩, rfl⟩ (by simp [Ordinary])
  | jal => exact iff_of_true ⟨rfl, getRd_eq w, ⟨rfl, rfl, rfl⟩, rfl⟩ (by simp [Ordinary])
  | jalr =>
      constructor
      · intro hexec
        have htarget : pc + ((x + immediateExtensionBlock w) &&& ~~~1#32) = (x + immediateExtensionBlock w) &&& ~~~1#32 :=
          Option.some.inj hexec.target
        exact ⟨fun _ => BitVec.add_left_eq_self.1 htarget, by simp⟩
      · intro hord
        refine ⟨congrArg some ?_, getRd_eq w, ⟨rfl, rfl, rfl⟩, rfl⟩
        exact BitVec.add_left_eq_self.2 (hord.1 rfl)
  | branch c =>
      have hord : Ordinary (.branch c) pc x y ↔ Cmp (cmpControlOf c) x y = c.holds x y := by
        rw [Cmp_of]
        simp [Ordinary]
      rw [hord]
      constructor
      · intro hexec
        have htarget : (if Cmp (cmpControlOf c) x y && true then some (pc + immediateExtensionBlock w) else none) =
            if c.holds x y then some (pc + immediateExtensionBlock w) else none := hexec.target
        cases hcmp : Cmp (cmpControlOf c) x y <;> cases hholds : c.holds x y <;> simp_all
      · intro hcmp
        refine ⟨?_, getRd_eq w, rfl, rfl⟩
        change (if Cmp (cmpControlOf c) x y && true then some (pc + immediateExtensionBlock w) else none) =
          if c.holds x y then some (pc + immediateExtensionBlock w) else none
        rw [hcmp, Bool.and_true]
  | load width =>
      refine iff_of_true ⟨rfl, getRd_eq w, ⟨rfl, rfl, rfl, ?_⟩, rfl⟩ (by simp [Ordinary])
      exact congrArg (BitVec.setWidth 8) (load_funct3 hi)
  | store width =>
      refine iff_of_true ⟨rfl, getRd_eq w, rfl, ⟨rfl, rfl, rfl, ?_⟩⟩ (by simp [Ordinary])
      exact congrArg (BitVec.setWidth 8) (store_funct3 hi)
  | opImm o =>
      refine iff_of_true ⟨rfl, getRd_eq w, ⟨rfl, rfl, ?_⟩, rfl⟩ (by simp [Ordinary])
      exact ALU_of o x (immediateExtensionBlock w)
  | op o =>
      refine iff_of_true ⟨rfl, getRd_eq w, ⟨rfl, rfl, ?_⟩, rfl⟩ (by simp [Ordinary])
      exact ALU_of o x y

/-- An accepted word is executed as the instruction it encodes if and only if that is an ordinary one. -/
theorem executes_encoded_iff {w pc x y : Word} {cu : ControlUnit}
    (h : ControlUnit.tick (getOpcode w) (getFunct3 w) (getFunct7 w) = .ok cu) :
    (∃ i ∈ Instruction.ofWord? w, (decoded cu x y pc w false).Executes i x y) ↔
      ∃ i ∈ Instruction.ofWord? w, Ordinary i pc x y := by
  constructor
  · rintro ⟨i, hi, hexec⟩
    exact ⟨i, hi, (executes_iff h hi).1 hexec⟩
  · rintro ⟨i, hi, hord⟩
    exact ⟨i, hi, (executes_iff h hi).2 hord⟩

/-- The control signals of `blt x1, x2, 8`. -/
def bltSignals : ControlUnit where
  opcode := 0b1100011
  funct3 := 0b100
  memToReg := true
  brnCond := true
  cmpControl := .LT
  instrType := .BType

theorem blt_accepted : ControlUnit.tick (getOpcode 0x0020c463) (getFunct3 0x0020c463) (getFunct7 0x0020c463) = .ok bltSignals := by
  rfl

theorem executes_encoded_blt : (∃ i ∈ Instruction.ofWord? 0x0020c463, (decoded bltSignals 3 5 64 0x0020c463 false).Executes i 3 5) ↔
    ∃ i ∈ Instruction.ofWord? 0x0020c463, Ordinary i 64 3 5 :=
  executes_encoded_iff blt_accepted

/-- `blt` is not taken for minus one and one. -/
theorem blt_negative_wrong :
    ControlUnit.tick (getOpcode 0x0020c463) (getFunct3 0x0020c463) (getFunct7 0x0020c463) = .ok bltSignals ∧
      ¬∃ i ∈ Instruction.ofWord? 0x0020c463, (decoded bltSignals (-1) 1 0 0x0020c463 false).Executes i (-1) 1 := by
  refine ⟨blt_accepted, ?_⟩
  rintro ⟨i, hi, hexec⟩
  have hblt : Instruction.branch .lt = i := Option.some.inj hi
  subst hblt
  exact absurd hexec.target (by decide)

end CompilerLab.Riscv
