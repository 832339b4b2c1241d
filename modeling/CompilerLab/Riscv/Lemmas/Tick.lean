import CompilerLab.Riscv.Sequential

/-!
# What a tick does

The registers between the stages after the stages of a tick have been run, and after the whole tick.
-/

namespace CompilerLab.Riscv

variable {s s' t : Pipeline}

/-! ## Memory access and write-back -/

theorem RegFile.at_ok {f : RegFile} {a : Byte} {w : Word} (h : f.at' a = .ok w) : w = f.regs a := by
  rw [RegFile.at'] at h
  split at h
  · exact (Except.ok.inj h).symm
  · cases h

theorem RegFile.write_ok {f f' : RegFile} (h : f.write = .ok f') :
    f' = { f with regs := writeBack f.writeEnable3 f.address3 f.writeData3 f.regs } := by
  rw [RegFile.write] at h
  rw [writeBack]
  split at h
  · next hw =>
      rw [bind_eq_ok] at h
      obtain ⟨-, -, h⟩ := h
      obtain rfl := Except.ok.inj h
      rw [if_pos hw]
  · next hw =>
      obtain rfl := Except.ok.inj h
      rw [if_neg hw]

theorem RegFile.tick_ok {f f' : RegFile} (h : f.tick = .ok f') :
    f'.regs = writeBack f.writeEnable3 f.address3 f.writeData3 f.regs ∧ f'.readData1 = f'.regs f.address1 ∧
      f'.readData2 = f'.regs f.address2 := by
  simp only [RegFile.tick, bind_eq_ok] at h
  obtain ⟨f₁, h₁, r₁, hr₁, r₂, hr₂, h⟩ := h
  obtain rfl := Except.ok.inj h
  obtain rfl := RegFile.write_ok h₁
  exact ⟨rfl, RegFile.at_ok hr₁, RegFile.at_ok hr₂⟩

theorem DataMemUnit.getData_congr {m m' : DataMemUnit} (hs : m'.storeMode = m.storeMode) (ha : m'.address = m.address)
    (hm : m'.memory = m.memory) : m'.getData = m.getData := by
  rw [DataMemUnit.getData, DataMemUnit.getData, hs, ha, hm]

/-- The memory stage does the memory access of its instruction. -/
theorem Pipeline.doMemory_ok (h : s.doMemory = .ok t) : ∃ unit v,
    access s.memoryRegister.current s.dataMemUnit.memory = .ok (unit.memory, v) ∧ t = { s with
      dataMemUnit := unit
      writeBackRegister := { s.writeBackRegister with
        next := { wbWe := s.memoryRegister.current.wbWe, wbD := v, wbA := s.memoryRegister.current.wbA } }
      bpMem := s.memoryRegister.current.aluRes } := by
  simp only [Pipeline.doMemory, bind_eq_ok] at h
  obtain ⟨unit, hunit, data, hdata, h⟩ := h
  obtain rfl := Except.ok.inj h
  refine ⟨unit, _, ?_, rfl⟩
  generalize s.memoryRegister.current = mem at hunit hdata ⊢
  generalize s.dataMemUnit = m at hunit ⊢
  cases hwe : mem.memWe with
  | true =>
      simp only [hwe, Bool.or_true, if_true, DataMemUnit.tickIf, DataMemUnit.tick, DataMemUnit.setSignals, bind_eq_ok] at hunit
      obtain ⟨⟨⟩, hcheck, memory, hstore, hunit⟩ := hunit
      obtain rfl := Except.ok.inj hunit
      simp only [access, hwe, DataMemUnit.tickIf, DataMemUnit.tick, DataMemUnit.setSignals, if_true, bind_eq_ok]
      refine ⟨_, ⟨(), hcheck, memory, hstore, rfl⟩, ?_⟩
      cases hreg : mem.memToReg with
      | true => rfl
      | false =>
          simp only [Bool.false_eq_true, if_false, bind_eq_ok]
          exact ⟨data, (DataMemUnit.getData_congr rfl rfl rfl).trans hdata, rfl⟩
  | false =>
      cases hreg : mem.memToReg with
      | true =>
          simp only [hwe, hreg, Bool.not_true, Bool.or_false, DataMemUnit.tickIf, Bool.false_eq_true, if_false,
            Except.ok.injEq] at hunit
          subst hunit
          simp only [access, hwe, hreg, DataMemUnit.tickIf, Bool.false_eq_true, if_false, if_true, bind_eq_ok]
          exact ⟨_, rfl, rfl⟩
      | false =>
          simp only [hwe, hreg, Bool.not_false, Bool.true_or, DataMemUnit.tickIf, if_true, DataMemUnit.tick,
            DataMemUnit.setSignals, Bool.false_eq_true, if_false, bind_eq_ok] at hunit
          obtain ⟨r, hr, hunit⟩ := hunit
          obtain rfl := Except.ok.inj hunit
          simp only [access, hwe, hreg, DataMemUnit.tickIf, DataMemUnit.setSignals, Bool.false_eq_true, if_false, bind_eq_ok]
          exact ⟨_, rfl, data, (DataMemUnit.getData_congr rfl rfl rfl).trans hdata, rfl⟩

/-! ## The stages of a tick -/

theorem ControlUnit.tick_ok {opcode funct3 funct7 : Byte} {cu : ControlUnit}
    (h : ControlUnit.tick opcode funct3 funct7 = .ok cu) : cu.opcode = opcode ∧ cu.instrType = getInstructionType opcode ∧
      cu.wbWe = !(opcode == 0b0100011#8 || opcode == 0b1100011#8 || opcode == 0b1110011#8) ∧
      cu.memToReg = (opcode != 0b0000011#8) ∧ cu.brnCond = (opcode == 0b1100011#8) ∧
      cu.jmpCond = (opcode == 0b1101111#8 || opcode == 0b1100111#8) := by
  rw [ControlUnit.tick] at h
  split at h
  · cases h
  · split at h
    · cases h
    · simp only [bind_eq_ok] at h
      obtain ⟨aluOp, -, cmpControl, -, h⟩ := h
      obtain rfl := Except.ok.inj h
      exact ⟨rfl, rfl, rfl, rfl, rfl, rfl⟩

namespace Pipeline

/-- The instructions in the stages. -/
abbrev inDecode (s : Pipeline) : DecodeState := s.decodeRegister.current
abbrev inExecute (s : Pipeline) : ExecuteState := s.executeRegister.current
abbrev inMemory (s : Pipeline) : MemoryState := s.memoryRegister.current
abbrev inWriteBack (s : Pipeline) : WriteBackState := s.writeBackRegister.current

/-- What the execute stage is going to use for the two source registers. -/
def operand1 (s : Pipeline) : Word := s.huRs1.select s.inExecute.data1 s.inMemory.aluRes s.inWriteBack.wbD
def operand2 (s : Pipeline) : Word := s.huRs2.select s.inExecute.data2 s.inMemory.aluRes s.inWriteBack.wbD

/-- Whether the execute stage is going to redirect the program counter. -/
def redirects (s : Pipeline) : Bool := s.inExecute.redirects s.operand1 s.operand2

/-- The instruction may change the program counter. -/
def changesFlow (instr : Word) : Bool :=
  (getOpcode instr == 0b1101111#8 || getOpcode instr == 0b1100111#8) || getOpcode instr == 0b1100011#8

/-- The next tick finds out that the program counter has left the section. -/
def leaves (s : Pipeline) : Bool :=
  !s.lastInstructionsFlag && s.instrMemUnit.isPcOutOfSection s.programCounter.current && !changesFlow s.inDecode.instr

/-- The state when the stages of a tick have been run that stays in the section. -/
def staged (s : Pipeline) (unit : DataMemUnit) (v : Word) (f : RegFile) (cu : ControlUnit) (instr : Word) (n : Nat) : Pipeline :=
  { s with
    lastInstructionsCounter := n
    bpMem := s.inMemory.aluRes
    pcDisp := s.inExecute.pcDisp s.operand1 s.operand2
    pcR := s.redirects
    instrMemUnit := { s.instrMemUnit with address := s.programCounter.current }
    dataMemUnit := unit
    regFile := f
    controlUnit := cu
    programCounter := { s.programCounter with
      next := if s.redirects then s.inExecute.pcDe + s.inExecute.pcDisp s.operand1 s.operand2
        else s.programCounter.current + 4 }
    decodeRegister := { s.decodeRegister with next := { vDe := s.redirects, pcDe := s.programCounter.current, instr } }
    executeRegister := { s.executeRegister with
      next := decoded cu (f.regs (getRs1 s.inDecode.instr)) (f.regs (getRs2 s.inDecode.instr)) s.inDecode.pcDe
        s.inDecode.instr (s.redirects || s.inDecode.vDe) }
    memoryRegister := { s.memoryRegister with next := s.inExecute.executed s.operand1 s.operand2 }
    writeBackRegister := { s.writeBackRegister with next := { wbWe := s.inMemory.wbWe, wbD := v, wbA := s.inMemory.wbA } } }

/-- What the stages have done to the units. -/
structure Stages (s : Pipeline) (unit : DataMemUnit) (v : Word) (f : RegFile) (cu : ControlUnit) (instr : Word) : Prop where
  access : access s.inMemory s.dataMemUnit.memory = .ok (unit.memory, v)
  regs : f.regs = writeBack s.inWriteBack.wbWe s.inWriteBack.wbA s.inWriteBack.wbD s.regFile.regs
  control : ControlUnit.tick (getOpcode s.inDecode.instr) (getFunct3 s.inDecode.instr) (getFunct7 s.inDecode.instr) = .ok cu
  fetch : s.instrMemUnit.fetch s.programCounter.current = .ok instr

theorem doDecode_ok (h : s.doDecode = .ok t) : ∃ f cu,
    f.regs = writeBack s.inWriteBack.wbWe s.inWriteBack.wbA s.inWriteBack.wbD s.regFile.regs ∧
    ControlUnit.tick (getOpcode s.inDecode.instr) (getFunct3 s.inDecode.instr) (getFunct7 s.inDecode.instr) = .ok cu ∧
    t = { s with
      regFile := f
      controlUnit := cu
      executeRegister := { s.executeRegister with
        next := decoded cu (f.regs (getRs1 s.inDecode.instr)) (f.regs (getRs2 s.inDecode.instr)) s.inDecode.pcDe
          s.inDecode.instr (s.pcR || s.inDecode.vDe) } } := by
  simp only [doDecode, bind_eq_ok] at h
  obtain ⟨f, hf, cu, hcu, h⟩ := h
  obtain rfl := Except.ok.inj h
  obtain ⟨hregs, hread₁, hread₂⟩ := RegFile.tick_ok hf
  refine ⟨f, cu, hregs, hcu, ?_⟩
  have hsignals : f.readData1 = f.regs (getRs1 s.inDecode.instr) ∧ f.readData2 = f.regs (getRs2 s.inDecode.instr) :=
    ⟨hread₁, hread₂⟩
  rw [hsignals.1, hsignals.2]

theorem doFetch_ok {u : Pipeline} (h : s.doFetch = .ok t) (hl : s.leaveSection = .ok u) : ∃ instr n,
    u.instrMemUnit.fetch u.programCounter.current = .ok instr ∧ t = { u with
      lastInstructionsCounter := n
      instrMemUnit := { u.instrMemUnit with address := u.programCounter.current }
      programCounter := { u.programCounter with
        next := multiplexer2 u.pcR u.programCounter.current u.inExecute.pcDe + multiplexer2 u.pcR 4 u.pcDisp }
      decodeRegister := { u.decodeRegister with
        next := { u.decodeRegister.next with instr, pcDe := u.programCounter.current } } } := by
  simp only [doFetch, bind_eq_ok] at h
  obtain ⟨u', hu', h⟩ := h
  obtain rfl := Except.ok.inj (hl.symm.trans hu')
  split at h
  · cases h
  · simp only [bind_eq_ok] at h
    obtain ⟨instr, hinstr, h⟩ := h
    split at h
    · split at h
      · obtain rfl := Except.ok.inj h
        exact ⟨instr, _, hinstr, rfl⟩
      · cases h
    · obtain rfl := Except.ok.inj h
      exact ⟨instr, u.lastInstructionsCounter, hinstr, rfl⟩

/-- The two ways `leaveSection` ends a run. -/
def leftByJump (s : Pipeline) : Pipeline := { s with
  lastInstructionsFlag := true
  lastInstructionsCounter := 1
  programCounter := { s.programCounter with enableFlag := false }
  decodeRegister := { s.decodeRegister with enableFlag := false }
  executeRegister := { s.executeRegister with enableFlag := false }
  memoryRegister := { s.memoryRegister with enableFlag := false } }

def leftAtEnd (s : Pipeline) : Pipeline := { s with
  lastInstructionsFlag := true
  lastInstructionsCounter := 3
  programCounter := { s.programCounter with enableFlag := false }
  decodeRegister := { enableFlag := false, next := {}, current := {} } }

/-- The stages of a tick in which the program counter leaves the section after the last instruction. -/
def drained (s : Pipeline) (instr : Word) : Pipeline := { s with
  lastInstructionsFlag := true
  programCounter := { s.programCounter with enableFlag := false }
  decodeRegister := { enableFlag := false, next := { pcDe := s.programCounter.current, instr }, current := {} } }

/-- The stages of a tick in which the program counter has left the section by a jump. -/
def closed (s : Pipeline) : Pipeline := { s with
  lastInstructionsFlag := true
  programCounter := { s.programCounter with enableFlag := false }
  decodeRegister := { s.decodeRegister with enableFlag := false }
  executeRegister := { s.executeRegister with enableFlag := false }
  memoryRegister := { s.memoryRegister with enableFlag := false } }

/-- The stages of a tick have been run, and the registers are to take over what they have computed. -/
inductive Staged (s : Pipeline) (unit : DataMemUnit) (v : Word) (f : RegFile) (cu : ControlUnit) (instr : Word) (n : Nat) :
    Pipeline → Prop where
  | stays : s.leaves = false → Staged s unit v f cu instr n (s.staged unit v f cu instr n)
  | drains : s.leaves = true → s.inMemory.jmpCond = false → s.redirects = false →
      Staged s unit v f cu instr n ((s.staged unit v f cu instr n).drained instr)
  | closes : s.leaves = true → s.inMemory.jmpCond = true → Staged s unit v f cu instr n (s.staged unit v f cu instr n).closed

theorem tick_ok (h : s.tick = .ok s') : ∃ unit v f cu instr n k u, s.Stages unit v f cu instr ∧
    s.Staged unit v f cu instr n u ∧ s' = { u.latch.hazardUnitTick with ticksCounter := k } := by
  simp only [tick, bind_eq_ok] at h
  obtain ⟨s₁, h₁, s₃, h₃, s₄, h₄, h⟩ := h
  obtain ⟨unit, v, hunit, rfl⟩ := doMemory_ok h₁
  obtain ⟨f, cu, hregs, hcu, hs₃⟩ := doDecode_ok h₃
  have hcontrol : ControlUnit.tick (getOpcode s.inDecode.instr) (getFunct3 s.inDecode.instr)
    (getFunct7 s.inDecode.instr) = .ok cu := hcu
  obtain ⟨-, -, -, -, hbrn, hjmp⟩ := ControlUnit.tick_ok hcontrol
  have hnext : multiplexer2 s.redirects s.programCounter.current s.inExecute.pcDe +
      multiplexer2 s.redirects 4 (s.inExecute.pcDisp s.operand1 s.operand2) =
      if s.redirects then s.inExecute.pcDe + s.inExecute.pcDisp s.operand1 s.operand2 else s.programCounter.current + 4 := by
    cases s.redirects <;> rfl
  have hcond : (!s₃.lastInstructionsFlag && s₃.instrMemUnit.isPcOutOfSection s₃.programCounter.current &&
      !(s₃.executeRegister.next.jmpCond || s₃.executeRegister.next.brnCond)) = s.leaves := by
    rw [leaves, changesFlow, ← hbrn, ← hjmp, hs₃]
    rfl
  have hpcR : s₃.pcR = s.redirects := by rw [hs₃]; rfl
  have hmem : s₃.memoryRegister.current.jmpCond = s.inMemory.jmpCond := by rw [hs₃]; rfl
  cases hl : s.leaves with
  | false =>
      obtain ⟨instr, n, hfetch, hs₄⟩ := doFetch_ok (u := s₃) h₄ (if_neg (by rw [hcond, hl]; exact Bool.false_ne_true))
      have hstaged : s₄ = s.staged unit v f cu instr n := by
        rw [hs₄, hs₃, staged, ← hnext]
        rfl
      rw [hs₃] at hfetch
      exact ⟨unit, v, f, cu, instr, n, _, s₄, ⟨hunit, hregs, hcontrol, hfetch⟩, hstaged ▸ .stays hl, (Except.ok.inj h).symm⟩
  | true =>
      have hleave : s₃.leaveSection = if s.inMemory.jmpCond then .ok s₃.leftByJump
          else if !s.redirects then .ok s₃.leftAtEnd else .error (.logic_error "out_of_instr_section") := by
        rw [← hmem, ← hpcR]
        exact if_pos (by rw [hcond, hl])
      cases hj : s.inMemory.jmpCond with
      | true =>
          rw [hj, if_pos rfl] at hleave
          obtain ⟨instr, n, hfetch, hs₄⟩ := doFetch_ok h₄ hleave
          have hstaged : s₄ = (s.staged unit v f cu instr n).closed := by
            rw [hs₄, hs₃, staged, ← hnext]
            rfl
          rw [hs₃] at hfetch
          exact ⟨unit, v, f, cu, instr, n, _, s₄, ⟨hunit, hregs, hcontrol, hfetch⟩, hstaged ▸ .closes hl hj,
            (Except.ok.inj h).symm⟩
      | false =>
          rw [hj, if_neg Bool.false_ne_true] at hleave
          cases hr : s.redirects with
          | true =>
              rw [hr] at hleave
              simp only [doFetch, bind_eq_ok] at h₄
              obtain ⟨u, hu, -⟩ := h₄
              cases hleave.symm.trans hu
          | false =>
              rw [hr] at hleave
              obtain ⟨instr, n, hfetch, hs₄⟩ := doFetch_ok h₄ hleave
              have hstaged : s₄ = (s.staged unit v f cu instr n).drained instr := by
                rw [hs₄, hs₃, staged, ← hnext]
                rfl
              rw [hs₃] at hfetch
              exact ⟨unit, v, f, cu, instr, n, _, s₄, ⟨hunit, hregs, hcontrol, hfetch⟩, hstaged ▸ .drains hl hj hr,
                (Except.ok.inj h).symm⟩

theorem tick_stays (h : s.tick = .ok s') (hl : s.leaves = false) : ∃ unit v f cu instr n k, s.Stages unit v f cu instr ∧
    s' = { (s.staged unit v f cu instr n).latch.hazardUnitTick with ticksCounter := k } := by
  obtain ⟨unit, v, f, cu, instr, n, k, u, hst, hu, rfl⟩ := tick_ok h
  cases hu with
  | stays => exact ⟨unit, v, f, cu, instr, n, k, hst, rfl⟩
  | drains hl' => simp [hl] at hl'
  | closes hl' => simp [hl] at hl'

/-! ## The end of a tick -/

/-- The registers of the last two stages are enabled, the others are as `b` says. -/
structure Enabled (s : Pipeline) (b : Bool) : Prop where
  programCounter : s.programCounter.enableFlag = b
  decode : s.decodeRegister.enableFlag = b
  execute : s.executeRegister.enableFlag = b
  memory : s.memoryRegister.enableFlag = true
  writeBack : s.writeBackRegister.enableFlag = true

/-- The hazard unit halts the pipeline for an instruction of the given type in the execute stage. -/
def halts (s : Pipeline) (type : InstructionType) : Bool :=
  s.loadConflict (hasRs1 type) (getRs1 s.inExecute.instr) || s.loadConflict (hasRs2 type) (getRs2 s.inExecute.instr)

/-- The hazard unit has seen no redirection, and takes the instruction in the execute stage for one of the given type. -/
structure Hazard (s : Pipeline) (type : InstructionType) : Prop where
  pcR : s.pcR = false
  huRs1 : s.huRs1 = s.bypass (hasRs1 type) (getRs1 s.inExecute.instr)
  huRs2 : s.huRs2 = s.bypass (hasRs2 type) (getRs2 s.inExecute.instr)
  enabled : s.Enabled !s.halts type

theorem hazardUnitTick_eq (hp : s.pcR = false) : s.hazardUnitTick =
    if s.halts s.controlUnit.instrType then
      { s with
        huRs1 := s.bypass (hasRs1 s.controlUnit.instrType) (getRs1 s.inExecute.instr)
        huRs2 := s.bypass (hasRs2 s.controlUnit.instrType) (getRs2 s.inExecute.instr) }.haltPipeline
    else
      { s with
        huRs1 := s.bypass (hasRs1 s.controlUnit.instrType) (getRs1 s.inExecute.instr)
        huRs2 := s.bypass (hasRs2 s.controlUnit.instrType) (getRs2 s.inExecute.instr) }.restartPipeline :=
  if_neg (by simp [hp])

/-- The two states have the same units and the same instructions in the stages. -/
structure Same (s t : Pipeline) : Prop where
  dataMemUnit : t.dataMemUnit = s.dataMemUnit
  regFile : t.regFile = s.regFile
  controlUnit : t.controlUnit = s.controlUnit
  instrMemUnit : t.instrMemUnit = s.instrMemUnit
  lastInstructionsFlag : t.lastInstructionsFlag = s.lastInstructionsFlag
  programCounter : t.programCounter.current = s.programCounter.current
  inDecode : t.inDecode = s.inDecode
  inExecute : t.inExecute = s.inExecute
  inMemory : t.inMemory = s.inMemory
  inWriteBack : t.inWriteBack = s.inWriteBack

theorem hazard_spec (hp : s.pcR = false) (hm : s.memoryRegister.enableFlag = true)
    (hw : s.writeBackRegister.enableFlag = true) :
    s.hazardUnitTick.Hazard s.controlUnit.instrType ∧ s.Same s.hazardUnitTick := by
  rw [hazardUnitTick_eq hp]
  cases hh : s.halts s.controlUnit.instrType with
  | true =>
      refine ⟨⟨hp, rfl, rfl, ⟨?_, ?_, ?_, hm, hw⟩⟩, ⟨rfl, rfl, rfl, rfl, rfl, rfl, rfl, rfl, rfl, rfl⟩⟩
      all_goals exact (congrArg not hh).symm
  | false =>
      refine ⟨⟨hp, rfl, rfl, ⟨?_, ?_, ?_, hm, hw⟩⟩, ⟨rfl, rfl, rfl, rfl, rfl, rfl, rfl, rfl, rfl, rfl⟩⟩
      all_goals exact (congrArg not hh).symm

theorem Hazard.ticks {type : InstructionType} {k : Nat} (h : s.Hazard type) :
    Hazard { s with ticksCounter := k } type where
  pcR := h.pcR
  huRs1 := h.huRs1
  huRs2 := h.huRs2
  enabled := by
    have hh : halts { s with ticksCounter := k } type = s.halts type := rfl
    rw [hh]
    exact ⟨h.enabled.programCounter, h.enabled.decode, h.enabled.execute, h.enabled.memory, h.enabled.writeBack⟩

/-! ## The registers at the end of a tick -/

@[simp] theorem latch_pcR : s.latch.pcR = s.pcR := by
  unfold latch
  split <;> rfl

@[simp] theorem latch_controlUnit : s.latch.controlUnit = s.controlUnit := by
  unfold latch
  split <;> rfl

@[simp] theorem latch_dataMemUnit : s.latch.dataMemUnit = s.dataMemUnit := by
  unfold latch
  split <;> rfl

@[simp] theorem latch_regFile : s.latch.regFile = s.regFile := by
  unfold latch
  split <;> rfl

@[simp] theorem latch_instrMemUnit : s.latch.instrMemUnit = s.instrMemUnit := by
  unfold latch
  split <;> rfl

@[simp] theorem latch_lastInstructionsFlag : s.latch.lastInstructionsFlag = s.lastInstructionsFlag := by
  unfold latch
  split <;> rfl

@[simp] theorem latch_programCounter : s.latch.programCounter = s.programCounter.tick := by
  unfold latch
  split <;> rfl

@[simp] theorem latch_decodeRegister : s.latch.decodeRegister = s.decodeRegister.tick := by
  unfold latch
  split <;> rfl

@[simp] theorem latch_executeRegister : s.latch.executeRegister = s.executeRegister.tick := by
  unfold latch
  split <;> rfl

@[simp] theorem latch_writeBackRegister : s.latch.writeBackRegister = s.writeBackRegister.tick := by
  unfold latch
  split <;> rfl

theorem latch_memoryRegister : s.latch.memoryRegister =
    if s.programCounter.enableFlag then s.memoryRegister.tick else (s.memoryRegister.clear {}).tick := by
  unfold latch
  split <;> rfl

/-! ## Kinds of ticks -/

/-- What every tick that stays in the section does to the units and to the write-back stage. -/
structure Units (s s' : Pipeline) (unit : DataMemUnit) (v : Word) (f : RegFile) (cu : ControlUnit) : Prop where
  dataMemUnit : s'.dataMemUnit = unit
  regFile : s'.regFile = f
  controlUnit : s'.controlUnit = cu
  instrMemUnit : s'.instrMemUnit = { s.instrMemUnit with address := s.programCounter.current }
  lastInstructionsFlag : s'.lastInstructionsFlag = s.lastInstructionsFlag
  inWriteBack : s'.inWriteBack = { wbWe := s.inMemory.wbWe, wbD := v, wbA := s.inMemory.wbA }

variable {unit : DataMemUnit} {v instr : Word} {f : RegFile} {cu : ControlUnit} {n k : Nat} {b : Bool}

theorem Same.units {u : Pipeline} (he : s.Enabled b) (hs : (s.staged unit v f cu instr n).latch.Same u) :
    s.Units { u with ticksCounter := k } unit v f cu where
  dataMemUnit := hs.dataMemUnit.trans latch_dataMemUnit
  regFile := hs.regFile.trans latch_regFile
  controlUnit := hs.controlUnit.trans latch_controlUnit
  instrMemUnit := hs.instrMemUnit.trans latch_instrMemUnit
  lastInstructionsFlag := hs.lastInstructionsFlag.trans latch_lastInstructionsFlag
  inWriteBack := hs.inWriteBack.trans (by simp [Pipeline.inWriteBack, staged, Register.tick, he.writeBack])

variable (unit v f cu instr n) in
theorem staged_hazard (he : s.Enabled b) (hr : s.redirects = false) :
    (s.staged unit v f cu instr n).latch.hazardUnitTick.Hazard cu.instrType ∧
      (s.staged unit v f cu instr n).latch.Same (s.staged unit v f cu instr n).latch.hazardUnitTick := by
  have hm : (s.staged unit v f cu instr n).latch.memoryRegister.enableFlag = true := by
    rw [latch_memoryRegister]
    split <;> simp [staged, Register.tick, Register.clear, he.memory]
  have hw : (s.staged unit v f cu instr n).latch.writeBackRegister.enableFlag = true := by
    simp [staged, Register.tick, he.writeBack]
  obtain ⟨hz, hs⟩ := hazard_spec (latch_pcR.trans hr) hm hw
  rw [latch_controlUnit] at hz
  exact ⟨hz, hs⟩

/-- All instructions move on. -/
theorem tick_flows (h : s.tick = .ok s') (he : s.Enabled true) (hl : s.leaves = false) (hr : s.redirects = false) :
    ∃ unit v f cu instr, s.Stages unit v f cu instr ∧ s.Units s' unit v f cu ∧ s'.Hazard cu.instrType ∧
      s'.inMemory = s.inExecute.executed s.operand1 s.operand2 ∧
      s'.inExecute = decoded cu (f.regs (getRs1 s.inDecode.instr)) (f.regs (getRs2 s.inDecode.instr)) s.inDecode.pcDe
        s.inDecode.instr s.inDecode.vDe ∧
      s'.inDecode = { vDe := false, pcDe := s.programCounter.current, instr } ∧
      s'.programCounter.current = s.programCounter.current + 4 := by
  obtain ⟨unit, v, f, cu, instr, n, k, hst, rfl⟩ := tick_stays h hl
  obtain ⟨hz, hs⟩ := staged_hazard unit v instr f cu n he hr
  refine ⟨unit, v, f, cu, instr, hst, hs.units he, hz.ticks, hs.inMemory.trans ?_, hs.inExecute.trans ?_,
    hs.inDecode.trans ?_, hs.programCounter.trans ?_⟩
  · have hpc : (s.staged unit v f cu instr n).programCounter.enableFlag = true := he.programCounter
    rw [inMemory, latch_memoryRegister, if_pos hpc]
    simp [staged, Register.tick, he.memory]
  · simp [inExecute, staged, Register.tick, he.execute, hr]
  · simp [inDecode, staged, Register.tick, he.decode, hr]
  · simp [staged, Register.tick, he.programCounter, hr]

/-- The instructions in decode and in execute are held. -/
theorem tick_holds (h : s.tick = .ok s') (he : s.Enabled false) (hl : s.leaves = false) (hr : s.redirects = false) :
    ∃ unit v f cu instr, s.Stages unit v f cu instr ∧ s.Units s' unit v f cu ∧ s'.Hazard cu.instrType ∧
      s'.inMemory = {} ∧ s'.inExecute = s.inExecute ∧ s'.inDecode = s.inDecode ∧
      s'.programCounter.current = s.programCounter.current := by
  obtain ⟨unit, v, f, cu, instr, n, k, hst, rfl⟩ := tick_stays h hl
  obtain ⟨hz, hs⟩ := staged_hazard unit v instr f cu n he hr
  refine ⟨unit, v, f, cu, instr, hst, hs.units he, hz.ticks, hs.inMemory.trans ?_, hs.inExecute.trans ?_,
    hs.inDecode.trans ?_, hs.programCounter.trans ?_⟩
  · have hpc : (s.staged unit v f cu instr n).programCounter.enableFlag = false := he.programCounter
    rw [inMemory, latch_memoryRegister, hpc]
    simp [staged, Register.tick, Register.clear, he.memory]
  · simp [inExecute, staged, Register.tick, he.execute]
  · simp [inDecode, staged, Register.tick, he.decode]
  · simp [staged, Register.tick, he.programCounter]

/-- The execute stage redirects the program counter, and the two instructions after its own are dropped. -/
theorem tick_redirects (h : s.tick = .ok s') (he : s.Enabled true) (hl : s.leaves = false) (hr : s.redirects = true) :
    ∃ unit v f cu instr, s.Stages unit v f cu instr ∧ s.Units s' unit v f cu ∧ s'.pcR = true ∧ s'.Enabled true ∧
      s'.inMemory = s.inExecute.executed s.operand1 s.operand2 ∧ s'.inExecute = {} ∧ s'.inDecode = {} ∧
      s'.programCounter.current = s.inExecute.pcDe + s.inExecute.pcDisp s.operand1 s.operand2 := by
  obtain ⟨unit, v, f, cu, instr, n, k, hst, rfl⟩ := tick_stays h hl
  obtain ⟨u, hu⟩ : ∃ u, u = (s.staged unit v f cu instr n).latch := ⟨_, rfl⟩
  have hhazard : u.hazardUnitTick =
      { u with decodeRegister := u.decodeRegister.clear {}, executeRegister := u.executeRegister.clear {} } := by
    have hp : u.pcR = true := by rw [hu, latch_pcR]; exact hr
    exact if_pos hp
  have hpc : (s.staged unit v f cu instr n).programCounter.enableFlag = true := he.programCounter
  have hmem : u.memoryRegister = (s.staged unit v f cu instr n).memoryRegister.tick := by
    rw [hu, latch_memoryRegister, if_pos hpc]
  rw [← hu, hhazard]
  refine ⟨unit, v, f, cu, instr, hst, ⟨?_, ?_, ?_, ?_, ?_, ?_⟩, ?_, ⟨?_, ?_, ?_, ?_, ?_⟩, ?_, rfl, rfl, ?_⟩
  · simp [hu, staged]
  · simp [hu, staged]
  · simp [hu, staged]
  · simp [hu, staged]
  · simp [hu, staged]
  · simp [inWriteBack, hu, staged, Register.tick, he.writeBack]
  · simp [hu, staged, hr]
  · simp [hu, staged, Register.tick, he.programCounter]
  · simp [hu, staged, Register.tick, Register.clear, he.decode]
  · simp [hu, staged, Register.tick, Register.clear, he.execute]
  · simp [hmem, staged, Register.tick, he.memory]
  · simp [hu, staged, Register.tick, he.writeBack]
  · simp [inMemory, hmem, staged, Register.tick, he.memory]
  · simp [hu, staged, Register.tick, he.programCounter, hr]

end Pipeline

end CompilerLab.Riscv
