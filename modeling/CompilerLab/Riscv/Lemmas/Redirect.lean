import CompilerLab.Riscv.Lemmas.Tick

/-!
# What the stages hold

The invariant of the registers between the stages, and the stages of a tick as computations that may throw.
-/

namespace CompilerLab.Riscv

/-! ## Register numbers -/

theorem and_mask_lt (w : Word) : ((w &&& 0x1f#32).setWidth 8).toNat < 32 := by
  have h : (w &&& 0x1f#32).toNat ≤ 31 := by
    rw [BitVec.toNat_and]
    exact Nat.and_le_right
  rw [BitVec.toNat_setWidth]
  omega

theorem getRs1_lt (w : Word) : (getRs1 w).toNat < 32 := and_mask_lt _

theorem getRs2_lt (w : Word) : (getRs2 w).toNat < 32 := and_mask_lt _

theorem getRd_lt (w : Word) : (getRd w).toNat < 32 := and_mask_lt _

namespace RegFile

variable {f : RegFile}

theorem at_of_lt {a : Byte} (h : a.toNat < 32) : f.at' a = .ok (f.regs a) := if_pos h

theorem write_of_lt (h : f.address3.toNat < 32) :
    f.write = .ok { f with regs := writeBack f.writeEnable3 f.address3 f.writeData3 f.regs } := by
  rw [write, writeBack]
  split
  · rw [at_of_lt h]
    rfl
  · rfl

/-- The register file never throws on numbers of five bits. -/
theorem tick_of_lt (h₁ : f.address1.toNat < 32) (h₂ : f.address2.toNat < 32) (h₃ : f.address3.toNat < 32) :
    ∃ f', f.tick = .ok f' :=
  ⟨_, bind_eq_ok.2 ⟨_, write_of_lt h₃, bind_eq_ok.2 ⟨_, at_of_lt h₁, bind_eq_ok.2 ⟨_, at_of_lt h₂, rfl⟩⟩⟩⟩

end RegFile

namespace Pipeline

variable {s s' t : Pipeline}

/-! ## The invariant -/

/-- What the registers between the stages hold in every state of a run. The memory register is switched off only when the
run ends, and an instruction that jumps has nothing behind it. -/
structure Formed (s : Pipeline) : Prop where
  wbA_memory : s.inMemory.wbA.toNat < 32
  wbA_writeBack : s.inWriteBack.wbA.toNat < 32
  switchedOff : s.memoryRegister.enableFlag = false → s.inMemory = {}
  jumped : s.inMemory.jmpCond = true → s.inExecute = {}
  writeBack : s.writeBackRegister.enableFlag = true

theorem initial_formed (unit : InstrMemUnit) (m : Machine) : (initial unit m).Formed where
  wbA_memory := Nat.zero_lt_succ 31
  wbA_writeBack := Nat.zero_lt_succ 31
  switchedOff _ := rfl
  jumped h := nomatch h
  writeBack := rfl

@[simp] theorem hazardUnitTick_memoryRegister : s.hazardUnitTick.memoryRegister = s.memoryRegister := by
  rw [hazardUnitTick]
  split
  · rfl
  · dsimp only
    split <;> rfl

@[simp] theorem hazardUnitTick_writeBackRegister : s.hazardUnitTick.writeBackRegister = s.writeBackRegister := by
  rw [hazardUnitTick]
  split
  · rfl
  · dsimp only
    split <;> rfl

theorem hazardUnitTick_inExecute : s.hazardUnitTick.inExecute = if s.pcR then {} else s.inExecute := by
  rw [hazardUnitTick]
  split
  · rfl
  · dsimp only
    split <;> rfl

variable {unit : DataMemUnit} {v instr : Word} {f : RegFile} {cu : ControlUnit} {n k : Nat} {u : Pipeline}

namespace Staged

theorem pcR (h : s.Staged unit v f cu instr n u) : u.pcR = s.redirects := by
  cases h <;> rfl

theorem next_memory (h : s.Staged unit v f cu instr n u) :
    u.memoryRegister.next = s.inExecute.executed s.operand1 s.operand2 := by
  cases h <;> rfl

theorem inMemory (h : s.Staged unit v f cu instr n u) : u.inMemory = s.inMemory := by
  cases h <;> rfl

theorem writeBackRegister (h : s.Staged unit v f cu instr n u) : u.writeBackRegister = { s.writeBackRegister with
    next := { wbWe := s.inMemory.wbWe, wbD := v, wbA := s.inMemory.wbA } } := by
  cases h <;> rfl

/-- The memory register is switched off together with the program counter. -/
theorem switchedOff (h : s.Staged unit v f cu instr n u) (hu : u.memoryRegister.enableFlag = false)
    (hp : u.programCounter.enableFlag = true) : s.memoryRegister.enableFlag = false := by
  cases h with
  | stays => exact hu
  | drains => exact hu
  | closes => cases hp

end Staged

/-- The memory stage is left empty, keeps what it has, or takes over what the execute stage hands it. -/
theorem latch_inMemory (u : Pipeline) : u.latch.inMemory = {} ∨
    u.programCounter.enableFlag = true ∧ u.memoryRegister.enableFlag = false ∧ u.latch.inMemory = u.inMemory ∨
    u.programCounter.enableFlag = true ∧ u.memoryRegister.enableFlag = true ∧ u.latch.inMemory = u.memoryRegister.next := by
  rw [inMemory, latch_memoryRegister]
  cases hp : u.programCounter.enableFlag with
  | false =>
      left
      rw [if_neg Bool.false_ne_true, Register.tick]
      split <;> rfl
  | true =>
      right
      rw [if_pos rfl, Register.tick]
      cases hm : u.memoryRegister.enableFlag with
      | false => exact .inl ⟨rfl, rfl, rfl⟩
      | true => exact .inr ⟨rfl, rfl, rfl⟩

theorem tick_formed (hs : s.Formed) (h : s.tick = .ok s') : s'.Formed := by
  obtain ⟨unit, v, f, cu, instr, n, k, u, -, hu, rfl⟩ := tick_ok h
  have hmemory : { u.latch.hazardUnitTick with ticksCounter := k }.inMemory = u.latch.inMemory :=
    congrArg Register.current hazardUnitTick_memoryRegister
  have hexecute : { u.latch.hazardUnitTick with ticksCounter := k }.inExecute =
      if s.redirects then {} else u.latch.inExecute := by
    rw [← hu.pcR, ← latch_pcR]
    exact hazardUnitTick_inExecute
  have hback : { u.latch.hazardUnitTick with ticksCounter := k }.writeBackRegister = u.writeBackRegister.tick := by
    rw [← latch_writeBackRegister]
    exact hazardUnitTick_writeBackRegister
  have hoff : u.programCounter.enableFlag = true → u.memoryRegister.enableFlag = false → u.inMemory = {} := fun hp hm =>
    hu.inMemory.trans (hs.switchedOff (hu.switchedOff hm hp))
  refine ⟨?_, ?_, ?_, ?_, ?_⟩
  · rw [hmemory]
    rcases latch_inMemory u with he | ⟨hp, hm, he⟩ | ⟨-, -, he⟩
    · rw [he]
      decide
    · rw [he, hoff hp hm]
      decide
    · rw [he, hu.next_memory]
      exact getRd_lt _
  · rw [inWriteBack, hback, hu.writeBackRegister, Register.tick, if_pos hs.writeBack]
    exact hs.wbA_memory
  · rw [hmemory]
    intro hf
    have hoff' : u.latch.memoryRegister.enableFlag = false := by
      rw [← hazardUnitTick_memoryRegister]
      exact hf
    rcases latch_inMemory u with he | ⟨hp, hm, he⟩ | ⟨hp, hm, -⟩
    · exact he
    · rw [he, hoff hp hm]
    · rw [latch_memoryRegister, if_pos hp, Register.tick, if_pos hm, hm] at hoff'
      cases hoff'
  · rw [hmemory, hexecute]
    intro hj
    rcases latch_inMemory u with he | ⟨hp, hm, he⟩ | ⟨-, -, he⟩
    · rw [he] at hj
      cases hj
    · rw [he, hoff hp hm] at hj
      cases hj
    · rw [he, hu.next_memory] at hj
      have hr : s.redirects = true := by
        rw [redirects, ExecuteState.redirects]
        exact (congrArg (· || _) hj).trans (Bool.true_or _)
      rw [if_pos hr]
  · rw [hback, hu.writeBackRegister, Register.tick, if_pos hs.writeBack]
    exact hs.writeBack

theorem Ticks.formed {m : Machine} {unit : InstrMemUnit} (h : (initial unit m).Ticks n s) : s.Formed := by
  induction h with
  | zero => exact initial_formed unit m
  | succ _ hstep ih => exact tick_formed ih hstep

/-! ## The stages as computations -/

/-- The state in which the fetch of a tick starts, when the memory stage has led to `t`. -/
structure Fetches (s t u : Pipeline) : Prop where
  dataMemUnit : u.dataMemUnit = t.dataMemUnit
  regs : u.regFile.regs = writeBack s.inWriteBack.wbWe s.inWriteBack.wbA s.inWriteBack.wbD s.regFile.regs
  pcR : u.pcR = s.redirects
  pcDisp : u.pcDisp = s.inExecute.pcDisp s.operand1 s.operand2
  instrMemUnit : u.instrMemUnit = s.instrMemUnit
  programCounter : u.programCounter = s.programCounter
  inExecute : u.inExecute = s.inExecute
  memoryRegister : u.memoryRegister = { s.memoryRegister with next := s.inExecute.executed s.operand1 s.operand2 }
  writeBackRegister : u.writeBackRegister = t.writeBackRegister
  lastInstructionsFlag : u.lastInstructionsFlag = s.lastInstructionsFlag
  lastInstructionsCounter : u.lastInstructionsCounter = s.lastInstructionsCounter
  leaves : (!u.lastInstructionsFlag && u.instrMemUnit.isPcOutOfSection u.programCounter.current &&
    !(u.executeRegister.next.jmpCond || u.executeRegister.next.brnCond)) = s.leaves

/-- The control word of the instruction in decode. -/
def control (s : Pipeline) : Except Exception ControlUnit :=
  ControlUnit.tick (getOpcode s.inDecode.instr) (getFunct3 s.inDecode.instr) (getFunct7 s.inDecode.instr)

theorem doDecode_eq (hs : s.inWriteBack.wbA.toNat < 32) : ∃ f,
    f.regs = writeBack s.inWriteBack.wbWe s.inWriteBack.wbA s.inWriteBack.wbD s.regFile.regs ∧
    s.doDecode = s.control.map fun cu => { s with
      regFile := f
      controlUnit := cu
      executeRegister := { s.executeRegister with
        next := decoded cu f.readData1 f.readData2 s.inDecode.pcDe s.inDecode.instr (s.pcR || s.inDecode.vDe) } } := by
  obtain ⟨f, hf⟩ := RegFile.tick_of_lt (f := s.regFile.setNewSignals (getRs1 s.inDecode.instr) (getRs2 s.inDecode.instr)
    s.inWriteBack.wbA s.inWriteBack.wbWe s.inWriteBack.wbD) (getRs1_lt _) (getRs2_lt _) hs
  refine ⟨f, (RegFile.tick_ok hf).1, ?_⟩
  rw [doDecode, hf]
  change Except.bind s.control _ = _
  cases s.control with
  | error e => rfl
  | ok cu => rfl

theorem doFetch_eq (h : s.leaveSection = .ok s) : s.doFetch =
    if (multiplexer2 s.pcR s.programCounter.current s.inExecute.pcDe + multiplexer2 s.pcR 4 s.pcDisp).toNat % 4 ≠ 0 then
      .error (.AlignmentException ("pc is not aligned: pc_next == " ++
        toString (multiplexer2 s.pcR s.programCounter.current s.inExecute.pcDe + multiplexer2 s.pcR 4 s.pcDisp).toNat))
    else do
      let instr ← s.instrMemUnit.fetch s.programCounter.current
      if s.lastInstructionsFlag = true ∧ s.lastInstructionsCounter = 0 then .error (.logic_error "out_of_instr_section")
      else return { s with
        lastInstructionsCounter := if s.lastInstructionsFlag then s.lastInstructionsCounter - 1 else s.lastInstructionsCounter
        instrMemUnit := { s.instrMemUnit with address := s.programCounter.current }
        programCounter := { s.programCounter with
          next := multiplexer2 s.pcR s.programCounter.current s.inExecute.pcDe + multiplexer2 s.pcR 4 s.pcDisp }
        decodeRegister := { s.decodeRegister with
          next := { s.decodeRegister.next with instr, pcDe := s.programCounter.current } } } := by
  rw [doFetch, h]
  refine ite_congr rfl (fun _ => rfl) fun _ => ?_
  refine congrArg (Except.bind (s.instrMemUnit.fetch s.programCounter.current)) (funext fun instr => ?_)
  cases hf : s.lastInstructionsFlag with
  | false => simp
  | true =>
      by_cases hn : s.lastInstructionsCounter = 0
      · simp [hn]
      · simp [hn]

/-- A tick up to the fetch. -/
theorem tick_eq (hs : s.inWriteBack.wbA.toNat < 32) (hm : s.doMemory = .ok t) :
    (∃ e, s.control = .error e ∧ s.tick = .error e) ∨
    ∃ cu u, s.control = .ok cu ∧ s.Fetches t u ∧
      s.tick = u.doFetch.map fun w => { w.latch.hazardUnitTick with ticksCounter := w.latch.hazardUnitTick.ticksCounter + 1 } := by
  obtain ⟨unit, v, -, rfl⟩ := doMemory_ok hm
  generalize ht : { s with
    dataMemUnit := unit
    writeBackRegister := { s.writeBackRegister with next := { wbWe := s.inMemory.wbWe, wbD := v, wbA := s.inMemory.wbA } }
    bpMem := s.inMemory.aluRes } = t at hm
  have hcontrol : t.doExecute.control = s.control := by rw [← ht]; rfl
  obtain ⟨f, hregs, hdecode⟩ := doDecode_eq (s := t.doExecute) (by rw [← ht]; exact hs)
  rw [tick, hm]
  change (∃ e, _ ∧ Except.bind t.doExecute.doDecode _ = _) ∨ ∃ cu u, _ ∧ _ ∧ Except.bind t.doExecute.doDecode _ = _
  rw [hdecode, hcontrol]
  cases hc : s.control with
  | error e => exact .inl ⟨e, rfl, rfl⟩
  | ok cu =>
      obtain ⟨-, -, -, -, hbrn, hjmp⟩ := ControlUnit.tick_ok hc
      have hflow : (!(t.doExecute).lastInstructionsFlag &&
          t.doExecute.instrMemUnit.isPcOutOfSection t.doExecute.programCounter.current && !(cu.jmpCond || cu.brnCond)) = s.leaves := by
        rw [leaves, changesFlow, ← hbrn, ← hjmp, ← ht]
        rfl
      refine .inr ⟨cu, _, rfl, ⟨?_, ?_, ?_, ?_, ?_, ?_, ?_, ?_, ?_, ?_, ?_, hflow⟩, rfl⟩
      all_goals
        rw [← ht] at hregs ⊢
        first | rfl | exact hregs

end Pipeline

end CompilerLab.Riscv
