import CompilerLab.Riscv.Lemmas.Redirect

/-!
# Instructions of the wrong path

Behind an instruction that redirects the program counter two more have been fetched when it is executed: one is in decode and
the other is being fetched in the same tick.
-/

namespace CompilerLab.Riscv.Pipeline

variable {unit : InstrMemUnit} {m : Machine} {n : Nat} {s s' t u : Pipeline}

/-- Where the instruction in the execute stage sends the program counter. -/
def target (s : Pipeline) : Word := s.inExecute.pcDe + s.inExecute.pcDisp s.operand1 s.operand2

/-- What a redirecting tick from `s` to `s'` is to do when the memory stage has led to `t`. The instructions before the
redirecting one have their effects, and no stage holds an instruction that has been fetched after it. -/
structure Redirected (s t s' : Pipeline) : Prop where
  dataMemUnit : s'.dataMemUnit = t.dataMemUnit
  regs : s'.regFile.regs = writeBack s.inWriteBack.wbWe s.inWriteBack.wbA s.inWriteBack.wbD s.regFile.regs
  programCounter : s'.programCounter.current = s.target
  inDecode : s'.inDecode = {}
  inExecute : s'.inExecute = {}
  inMemory : s'.inMemory = s.inExecute.executed s.operand1 s.operand2 ∨ s'.inMemory = {}
  inWriteBack : s'.inWriteBack = t.writeBackRegister.next

/-- The wrong path is harmless in a tick: only the memory access of an earlier instruction or the target of the redirection
may raise an exception, and otherwise the program counter is redirected. -/
def Harmless (s : Pipeline) : Prop :=
  match s.doMemory with
  | .error e => s.tick = .error e
  | .ok t =>
    if s.target.toNat % 4 ≠ 0 then
      s.tick = .error (.AlignmentException ("pc is not aligned: pc_next == " ++ toString s.target.toNat))
    else ∃ s', s.tick = .ok s' ∧ s.Redirected t s'

/-- The exception is of an earlier instruction, or the instruction in decode is accepted by the control unit and does not end
the run, the next word can be fetched, and the redirection is not lost. -/
def Squashes (s : Pipeline) : Prop :=
  s.doMemory.isOk = false ∨ s.control.isOk = true ∧ s.leaves = false ∧ (s.target.toNat % 4 ≠ 0 ∨
    (s.instrMemUnit.fetch s.programCounter.current).isOk = true ∧
    ¬ (s.lastInstructionsFlag = true ∧ s.lastInstructionsCounter = 0) ∧
    (s.programCounter.enableFlag = true ∨ s.target = s.programCounter.current))

/-- What is in an empty execute stage neither writes nor redirects. -/
theorem empty_executed (x y : Word) : (({} : ExecuteState).executed x y).memWe = false ∧
    (({} : ExecuteState).executed x y).wbWe = false ∧ ({} : ExecuteState).redirects x y = false :=
  ⟨rfl, rfl, rfl⟩

theorem Formed.not_jumped (hs : s.Formed) (hr : s.redirects = true) : s.inMemory.jmpCond = false := by
  rw [Bool.eq_false_iff]
  intro hj
  rw [redirects, hs.jumped hj, (empty_executed _ _).2.2] at hr
  cases hr

namespace Fetches

theorem leaveSection_of (hu : s.Fetches t u) (hl : s.leaves = false) : u.leaveSection = .ok u := by
  rw [leaveSection, hu.leaves, hl]
  rfl

/-- A redirection out of the section ends the run. -/
theorem leaveSection_throws (hs : s.Formed) (hu : s.Fetches t u) (hr : s.redirects = true) (hl : s.leaves = true) :
    u.leaveSection = .error (.logic_error "out_of_instr_section") := by
  have hj : u.memoryRegister.current.jmpCond = false := by
    rw [hu.memoryRegister]
    exact hs.not_jumped hr
  rw [leaveSection, hu.leaves, hl, hj, hu.pcR, hr]
  rfl

theorem next_eq (hu : s.Fetches t u) (hr : s.redirects = true) :
    multiplexer2 u.pcR u.programCounter.current u.inExecute.pcDe + multiplexer2 u.pcR 4 u.pcDisp = s.target := by
  rw [hu.pcR, hr, hu.pcDisp, hu.inExecute]
  rfl

end Fetches

/-- The fetch of a redirecting tick that does not end the run has led to `w`. -/
structure Fetched (s t w : Pipeline) : Prop where
  dataMemUnit : w.dataMemUnit = t.dataMemUnit
  regs : w.regFile.regs = writeBack s.inWriteBack.wbWe s.inWriteBack.wbA s.inWriteBack.wbD s.regFile.regs
  pcR : w.pcR = true
  programCounter : w.programCounter = { s.programCounter with next := s.target }
  memoryRegister : w.memoryRegister = { s.memoryRegister with next := s.inExecute.executed s.operand1 s.operand2 }
  writeBackRegister : w.writeBackRegister = t.writeBackRegister

/-- The fetch of a redirecting tick that stays in the section. -/
theorem Fetches.doFetch_eq (hu : s.Fetches t u) (hr : s.redirects = true) (hl : s.leaves = false) :
    (s.target.toNat % 4 ≠ 0 →
      u.doFetch = .error (.AlignmentException ("pc is not aligned: pc_next == " ++ toString s.target.toNat))) ∧
    (s.target.toNat % 4 = 0 →
      if (s.instrMemUnit.fetch s.programCounter.current).isOk = true ∧
          ¬ (s.lastInstructionsFlag = true ∧ s.lastInstructionsCounter = 0) then
        ∃ w, u.doFetch = .ok w ∧ s.Fetched t w
      else ∃ e, u.doFetch = .error e) := by
  rw [Pipeline.doFetch_eq (hu.leaveSection_of hl), hu.next_eq hr, hu.programCounter, hu.instrMemUnit, hu.lastInstructionsFlag,
    hu.lastInstructionsCounter]
  constructor
  · exact fun ha => if_pos ha
  · intro ha
    rw [if_neg (not_not.2 ha)]
    cases hf : s.instrMemUnit.fetch s.programCounter.current with
    | error e =>
        rw [if_neg fun h => Bool.false_ne_true h.1]
        exact ⟨e, rfl⟩
    | ok instr =>
        split
        · next h =>
            refine ⟨_, if_neg h.2, ?_⟩
            exact ⟨hu.dataMemUnit, hu.regs, hu.pcR.trans hr, rfl, hu.memoryRegister, hu.writeBackRegister⟩
        · next h => exact ⟨_, if_pos (not_not.1 fun hn => h ⟨rfl, hn⟩)⟩

theorem hazardUnitTick_of_pcR (h : s.pcR = true) : s.hazardUnitTick =
    { s with decodeRegister := s.decodeRegister.clear {}, executeRegister := s.executeRegister.clear {} } := if_pos h

theorem Fetched.programCounter_eq {w : Pipeline} (hw : s.Fetched t w) : w.latch.hazardUnitTick.programCounter.current =
    if s.programCounter.enableFlag then s.target else s.programCounter.current := by
  rw [hazardUnitTick_of_pcR (latch_pcR.trans hw.pcR)]
  change w.latch.programCounter.current = _
  rw [latch_programCounter, hw.programCounter, Register.tick]
  split <;> rfl

/-- The end of a redirecting tick. -/
theorem Fetched.redirected {w : Pipeline} {k : Nat} (hm : s.doMemory = .ok t) (hs : s.Formed) (hw : s.Fetched t w)
    (hpc : s.programCounter.enableFlag = true ∨ s.target = s.programCounter.current) :
    s.Redirected t { w.latch.hazardUnitTick with ticksCounter := k } := by
  have hlatch := hazardUnitTick_of_pcR (latch_pcR.trans hw.pcR)
  obtain ⟨unit, v, -, ht⟩ := doMemory_ok hm
  have hback : t.writeBackRegister.enableFlag = true := by
    rw [ht]
    exact hs.writeBack
  refine ⟨?_, ?_, ?_, ?_, ?_, ?_, ?_⟩
  · rw [hlatch]
    exact latch_dataMemUnit.trans hw.dataMemUnit
  · rw [hlatch]
    exact (congrArg RegFile.regs latch_regFile).trans hw.regs
  · refine hw.programCounter_eq.trans ?_
    split
    · rfl
    · next hoff => exact (hpc.resolve_left hoff).symm
  · rw [hlatch]
    rfl
  · rw [hlatch]
    rfl
  · rw [hlatch]
    rcases latch_inMemory w with he | ⟨hp, hoff, he⟩ | ⟨-, -, he⟩
    · exact .inr he
    · rw [hw.memoryRegister] at hoff
      right
      refine he.trans ?_
      rw [inMemory, hw.memoryRegister]
      exact hs.switchedOff hoff
    · rw [hw.memoryRegister] at he
      exact .inl he
  · rw [hlatch]
    change w.latch.writeBackRegister.current = _
    rw [latch_writeBackRegister, hw.writeBackRegister, Register.tick, if_pos hback]

/-- The control unit knows nothing of alignment. -/
theorem control_not_alignment {e : Exception} (h : s.control = .error e) (what : String) : e ≠ .AlignmentException what := by
  rintro rfl
  revert h
  rw [control, ControlUnit.tick]
  split
  · intro h
    cases h
  · split
    · intro h
      cases h
    · have haluOp : ControlUnit.aluControl (getOpcode s.inDecode.instr) (getFunct3 s.inDecode.instr)
          (getFunct7 s.inDecode.instr) ≠ .error (.AlignmentException what) := by
        unfold ControlUnit.aluControl ControlUnit.registerOp ControlUnit.immediateOp
        repeat' split
        all_goals
          intro h
          cases h
      have hcmp : ControlUnit.branchCmp (getOpcode s.inDecode.instr) (getFunct3 s.inDecode.instr) ≠
          .error (.AlignmentException what) := by
        unfold ControlUnit.branchCmp
        repeat' split
        all_goals
          intro h
          cases h
      cases ha : ControlUnit.aluControl (getOpcode s.inDecode.instr) (getFunct3 s.inDecode.instr)
        (getFunct7 s.inDecode.instr) with
      | error e =>
          rw [ha] at haluOp
          exact fun h => haluOp (congrArg Except.error (Except.error.inj h))
      | ok aluOp =>
          cases hb : ControlUnit.branchCmp (getOpcode s.inDecode.instr) (getFunct3 s.inDecode.instr) with
          | error e =>
              rw [hb] at hcmp
              exact fun h => hcmp (congrArg Except.error (Except.error.inj h))
          | ok cmpControl =>
              intro h
              cases h

theorem harmless_iff_of_formed (hs : s.Formed) (hr : s.redirects = true) : s.Harmless ↔ s.Squashes := by
  rw [Harmless, Squashes]
  cases hm : s.doMemory with
  | error e =>
      have htick : s.tick = .error e := by
        rw [tick, hm]
        rfl
      exact ⟨fun _ => .inl rfl, fun _ => htick⟩
  | ok t =>
      dsimp only
      rcases tick_eq hs.wbA_writeBack hm with ⟨e, hc, htick⟩ | ⟨cu, u, hc, hu, htick⟩
      · rw [htick, hc]
        constructor
        · split
          · exact fun h => absurd (Except.error.inj h) (control_not_alignment hc _)
          · rintro ⟨s', h, -⟩
            cases h
        · rintro (h | ⟨h, -⟩)
          · cases h
          · cases h
      · rw [htick, hc]
        cases hl : s.leaves with
        | true =>
            have hthrows : u.doFetch = .error (.logic_error "out_of_instr_section") := by
              rw [doFetch, hu.leaveSection_throws hs hr hl]
              rfl
            rw [hthrows]
            constructor
            · split
              · intro h
                cases h
              · rintro ⟨s', h, -⟩
                cases h
            · rintro (h | ⟨-, h, -⟩)
              · cases h
              · cases h
        | false =>
            obtain ⟨hmisaligned, haligned⟩ := hu.doFetch_eq hr hl
            by_cases ha : s.target.toNat % 4 = 0
            · rw [if_neg (not_not.2 ha)]
              have hfetch := haligned ha
              split at hfetch
              · next hgoes =>
                  obtain ⟨w, hw, hfetched⟩ := hfetch
                  rw [hw]
                  constructor
                  · rintro ⟨s', h, hred⟩
                    obtain rfl := Except.ok.inj h
                    have hpc := hfetched.programCounter_eq.symm.trans hred.programCounter
                    refine .inr ⟨rfl, rfl, .inr ⟨hgoes.1, hgoes.2, ?_⟩⟩
                    split at hpc
                    · next hon => exact .inl hon
                    · exact .inr hpc.symm
                  · rintro (h | ⟨-, -, h | ⟨-, -, hpc⟩⟩)
                    · cases h
                    · exact absurd ha h
                    · exact ⟨_, rfl, hfetched.redirected hm hs hpc⟩
              · next hstops =>
                  obtain ⟨e, he⟩ := hfetch
                  rw [he]
                  constructor
                  · rintro ⟨s', h, -⟩
                    cases h
                  · rintro (h | ⟨-, -, h | ⟨hok, hn, -⟩⟩)
                    · cases h
                    · exact absurd ha h
                    · exact absurd ⟨hok, hn⟩ hstops
            · rw [if_pos ha, hmisaligned ha]
              exact ⟨fun _ => .inr ⟨rfl, rfl, .inl ha⟩, fun _ => rfl⟩

/-- In every state of a run in which a branch is taken or a jump is executed, the wrong path is harmless exactly when an
earlier instruction throws, or the control unit accepts the word in decode, the program counter has not left the section in
front of it, the next word can be fetched and the pipeline is not stalled. -/
theorem harmless_iff (h : (initial unit m).Ticks n s) (hr : s.redirects = true) : s.Harmless ↔ s.Squashes :=
  harmless_iff_of_formed h.formed hr

/-- The state when the first instruction of the given words is in the execute stage. -/
def afterTwoTicks (words : List Word) : Except Exception Pipeline := do
  let unit ← InstrMemUnit.new words 0
  let s ← (initial unit { pc := 0, regs := fun _ => 0, memory := fun _ => 0 }).tick
  s.tick

theorem afterTwoTicks_reached {words : List Word} (hs : afterTwoTicks words = .ok s) : ∃ unit,
    InstrMemUnit.new words 0 = .ok unit ∧
    (initial unit { pc := 0, regs := fun _ => 0, memory := fun _ => 0 }).Ticks 2 s := by
  simp only [afterTwoTicks, bind_eq_ok] at hs
  obtain ⟨unit, hunit, t, ht, hs⟩ := hs
  exact ⟨unit, hunit, .succ (.succ .zero ht) hs⟩

theorem harmless_iff_jump : ∃ unit s, (initial unit { pc := 0, regs := fun _ => 0, memory := fun _ => 0 }).Ticks 2 s ∧
    s.redirects = true ∧ (s.Harmless ↔ s.Squashes) := by
  have hred : (afterTwoTicks [0x0080006f#32, 0x00000013#32, 0x00000013#32]).map redirects = .ok true := rfl
  cases hs : afterTwoTicks [0x0080006f#32, 0x00000013#32, 0x00000013#32] with
  | error e =>
      rw [hs] at hred
      cases hred
  | ok s =>
      rw [hs] at hred
      obtain ⟨unit, -, hticks⟩ := afterTwoTicks_reached hs
      exact ⟨unit, s, hticks, Except.ok.inj hred, harmless_iff hticks (Except.ok.inj hred)⟩

/-- A jump over an `ebreak` raises its exception. -/
theorem jump_over_ebreak : ∃ unit s, InstrMemUnit.new [0x0080006f#32, 0x00100073#32, 0x00000013#32] 0 = .ok unit ∧
    (initial unit { pc := 0, regs := fun _ => 0, memory := fun _ => 0 }).Ticks 2 s ∧
    s.redirects = true ∧ s.doMemory.isOk = true ∧ s.target = 8 ∧ s.tick.map (fun _ => ()) = .error .EbreakException ∧
    ¬ s.Harmless := by
  have hred : (afterTwoTicks [0x0080006f#32, 0x00100073#32, 0x00000013#32]).map
      (fun s => (s.redirects, s.doMemory.isOk, s.target)) = .ok (true, true, 8) := rfl
  have hthrows : (afterTwoTicks [0x0080006f#32, 0x00100073#32, 0x00000013#32]).map
      (fun s => s.tick.map fun _ => ()) = .ok (.error .EbreakException) := rfl
  cases hs : afterTwoTicks [0x0080006f#32, 0x00100073#32, 0x00000013#32] with
  | error e =>
      rw [hs] at hred
      cases hred
  | ok s =>
      rw [hs] at hred hthrows
      obtain ⟨unit, hunit, hticks⟩ := afterTwoTicks_reached hs
      obtain ⟨hr, hok, htarget⟩ : s.redirects = true ∧ s.doMemory.isOk = true ∧ s.target = 8 := by
        simpa [Except.map] using hred
      have htick : s.tick.map (fun _ => ()) = .error .EbreakException := Except.ok.inj hthrows
      refine ⟨unit, s, hunit, hticks, hr, hok, htarget, htick, ?_⟩
      rw [Harmless]
      cases hm : s.doMemory with
      | error e =>
          rw [hm] at hok
          cases hok
      | ok t =>
          dsimp only
          rw [if_neg (by rw [htarget]; decide)]
          rintro ⟨s', h, -⟩
          rw [h] at htick
          cases htick

end CompilerLab.Riscv.Pipeline
