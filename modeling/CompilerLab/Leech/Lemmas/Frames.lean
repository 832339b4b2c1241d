import CompilerLab.Leech.Executor
import CompilerLab.Lib.StateExcept

/-!
# What an instruction does to the stack of frames

Only calls and returns change the stack of frames below its top.
-/

namespace CompilerLab.Leech

open Lib LeechObj

/-- Only the top of the stack of frames may have been changed. -/
structure OnTop (s s' : State) : Prop where
  pc : s'.pc = s.pc
  frames : ∀ f rest, s.funcStack = f :: rest → ∃ f', s'.funcStack = f' :: rest

instance : IsPreorder State OnTop where
  refl _ := ⟨rfl, fun f _ h => ⟨f, h⟩⟩
  trans _ _ _ h h' := by
    refine ⟨h'.pc.trans h.pc, fun f rest hf => ?_⟩
    obtain ⟨f', hf'⟩ := h.frames f rest hf
    exact h'.frames f' rest hf'

/-- Moreover the next instruction has not been chosen. -/
structure Quiet (s s' : State) : Prop extends OnTop s s' where
  nextPC : s'.nextPC = s.nextPC

instance : IsPreorder State Quiet where
  refl s := ⟨refl_of OnTop s, rfl⟩
  trans _ _ _ h h' := ⟨trans_of OnTop h.toOnTop h'.toOnTop, h'.nextPC.trans h.nextPC⟩

section Primitives

variable {α : Type}

theorem quiet_getCurFrame : Keeps Quiet getCurFrame := by
  refine Keeps.get.bind fun s => ?_
  split
  · exact Keeps.pure _
  · exact Keeps.throw _

theorem quiet_setCurFrame (frame : StackFrame) : Keeps Quiet (setCurFrame frame) :=
  Keeps.modify fun s => ⟨⟨rfl, fun f rest h => ⟨frame, by simp only [h, List.tail_cons]⟩⟩, rfl⟩

theorem quiet_onHeap (x : OnHeap α) : Keeps Quiet (onHeap x) := by
  refine Keeps.get.bind fun s => (Keeps.lift _).bind fun p => ?_
  exact (Keeps.modify fun s => ⟨⟨rfl, fun f _ h => ⟨f, h⟩⟩, rfl⟩).bind fun _ => Keeps.pure _

theorem quiet_push (obj : LeechObj) : Keeps Quiet (push obj) :=
  quiet_getCurFrame.bind fun _ => (Keeps.lift _).bind fun _ => quiet_setCurFrame _

theorem quiet_pop : Keeps Quiet pop :=
  quiet_getCurFrame.bind fun _ => (Keeps.lift _).bind fun _ => quiet_setCurFrame _

theorem quiet_top : Keeps Quiet top := quiet_getCurFrame.bind fun _ => Keeps.lift _

theorem quiet_popGetTos : Keeps Quiet popGetTos :=
  quiet_top.bind fun _ => (quiet_onHeap _).bind fun _ => quiet_pop.bind fun _ => Keeps.pure _

theorem quiet_setVar (name : Str) (obj : LeechObj) : Keeps Quiet (setVar name obj) :=
  quiet_getCurFrame.bind fun _ => (Keeps.lift _).bind fun _ => quiet_setCurFrame _

theorem quiet_getName (idx : Byte) : Keeps Quiet (getName idx) := quiet_getCurFrame.bind fun _ => Keeps.lift _

theorem quiet_getClass (addr : Nat) : Keeps Quiet (getClass addr) := by
  refine Keeps.get.bind fun s => ?_
  split
  · exact Keeps.pure _
  · exact Keeps.throw _

theorem quiet_setClass (addr : Nat) (data : ClassData) : Keeps Quiet (setClass addr data) :=
  Keeps.modify fun _ => ⟨⟨rfl, fun f _ h => ⟨f, h⟩⟩, rfl⟩

theorem quiet_makeClass : Keeps Quiet makeClass :=
  Keeps.get.bind fun _ => (Keeps.modify fun _ => ⟨⟨rfl, fun f _ h => ⟨f, h⟩⟩, rfl⟩).bind fun _ => Keeps.pure _

theorem quiet_updateField (addr : Nat) (name : Str) (obj : LeechObj) : Keeps Quiet (updateField addr name obj) :=
  (quiet_getClass addr).bind fun _ => quiet_setClass _ _

theorem quiet_getField (addr : Nat) (name : Str) : Keeps Quiet (getField addr name) := by
  refine (quiet_getClass addr).bind fun _ => ?_
  split
  · exact Keeps.pure _
  · exact Keeps.throw _

theorem quiet_registerMethod (addr : Nat) (name : Str) : Keeps Quiet (registerMethod addr name) :=
  (quiet_getClass addr).bind fun _ => Keeps.ite (Keeps.throw _) (quiet_setClass _ _)

theorem quiet_binary (op : LeechObj → LeechObj → Except Error LeechObj) : Keeps Quiet (binary op) :=
  quiet_popGetTos.bind fun _ => quiet_popGetTos.bind fun _ => (Keeps.lift _).bind fun _ => quiet_push _

end Primitives

/-! ## Instructions -/

variable {ops : FloatOps} {file : LeechFile} {inst : Instruction} {s s' : State}

theorem onTop_setNextPC (pc : BitVec 64) : Keeps OnTop (setNextPC pc) := Keeps.modify fun _ => ⟨rfl, fun f _ h => ⟨f, h⟩⟩

theorem onTop_popJump (whenZero : Bool) : Keeps OnTop (popJump inst whenZero) :=
  (quiet_popGetTos.mono fun _ _ h => h.toOnTop).bind fun _ =>
    (Keeps.lift _).bind fun _ => Keeps.ite (onTop_setNextPC _) (Keeps.pure _)

/-- A conditional jump goes on or jumps to its argument. -/
theorem popJump_nextPC {whenZero : Bool} (h : (popJump inst whenZero).run s = .ok ((), s')) (hs : s.nextPC = none) :
    s'.nextPC = none ∨ s'.nextPC = some (inst.arg.setWidth 64) := by
  obtain ⟨tos, t, ht, hrest⟩ := run_bind_ok h
  obtain ⟨res, t', ht', hend⟩ := run_bind_ok hrest
  have hnext : t'.nextPC = none := (run_lift_ok ht').2 ▸ (quiet_popGetTos s tos t ht).nextPC.trans hs
  split at hend
  · injection hend with hend
    injection hend with _ hend
    exact .inr (hend ▸ rfl)
  · exact .inl ((run_pure_ok hend).2 ▸ hnext)

/-- Instructions other than calls and returns work on the top of the stack of frames. -/
theorem onTop_execute (hc : inst.opcode ≠ .CALL_FUNCTION) (hm : inst.opcode ≠ .CALL_METHOD)
    (hr : inst.opcode ≠ .RETURN_VALUE) : Keeps OnTop (execute ops file inst) := by
  have quiet : ∀ {m : Exec Unit}, Keeps Quiet m → Keeps OnTop m := fun h => h.mono fun _ _ h => h.toOnTop
  unfold execute
  split
  · exact quiet quiet_pop
  · exact quiet (quiet_binary _)
  · exact quiet (quiet_binary _)
  · exact quiet (quiet_binary _)
  · exact quiet (quiet_binary _)
  · next h => exact absurd h hr
  · exact quiet (quiet_getCurFrame.bind fun _ => (Keeps.lift _).bind fun _ => quiet_push _)
  · exact quiet (quiet_binary _)
  · exact onTop_popJump true
  · exact onTop_popJump false
  · exact quiet ((quiet_getName _).bind fun _ => quiet_getCurFrame.bind fun _ => (Keeps.lift _).bind fun _ => quiet_push _)
  · exact quiet ((quiet_getName _).bind fun _ => quiet_top.bind fun _ => quiet_setVar _ _)
  · next h => exact absurd h hc
  · exact quiet (quiet_popGetTos.bind fun _ => Keeps.modify fun _ => ⟨⟨rfl, fun f _ h => ⟨f, h⟩⟩, rfl⟩)
  · exact quiet (quiet_makeClass.bind fun _ => quiet_push _)
  · exact quiet ((quiet_getName _).bind fun _ => quiet_popGetTos.bind fun _ => (Keeps.lift _).bind fun _ =>
      quiet_setVar _ _)
  · exact quiet ((quiet_getName _).bind fun _ => quiet_popGetTos.bind fun _ => quiet_top.bind fun _ =>
      (Keeps.lift _).bind fun _ => quiet_updateField _ _ _)
  · exact quiet ((quiet_getName _).bind fun _ => quiet_top.bind fun _ => (Keeps.lift _).bind fun _ =>
      (quiet_getField _ _).bind fun _ => quiet_push _)
  · exact quiet ((quiet_getName _).bind fun _ => quiet_getCurFrame.bind fun _ => (Keeps.lift _).bind fun _ =>
      (Keeps.lift _).bind fun _ => (quiet_onHeap _).bind fun _ => quiet_push _)
  · exact quiet ((quiet_getName _).bind fun _ => quiet_top.bind fun _ => (Keeps.lift _).bind fun _ =>
      quiet_registerMethod _ _)
  · next h => exact absurd h hm
  · exact Keeps.throw _
  · exact Keeps.throw _

end CompilerLab.Leech
