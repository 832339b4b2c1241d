import CompilerLab.Leech.Lemmas.Frames

/-!
# Calls and returns

What the callbacks of a call and of a return do to the stack of frames, and a run above a frame.
-/

namespace CompilerLab.Leech

open Lib LeechObj

variable {s s' : State} {f : StackFrame} {rest : List StackFrame}

/-! ## The current frame -/

theorem run_get_ok {t : State} (h : (get : Exec State).run s = .ok (t, s')) : t = s ∧ s' = s := by
  injection h with h
  injection h with ht hs
  exact ⟨ht.symm, hs.symm⟩

theorem run_modify_ok {g : State → State} {u : Unit} (h : (modify g : Exec Unit).run s = .ok (u, s')) : s' = g s := by
  injection h with h
  injection h with _ hs
  exact hs.symm

theorem getCurFrame_ok {frame : StackFrame} (hs : s.funcStack = f :: rest) (h : getCurFrame.run s = .ok (frame, s')) :
    f = frame ∧ s = s' := by
  obtain ⟨t, u, ht, hu⟩ := run_bind_ok h
  obtain ⟨rfl, rfl⟩ := run_get_ok ht
  rw [hs] at hu
  obtain ⟨hf, hs'⟩ := run_pure_ok hu
  exact ⟨hf.symm, hs'.symm⟩

theorem setCurFrame_ok {frame : StackFrame} (hs : s.funcStack = f :: rest) (h : (setCurFrame frame).run s = .ok ((), s')) :
    s' = { s with funcStack := frame :: rest } := by
  rw [run_modify_ok h, hs, List.tail_cons]

theorem onHeap_ok {α : Type} {x : OnHeap α} {a : α} (h : (onHeap x).run s = .ok (a, s')) :
    ∃ heap, x.run s.heap = .ok (a, heap) ∧ s' = { s with heap } := by
  obtain ⟨t, s₁, ht, h₁⟩ := run_bind_ok h
  obtain ⟨rfl, rfl⟩ := run_get_ok ht
  obtain ⟨p, s₂, hp, h₂⟩ := run_bind_ok h₁
  obtain ⟨hx, rfl⟩ := run_lift_ok hp
  obtain ⟨_, s₃, hm, h₃⟩ := run_bind_ok h₂
  obtain ⟨rfl, rfl⟩ := run_pure_ok h₃
  exact ⟨p.2, hx, run_modify_ok hm⟩

theorem push_ok {obj : LeechObj} (hs : s.funcStack = f :: rest) (h : (push obj).run s = .ok ((), s')) :
    s' = { s with funcStack := { f with dataStack := obj :: f.dataStack } :: rest } := by
  obtain ⟨frame, s₁, hf, h₁⟩ := run_bind_ok h
  obtain ⟨rfl, rfl⟩ := getCurFrame_ok hs hf
  obtain ⟨frame', s₂, hp, h₂⟩ := run_bind_ok h₁
  obtain ⟨hpush, rfl⟩ := run_lift_ok hp
  rw [setCurFrame_ok hs h₂]
  cases obj with
  | nullptr => cases hpush
  | _ =>
      injection hpush with hpush
      rw [hpush]

theorem pop_ok (hs : s.funcStack = f :: rest) (h : pop.run s = .ok ((), s')) :
    s' = { s with funcStack := { f with dataStack := f.dataStack.tail } :: rest } := by
  obtain ⟨frame, s₁, hf, h₁⟩ := run_bind_ok h
  obtain ⟨rfl, rfl⟩ := getCurFrame_ok hs hf
  obtain ⟨frame', s₂, hp, h₂⟩ := run_bind_ok h₁
  obtain ⟨hpop, rfl⟩ := run_lift_ok hp
  rw [setCurFrame_ok hs h₂]
  unfold StackFrame.pop at hpop
  split at hpop
  · next hd =>
      injection hpop with hpop
      rw [← hpop, hd, List.tail_cons]
  · cases hpop

theorem top_ok {obj : LeechObj} (hs : s.funcStack = f :: rest) (h : top.run s = .ok (obj, s')) :
    f.dataStack = obj :: f.dataStack.tail ∧ s = s' := by
  obtain ⟨frame, s₁, hf, h₁⟩ := run_bind_ok h
  obtain ⟨rfl, rfl⟩ := getCurFrame_ok hs hf
  obtain ⟨htop, hs'⟩ := run_lift_ok h₁
  refine ⟨?_, hs'.symm⟩
  unfold StackFrame.top at htop
  split at htop
  · next hd =>
      injection htop with htop
      rw [hd, htop, List.tail_cons]
  · cases htop

/-- An object is popped and cloned. -/
theorem popGetTos_ok {obj : LeechObj} (hs : s.funcStack = f :: rest) (h : popGetTos.run s = .ok (obj, s')) :
    ∃ o heap, f.dataStack = o :: f.dataStack.tail ∧ o.clone.run s.heap = .ok (obj, heap) ∧
      s' = { s with heap, funcStack := { f with dataStack := f.dataStack.tail } :: rest } := by
  obtain ⟨o, s₁, ht, h₁⟩ := run_bind_ok h
  obtain ⟨hd, rfl⟩ := top_ok hs ht
  obtain ⟨tos, s₂, hu, h₂⟩ := run_bind_ok h₁
  obtain ⟨heap, hclone, rfl⟩ := onHeap_ok hu
  obtain ⟨_, s₃, hp, h₃⟩ := run_bind_ok h₂
  obtain ⟨rfl, rfl⟩ := run_pure_ok h₃
  exact ⟨o, heap, hd, hclone, pop_ok (by exact hs) hp⟩

/-- The arguments of a call are clones of the topmost objects, the first of the topmost one. -/
theorem popArgs_ok {n : Nat} {args : List LeechObj} (hs : s.funcStack = f :: rest)
    (h : (popArgs n).run s = .ok (args, s')) : n ≤ f.dataStack.length ∧ ∃ heap,
      (cloneAll (f.dataStack.take n)).run s.heap = .ok (args, heap) ∧
      s' = { s with heap, funcStack := { f with dataStack := f.dataStack.drop n } :: rest } := by
  induction n generalizing s f args with
  | zero =>
      obtain ⟨rfl, hs'⟩ := run_pure_ok h
      exact ⟨Nat.zero_le _, s.heap, rfl, by rw [hs', List.drop_zero, ← hs]⟩
  | succ n ih =>
      obtain ⟨arg, s₁, ht, h₁⟩ := run_bind_ok h
      obtain ⟨o, heap, hd, hclone, rfl⟩ := popGetTos_ok hs ht
      obtain ⟨args', s₂, hu, h₂⟩ := run_bind_ok h₁
      obtain ⟨rfl, rfl⟩ := run_pure_ok h₂
      obtain ⟨hn, heap', hclones, rfl⟩ := ih rfl hu
      refine ⟨by rw [hd]; exact Nat.succ_le_succ hn, heap', ?_, ?_⟩
      · rw [hd, List.take_succ_cons, cloneAll]
        exact run_bind_of_ok hclone (run_bind_of_ok hclones rfl)
      · rw [hd]
        rfl

/-! ## Arguments -/

/-- The variables when names have been bound to arguments. -/
def boundVars (vars : Str → Option LeechObj) : List Str → List LeechObj → Str → Option LeechObj
  | name :: names, arg :: args => boundVars (Function.update vars name (some arg)) names args
  | _, _ => vars

theorem fillNames_ok {frame frame' : StackFrame} {names : List Str} {args : List LeechObj}
    (h : frame.fillNames names args = .ok frame') : frame' = { frame with vars := boundVars frame.vars names args } := by
  induction names generalizing frame args with
  | nil =>
      injection h with h
      rw [← h]
      rfl
  | cons name names ih =>
      cases args with
      | nil =>
          injection h with h
          rw [← h]
          rfl
      | cons arg args =>
          rw [StackFrame.fillNames, StackFrame.setVar] at h
          cases hv : frame.vars name with
          | none =>
              rw [hv] at h
              cases h
          | some o =>
              rw [hv] at h
              exact ih h

theorem boundVars_of_notMem {vars : Str → Option LeechObj} {names : List Str} {args : List LeechObj} {name : Str}
    (h : name ∉ names.take args.length) : boundVars vars names args name = vars name := by
  induction names generalizing vars args with
  | nil => rfl
  | cons name' names ih =>
      cases args with
      | nil => rfl
      | cons arg args =>
          rw [List.length_cons, List.take_succ_cons, List.mem_cons, not_or] at h
          rw [boundVars, ih h.2, Function.update_of_ne h.1]

theorem boundVars_of_mem {vars : Str → Option LeechObj} {names : List Str} {args : List LeechObj} {name : Str}
    (h : name ∈ names.take args.length) : ∃ arg ∈ args, boundVars vars names args name = some arg := by
  induction names generalizing vars args with
  | nil => simp at h
  | cons name' names ih =>
      cases args with
      | nil => simp at h
      | cons arg args =>
          rw [boundVars]
          by_cases hmem : name ∈ names.take args.length
          · obtain ⟨arg', harg, hbound⟩ := ih hmem
            exact ⟨arg', List.mem_cons_of_mem _ harg, hbound⟩
          · rw [List.length_cons, List.take_succ_cons, List.mem_cons] at h
            obtain rfl := h.resolve_right hmem
            exact ⟨arg, List.mem_cons_self, by rw [boundVars_of_notMem hmem, Function.update_self]⟩

/-- Names that differ hold their own arguments. -/
theorem boundVars_getElem {vars : Str → Option LeechObj} {names : List Str} {args : List LeechObj} {name : Str}
    {arg : LeechObj} {i : Nat} (hnodup : (names.take args.length).Nodup) (hn : names[i]? = some name)
    (ha : args[i]? = some arg) : boundVars vars names args name = some arg := by
  induction names generalizing vars args i with
  | nil => cases hn
  | cons name' names ih =>
      cases args with
      | nil => cases ha
      | cons arg' args =>
          rw [List.length_cons, List.take_succ_cons, List.nodup_cons] at hnodup
          rw [boundVars]
          cases i with
          | zero =>
              injection hn with hn
              injection ha with ha
              subst hn ha
              rw [boundVars_of_notMem hnodup.1, Function.update_self]
          | succ i => exact ih hnodup.2 hn ha

theorem clone_ne_nullptr {o o' : LeechObj} {heap heap' : Heap} (h : o.clone.run heap = .ok (o', heap')) :
    o' ≠ .nullptr := by
  rintro rfl
  cases o with
  | nullptr => cases h
  | TupleObj tuple =>
      rw [clone] at h
      obtain ⟨copies, heap₁, -, h₁⟩ := run_bind_ok h
      cases (run_pure_ok h₁).1
  | ClassObj addr =>
      cases hd : heap[addr]? with
      | none => simp [clone, StateT.run, hd] at h
      | some data => simp [clone, StateT.run, hd] at h
  | _ =>
      rw [clone] at h
      cases (run_pure_ok h).1

theorem cloneAll_ok {objs objs' : List LeechObj} {heap heap' : Heap} (h : (cloneAll objs).run heap = .ok (objs', heap')) :
    objs'.length = objs.length ∧ ∀ o ∈ objs', o ≠ .nullptr := by
  induction objs generalizing objs' heap heap' with
  | nil =>
      rw [cloneAll] at h
      obtain ⟨rfl, -⟩ := run_pure_ok h
      exact ⟨rfl, fun o ho => absurd ho List.not_mem_nil⟩
  | cons obj objs ih =>
      rw [cloneAll] at h
      obtain ⟨o, heap₁, ho, h₁⟩ := run_bind_ok h
      obtain ⟨os, heap₂, hos, h₂⟩ := run_bind_ok h₁
      obtain ⟨rfl, -⟩ := run_pure_ok h₂
      obtain ⟨hlen, hne⟩ := ih hos
      exact ⟨congrArg Nat.succ hlen, List.forall_mem_cons.mpr ⟨clone_ne_nullptr ho, hne⟩⟩

/-! ## Calls -/

variable {ops : FloatOps} {file : LeechFile} {inst : Instruction}

theorem getAt_ok {α : Type} {x : Option α} {a : α} (h : getAt x = .ok a) : x = some a := by
  cases x with
  | none => cases h
  | some b =>
      injection h with h
      rw [h]

theorem getName_ok {idx : Byte} {name : Str} (hs : s.funcStack = f :: rest) (h : (getName idx).run s = .ok (name, s')) :
    f.pmeta.names[idx.toNat]? = some name ∧ s = s' := by
  obtain ⟨frame, s₁, hf, h₁⟩ := run_bind_ok h
  obtain ⟨rfl, rfl⟩ := getCurFrame_ok hs hf
  obtain ⟨hname, hs'⟩ := run_lift_ok h₁
  exact ⟨getAt_ok hname, hs'.symm⟩

theorem checkMethod_ok {addr : Nat} {name : Str} {u : Unit} (h : (checkMethod addr name).run s = .ok (u, s')) : s' = s := by
  obtain ⟨data, s₁, hd, h₁⟩ := run_bind_ok h
  have hs₁ : s₁ = s := by
    obtain ⟨t, s₂, ht, h₂⟩ := run_bind_ok hd
    obtain ⟨rfl, rfl⟩ := run_get_ok ht
    split at h₂
    · exact (run_pure_ok h₂).2
    · cases h₂
  subst hs₁
  split at h₁
  · exact (run_pure_ok h₁).2
  · cases h₁

/-- The frame of a function with bound arguments. -/
def StackFrame.called (fm : FuncMeta) (stack args : List LeechObj) : StackFrame :=
  { StackFrame.new fm with
    dataStack := stack
    vars := boundVars (StackFrame.new fm).vars fm.names args }

/-- How many objects a call takes from the stack of its frame. -/
def Instruction.taken (inst : Instruction) (f : StackFrame) (fm : FuncMeta) : Nat :=
  if inst.opcode = .CALL_FUNCTION then f.dataStack.length else fm.argNum.toNat

/-- The frame of the caller during a call. -/
def StackFrame.calling (f : StackFrame) (n : Nat) (pc : BitVec 64) : StackFrame :=
  { f with
    dataStack := f.dataStack.drop n
    retAddr := pc + 1 }

theorem enterFrame_ok {fm : FuncMeta} {stack args : List LeechObj} (hs : s.funcStack = f :: rest)
    (h : (enterFrame { StackFrame.new fm with dataStack := stack } args).run s = .ok ((), s')) :
    s' = { s with funcStack := StackFrame.called fm stack args :: { f with retAddr := s.pc + 1 } :: rest } := by
  obtain ⟨t, s₁, ht, h₁⟩ := run_bind_ok h
  obtain ⟨rfl, rfl⟩ := run_get_ok ht
  obtain ⟨frame, s₂, hf, h₂⟩ := run_bind_ok h₁
  obtain ⟨rfl, rfl⟩ := getCurFrame_ok hs hf
  obtain ⟨_, s₃, hset, h₃⟩ := run_bind_ok h₂
  obtain rfl := setCurFrame_ok hs hset
  obtain ⟨callee, s₄, hfill, h₄⟩ := run_bind_ok h₃
  obtain ⟨hcallee, rfl⟩ := run_lift_ok hfill
  rw [run_modify_ok h₄, fillNames_ok hcallee]
  rfl

theorem call_ok (hc : inst.opcode = .CALL_FUNCTION ∨ inst.opcode = .CALL_METHOD) (hs : s.funcStack = f :: rest)
    (h : (execute ops file inst).run s = .ok ((), s')) : ∃ name fm args heap stack,
      f.pmeta.names[inst.arg.toNat]? = some name ∧ file.fileMeta.funcs.lookup name = some fm ∧
      inst.taken f fm ≤ f.dataStack.length ∧
      (cloneAll (f.dataStack.take (inst.taken f fm))).run s.heap = .ok (args, heap) ∧
      s' = { s with
        heap
        nextPC := some fm.addr
        funcStack := StackFrame.called fm stack args :: f.calling (inst.taken f fm) s.pc :: rest } := by
  rcases hc with hc | hc
  · rw [execute, hc] at h
    obtain ⟨name, s₁, hname, h₁⟩ := run_bind_ok h
    obtain ⟨hn, rfl⟩ := getName_ok hs hname
    obtain ⟨fm, s₂, hfm, h₂⟩ := run_bind_ok h₁
    obtain ⟨hlook, rfl⟩ := run_lift_ok hfm
    obtain ⟨_, s₃, hpc, h₃⟩ := run_bind_ok h₂
    obtain rfl := run_modify_ok hpc
    obtain ⟨frame, s₄, hf, h₄⟩ := run_bind_ok h₃
    obtain ⟨rfl, rfl⟩ := getCurFrame_ok (by exact hs) hf
    obtain ⟨args, s₅, hargs, h₅⟩ := run_bind_ok h₄
    obtain ⟨hlen, heap, hclone, rfl⟩ := popArgs_ok (by exact hs) hargs
    have htaken : inst.taken f fm = f.dataStack.length := if_pos hc
    refine ⟨name, fm, args, heap, [], hn, getAt_ok hlook, by rw [htaken], by rwa [htaken], ?_⟩
    rw [htaken]
    exact enterFrame_ok rfl h₅
  · rw [execute, hc] at h
    obtain ⟨name, s₁, hname, h₁⟩ := run_bind_ok h
    obtain ⟨hn, rfl⟩ := getName_ok hs hname
    obtain ⟨fm, s₂, hfm, h₂⟩ := run_bind_ok h₁
    obtain ⟨hlook, rfl⟩ := run_lift_ok hfm
    obtain ⟨_, s₃, hpc, h₃⟩ := run_bind_ok h₂
    obtain rfl := run_modify_ok hpc
    obtain ⟨args, s₄, hargs, h₄⟩ := run_bind_ok h₃
    obtain ⟨hlen, heap, hclone, rfl⟩ := popArgs_ok (by exact hs) hargs
    obtain ⟨obj, s₅, htop, h₅⟩ := run_bind_ok h₄
    obtain ⟨-, rfl⟩ := top_ok rfl htop
    obtain ⟨addr, s₆, haddr, h₆⟩ := run_bind_ok h₅
    obtain ⟨-, rfl⟩ := run_lift_ok haddr
    obtain ⟨_, s₇, hcheck, h₇⟩ := run_bind_ok h₆
    obtain rfl := checkMethod_ok hcheck
    have htaken : inst.taken f fm = fm.argNum.toNat := if_neg (by rw [hc]; decide)
    refine ⟨name, fm, args, heap, [.ClassObj addr], hn, getAt_ok hlook, by rwa [htaken], by rwa [htaken], ?_⟩
    rw [htaken]
    exact enterFrame_ok rfl h₇

/-- A return pushes a clone of its object to the frame below. -/
theorem return_ok (hc : inst.opcode = .RETURN_VALUE) (hs : s.funcStack = f :: rest)
    (h : (execute ops file inst).run s = .ok ((), s')) : ∃ o value heap, f.dataStack = o :: f.dataStack.tail ∧
      o.clone.run s.heap = .ok (value, heap) ∧ (rest = [] → s'.funcStack = []) ∧
      ∀ c cs, rest = c :: cs → s'.nextPC = some c.retAddr ∧
        s'.funcStack = { c with dataStack := value :: c.dataStack } :: cs := by
  rw [execute, hc] at h
  obtain ⟨value, s₁, hpop, h₁⟩ := run_bind_ok h
  obtain ⟨o, heap, hd, hclone, rfl⟩ := popGetTos_ok hs hpop
  obtain ⟨_, s₂, hm, h₂⟩ := run_bind_ok h₁
  obtain rfl := run_modify_ok hm
  obtain ⟨t, s₃, ht, h₃⟩ := run_bind_ok h₂
  obtain ⟨rfl, rfl⟩ := run_get_ok ht
  refine ⟨o, value, heap, hd, hclone, ?_, ?_⟩
  · rintro rfl
    obtain ⟨-, rfl⟩ := run_pure_ok h₃
    rfl
  · rintro c cs rfl
    obtain ⟨frame, s₄, hf, h₄⟩ := run_bind_ok h₃
    obtain ⟨rfl, rfl⟩ := getCurFrame_ok rfl hf
    obtain ⟨_, s₅, hpc, h₅⟩ := run_bind_ok h₄
    obtain rfl := run_modify_ok hpc
    rw [push_ok rfl h₅]
    exact ⟨rfl, rfl⟩

/-! ## Rounds of the loop -/

theorem step_ok (h : Executor.step ops file s = .ok s') : ∃ inst t, file.code[s.pc.toNat]? = some inst ∧
    (execute ops file inst).run { s with nextPC := none } = .ok ((), t) ∧ s' = { t with pc := t.nextPC.getD (t.pc + 1) } := by
  unfold Executor.step at h
  cases hi : file.code[s.pc.toNat]? with
  | none =>
      rw [hi] at h
      cases h
  | some inst =>
      rw [hi] at h
      change (execute ops file inst).run { s with nextPC := none } >>= _ = _ at h
      cases he : (execute ops file inst).run { s with nextPC := none } with
      | error e =>
          rw [he] at h
          cases h
      | ok p =>
          rw [he] at h
          injection h with h
          exact ⟨inst, p.2, rfl, he, h.symm⟩

/-- In a round the frames below the top are as they were, or the top frame returns to the one below it. -/
theorem step_frames (hs : s.funcStack = f :: rest) (h : Executor.step ops file s = .ok s') :
    (∃ f', s'.funcStack = f' :: rest) ∨ (∃ callee f', s'.funcStack = callee :: f' :: rest) ∨
    ∃ o value heap, f.dataStack = o :: f.dataStack.tail ∧ o.clone.run s.heap = .ok (value, heap) ∧
      (rest = [] → s'.funcStack = []) ∧ ∀ c cs, rest = c :: cs → s'.pc = c.retAddr ∧
        s'.funcStack = { c with dataStack := value :: c.dataStack } :: cs := by
  obtain ⟨inst, t, -, he, rfl⟩ := step_ok h
  by_cases hc : inst.opcode = .CALL_FUNCTION ∨ inst.opcode = .CALL_METHOD
  · obtain ⟨name, fm, args, heap, stack, -, -, -, -, rfl⟩ := call_ok hc (by exact hs) he
    exact .inr (.inl ⟨_, _, rfl⟩)
  by_cases hr : inst.opcode = .RETURN_VALUE
  · obtain ⟨o, value, heap, hd, hclone, hnil, hcons⟩ := return_ok hr (by exact hs) he
    refine .inr (.inr ⟨o, value, heap, hd, hclone, hnil, fun c cs hcs => ?_⟩)
    obtain ⟨hpc, hstack⟩ := hcons c cs hcs
    exact ⟨by rw [hpc]; rfl, hstack⟩
  · rw [not_or] at hc
    exact .inl ((onTop_execute hc.1 hc.2 hr _ _ _ he).frames f rest hs)

end CompilerLab.Leech
