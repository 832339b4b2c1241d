import CompilerLab.Leech.Lemmas.Calls
import Mathlib.Data.Finset.Card

/-!
# The discipline of calls

A frame that calls is as it was when the call returns, up to the arguments and the returned value, exactly when the call takes the
declared number of arguments.
-/

namespace CompilerLab.Leech

open Lib LeechObj

variable {ops : FloatOps} {file : LeechFile} {inst : Instruction} {s s₁ s₂ s' : State} {f : StackFrame}
  {rest : List StackFrame} {fm : FuncMeta} {value : LeechObj} {depth : Nat}

/-! ## Runs above a frame -/

/-- A return gives this value to the frame below. -/
def State.Gives (s : State) (value : LeechObj) : Prop := ∃ frame rest o heap, s.funcStack = frame :: rest ∧
  frame.dataStack.head? = some o ∧ o.clone.run s.heap = .ok (value, heap)

/-- A run with more than `depth` frames until a round leaves `depth` of them, and the value this round returns. -/
inductive Returns (ops : FloatOps) (file : LeechFile) (depth : Nat) : State → LeechObj → State → Prop
  | last {s s' : State} {value : LeechObj} (deep : depth < s.funcStack.length) (round : Executor.step ops file s = .ok s')
      (back : s'.funcStack.length = depth) (gives : s.Gives value) : Returns ops file depth s value s'
  | next {s s' s'' : State} {value : LeechObj} (deep : depth < s.funcStack.length)
      (round : Executor.step ops file s = .ok s') (returns : Returns ops file depth s' value s'') :
      Returns ops file depth s value s''

theorem Returns.deep (h : Returns ops file depth s value s') : depth < s.funcStack.length := by
  cases h with
  | last deep => exact deep
  | next deep => exact deep

/-- A round above some frames stays above them or returns to the topmost one of them. -/
theorem step_above {above : List StackFrame} {c : StackFrame} {cs : List StackFrame}
    (hs : s.funcStack = f :: above ++ c :: cs) (h : Executor.step ops file s = .ok s') :
    (∃ f' above', s'.funcStack = f' :: above' ++ c :: cs) ∨
    ∃ value, s.Gives value ∧ s'.pc = c.retAddr ∧ s'.funcStack = { c with dataStack := value :: c.dataStack } :: cs := by
  rcases step_frames hs h with ⟨f', hf'⟩ | ⟨callee, f', hf'⟩ | ⟨o, value, heap, hd, hclone, -, hcons⟩
  · exact .inl ⟨f', above, hf'⟩
  · exact .inl ⟨callee, f' :: above, hf'⟩
  · cases above with
    | nil =>
        obtain ⟨hpc, hstack⟩ := hcons c cs rfl
        exact .inr ⟨value, ⟨f, c :: cs, o, heap, hs, by rw [hd]; rfl, hclone⟩, hpc, hstack⟩
    | cons t above =>
        obtain ⟨-, hstack⟩ := hcons t (above ++ c :: cs) rfl
        exact .inl ⟨_, above, hstack⟩

theorem State.Gives.unique {value' : LeechObj} (h : s.Gives value) (h' : s.Gives value') : value = value' := by
  obtain ⟨frame, rest, o, heap, hs, ho, hclone⟩ := h
  obtain ⟨frame', rest', o', heap', hs', ho', hclone'⟩ := h'
  rw [hs] at hs'
  injection hs' with hf
  rw [hf, ho'] at ho
  injection ho with ho
  rw [← ho, hclone'] at hclone
  injection hclone with hclone
  injection hclone with hv
  exact hv.symm

/-- The run ends in the frame it was above, which goes on at its return address with the returned value. -/
theorem Returns.frames (h : Returns ops file depth s value s') {above : List StackFrame} {c : StackFrame}
    {cs : List StackFrame} (hs : s.funcStack = f :: above ++ c :: cs) (hd : depth = cs.length + 1) :
    s'.pc = c.retAddr ∧ s'.funcStack = { c with dataStack := value :: c.dataStack } :: cs := by
  induction h generalizing f above with
  | last deep round back gives =>
      rcases step_above hs round with ⟨f', above', hs'⟩ | ⟨v, hv, hpc, hstack⟩
      · rw [hs'] at back
        simp only [List.length_append, List.length_cons] at back
        omega
      · rw [gives.unique hv]
        exact ⟨hpc, hstack⟩
  | next deep round returns ih =>
      rcases step_above hs round with ⟨f', above', hs'⟩ | ⟨v, -, -, hstack⟩
      · exact ih hs'
      · have hdeep := returns.deep
        rw [hstack, hd] at hdeep
        exact absurd hdeep (lt_irrefl _)

/-! ## Calls -/

/-- The round at `s` calls the function of `fm` from the frame `f`. -/
structure Calls (ops : FloatOps) (file : LeechFile) (s : State) (inst : Instruction) (f : StackFrame)
    (rest : List StackFrame) (fm : FuncMeta) (s₁ : State) : Prop where
  frames : s.funcStack = f :: rest
  code : file.code[s.pc.toNat]? = some inst
  call : inst.opcode = .CALL_FUNCTION ∨ inst.opcode = .CALL_METHOD
  callee : ∃ name, f.pmeta.names[inst.arg.toNat]? = some name ∧ file.fileMeta.funcs.lookup name = some fm
  round : Executor.step ops file s = .ok s₁

/-- The variable has been given a value. -/
def StackFrame.IsSet (frame : StackFrame) (name : Str) : Prop := ∃ obj, frame.vars name = some obj ∧ obj ≠ .nullptr

/-- The first names of a function hold its arguments, and nothing else is set. -/
structure StackFrame.Binds (frame : StackFrame) (fm : FuncMeta) (args : List LeechObj) : Prop where
  count : ∃ set : Finset Str, (∀ name, frame.IsSet name ↔ name ∈ set) ∧ set.card = fm.argNum.toNat
  bound : ∀ i, i < fm.argNum.toNat → ∃ name arg, fm.names[i]? = some name ∧ args[i]? = some arg ∧
    frame.vars name = some arg
  unset : ∀ name ∈ fm.names, name ∉ fm.names.take fm.argNum.toNat → frame.vars name = some .nullptr

/-- A call at `s` that begins in `s₁` and returns a value in `s₂`. -/
structure Disciplined (s : State) (f : StackFrame) (rest : List StackFrame) (fm : FuncMeta) (s₁ : State)
    (value : LeechObj) (s₂ : State) : Prop where
  arguments : ∃ args heap callee frames, (cloneAll (f.dataStack.take fm.argNum.toNat)).run s.heap = .ok (args, heap) ∧
    s₁.funcStack = callee :: frames ∧ callee.Binds fm args
  resumed : s₂.pc = s.pc + 1
  caller : s₂.funcStack = { f with
    retAddr := s.pc + 1
    dataStack := value :: f.dataStack.drop fm.argNum.toNat } :: rest

/-- A call by `CALL_FUNCTION` finds only its arguments on the stack, and the arguments have names of their own. -/
structure Accounted (inst : Instruction) (f : StackFrame) (fm : FuncMeta) : Prop where
  stack : inst.opcode = .CALL_FUNCTION → f.dataStack.length = fm.argNum.toNat
  named : fm.argNum.toNat ≤ fm.names.length
  nodup : (fm.names.take fm.argNum.toNat).Nodup

theorem Accounted.taken (h : Accounted inst f fm) : inst.taken f fm = fm.argNum.toNat := by
  unfold Instruction.taken
  split
  · next hc => exact h.stack hc
  · rfl

theorem called_vars {stack args : List LeechObj} :
    (StackFrame.called fm stack args).vars = boundVars (StackFrame.new fm).vars fm.names args := rfl

/-- A function begins with the names it has been given set. -/
theorem called_isSet_iff {stack args : List LeechObj} (hargs : ∀ o ∈ args, o ≠ .nullptr) {name : Str} :
    (StackFrame.called fm stack args).IsSet name ↔ name ∈ fm.names.take args.length := by
  constructor
  · rintro ⟨obj, hobj, hne⟩
    by_contra hmem
    rw [called_vars, boundVars_of_notMem hmem, StackFrame.new] at hobj
    dsimp only at hobj
    split at hobj
    · injection hobj with hobj
      exact hne hobj.symm
    · cases hobj
  · intro hmem
    obtain ⟨arg, harg, hbound⟩ : ∃ arg ∈ args, boundVars (StackFrame.new fm).vars fm.names args name = some arg :=
      boundVars_of_mem hmem
    exact ⟨arg, hbound, hargs arg harg⟩

theorem called_binds {stack args : List LeechObj} (h : Accounted inst f fm) (hargs : ∀ o ∈ args, o ≠ .nullptr)
    (hlen : args.length = fm.argNum.toNat) : (StackFrame.called fm stack args).Binds fm args where
  count := by
    refine ⟨(fm.names.take fm.argNum.toNat).toFinset, fun name => ?_, ?_⟩
    · rw [called_isSet_iff hargs, hlen, List.mem_toFinset]
    · rw [List.toFinset_card_of_nodup h.nodup, List.length_take, Nat.min_eq_left h.named]
  bound i hi := by
    have hnodup : (fm.names.take args.length).Nodup := hlen ▸ h.nodup
    have hn := List.getElem?_eq_getElem (lt_of_lt_of_le hi h.named)
    have ha := List.getElem?_eq_getElem (hlen ▸ hi : i < args.length)
    exact ⟨_, _, hn, ha, boundVars_getElem hnodup hn ha⟩
  unset name hname hmem := by
    rw [called_vars, boundVars_of_notMem (hlen ▸ hmem), StackFrame.new]
    exact if_pos hname

/-- What a call and its return do to the frame of the caller. -/
theorem Calls.returned (h : Calls ops file s inst f rest fm s₁) (hr : Returns ops file (rest.length + 1) s₁ value s₂) :
    (∃ args heap stack, inst.taken f fm ≤ f.dataStack.length ∧
      (cloneAll (f.dataStack.take (inst.taken f fm))).run s.heap = .ok (args, heap) ∧
      s₁.funcStack = StackFrame.called fm stack args :: f.calling (inst.taken f fm) s.pc :: rest) ∧
    s₂.pc = s.pc + 1 ∧ s₂.funcStack = { f with
      retAddr := s.pc + 1
      dataStack := value :: f.dataStack.drop (inst.taken f fm) } :: rest := by
  obtain ⟨inst', t, hinst, he, rfl⟩ := step_ok h.round
  obtain rfl := Option.some.inj (h.code.symm.trans hinst)
  obtain ⟨name, fm', args, heap, stack, hname, hlook, hlen, hclone, rfl⟩ := call_ok h.call (by exact h.frames) he
  obtain ⟨name', hname', hlook'⟩ := h.callee
  obtain rfl := Option.some.inj (hname.symm.trans hname')
  obtain rfl := Option.some.inj (hlook.symm.trans hlook')
  refine ⟨⟨args, heap, stack, hlen, hclone, rfl⟩, ?_⟩
  exact hr.frames (c := f.calling (inst.taken f fm') s.pc)
    (show _ = StackFrame.called fm' stack args :: [] ++ _ from rfl) rfl

theorem Calls.disciplined (h : Calls ops file s inst f rest fm s₁)
    (hr : Returns ops file (rest.length + 1) s₁ value s₂) (ha : Accounted inst f fm) :
    Disciplined s f rest fm s₁ value s₂ := by
  obtain ⟨⟨args, heap, stack, hlen, hclone, hcallee⟩, hpc, hcaller⟩ := h.returned hr
  rw [ha.taken] at hlen hclone hcaller
  obtain ⟨hcount, hne⟩ := cloneAll_ok hclone
  rw [List.length_take, Nat.min_eq_left hlen] at hcount
  exact ⟨⟨args, heap, _, _, hclone, hcallee, called_binds ha hne hcount⟩, hpc, hcaller⟩

theorem Calls.accounted (h : Calls ops file s inst f rest fm s₁) (hr : Returns ops file (rest.length + 1) s₁ value s₂)
    (hd : Disciplined s f rest fm s₁ value s₂) : Accounted inst f fm := by
  obtain ⟨⟨args, heap, stack, hlen, hclone, hcallee⟩, -, hcaller⟩ := h.returned hr
  obtain ⟨hcount, hne⟩ := cloneAll_ok hclone
  rw [List.length_take, Nat.min_eq_left hlen] at hcount
  -- The objects below the arguments are those below what has been taken.
  have hdrop : (f.dataStack.drop (inst.taken f fm)).length = (f.dataStack.drop fm.argNum.toNat).length := by
    have hframes := hcaller.symm.trans hd.caller
    injection hframes with hframe
    injection hframe with _ hstack
    injection hstack with _ hstack
    rw [hstack]
  rw [List.length_drop, List.length_drop] at hdrop
  -- As many names have been set as arguments are declared.
  obtain ⟨args', heap', callee, frames, -, hcallee', hbinds⟩ := hd.arguments
  rw [hcallee] at hcallee'
  injection hcallee' with hframe
  subst hframe
  obtain ⟨set, hset, hcard⟩ := hbinds.count
  have hset' : set = (fm.names.take (inst.taken f fm)).toFinset := by
    ext name
    rw [← hset, called_isSet_iff hne, hcount, List.mem_toFinset]
  have hle := List.toFinset_card_le (fm.names.take (inst.taken f fm))
  rw [← hset', hcard, List.length_take] at hle
  have htaken : inst.taken f fm = fm.argNum.toNat := by omega
  rw [htaken] at hset' hle
  refine ⟨fun hc => ?_, by omega, ?_⟩
  · rw [← htaken, Instruction.taken, if_pos hc]
  · refine Multiset.coe_nodup.mp (Multiset.toFinset_card_eq_card_iff_nodup.mp ?_)
    have hlength : (fm.names.take fm.argNum.toNat).length = fm.argNum.toNat := by
      rw [List.length_take]
      omega
    exact (hset' ▸ hcard).trans hlength.symm

theorem call_disciplined_iff (h : Calls ops file s inst f rest fm s₁)
    (hr : Returns ops file (rest.length + 1) s₁ value s₂) :
    Disciplined s f rest fm s₁ value s₂ ↔ Accounted inst f fm :=
  ⟨h.accounted hr, h.disciplined hr⟩

/-- `main` pushes two objects before it calls `id`. -/
def mainMeta (start : BitVec 64) : FuncMeta where
  addr := start
  cstPool := [.IntObj 1, .IntObj 2]
  names := [[0x69, 0x64]]

/-- `id` returns its argument. -/
def idMeta : FuncMeta where
  addr := 4
  argNum := 1
  names := [[0x78]]

def callId (start : BitVec 64) : LeechFile where
  fileMeta.funcs := (AList.singleton kMainFuncName (mainMeta start)).insert [0x69, 0x64] idMeta
  code := [⟨.LOAD_CONST, 0⟩, ⟨.LOAD_CONST, 1⟩, ⟨.CALL_FUNCTION, 0⟩, ⟨.RETURN_VALUE, 0⟩, ⟨.LOAD_FAST, 0⟩, ⟨.RETURN_VALUE, 0⟩]

/-- For programs without doubles. -/
def noFloats : FloatOps := ⟨fun a _ => a, fun a _ => a, fun a _ => a, id⟩

/-- The frame of `main`. -/
def mainFrame (start : BitVec 64) (stack : List LeechObj) (retAddr : BitVec 64 := 0) : StackFrame :=
  { StackFrame.new (mainMeta start) with
    dataStack := stack
    retAddr := retAddr }

/-- The states before the call, while `id` runs, and after the call. -/
def beforeCall (start : BitVec 64) (stack : List LeechObj) : State where
  funcStack := [mainFrame start stack]
  pc := 2

def duringCall (start : BitVec 64) (pc : BitVec 64) (stack args : List LeechObj) (nextPC : Option (BitVec 64)) : State where
  funcStack := [StackFrame.called idMeta stack args, mainFrame start [] 3]
  pc := pc
  nextPC := nextPC

def afterCall (start : BitVec 64) : State where
  funcStack := [mainFrame start [.IntObj 2] 3]
  pc := 3
  nextPC := some 3

theorem callId_returns (start : BitVec 64) (args : List LeechObj) : Returns noFloats (callId start) 1
    (duringCall start 4 [] (.IntObj 2 :: args) (some 4)) (.IntObj 2) (afterCall start) := by
  have hload : Executor.step noFloats (callId start) (duringCall start 4 [] (.IntObj 2 :: args) (some 4)) =
    .ok (duringCall start 5 [.IntObj 2] (.IntObj 2 :: args) none) := rfl
  have hreturn : Executor.step noFloats (callId start) (duringCall start 5 [.IntObj 2] (.IntObj 2 :: args) none) =
    .ok (afterCall start) := rfl
  exact .next (Nat.lt_succ_self 1) hload (.last (Nat.lt_succ_self 1) hreturn rfl ⟨_, _, _, _, rfl, rfl, rfl⟩)

/-- The call of `id` when `main` begins with its second instruction. -/
theorem call_disciplined_iff_id : Executor.execute noFloats (callId 1) 1 = .ok (beforeCall 1 [.IntObj 2]) ∧
    (Disciplined (beforeCall 1 [.IntObj 2]) (mainFrame 1 [.IntObj 2]) [] idMeta (duringCall 1 4 [] [.IntObj 2] (some 4))
      (.IntObj 2) (afterCall 1) ↔ Accounted ⟨.CALL_FUNCTION, 0⟩ (mainFrame 1 [.IntObj 2]) idMeta) :=
  ⟨rfl, call_disciplined_iff ⟨rfl, rfl, .inl rfl, ⟨_, rfl, rfl⟩, rfl⟩ (callId_returns 1 [])⟩

/-- Both objects are taken from the frame of `main` though `id` has one argument. -/
theorem id_takes_two : Executor.execute noFloats (callId 0) 2 = .ok (beforeCall 0 [.IntObj 2, .IntObj 1]) ∧
    Calls noFloats (callId 0) (beforeCall 0 [.IntObj 2, .IntObj 1]) ⟨.CALL_FUNCTION, 0⟩
      (mainFrame 0 [.IntObj 2, .IntObj 1]) [] idMeta (duringCall 0 4 [] [.IntObj 2, .IntObj 1] (some 4)) ∧
    Returns noFloats (callId 0) 1 (duringCall 0 4 [] [.IntObj 2, .IntObj 1] (some 4)) (.IntObj 2) (afterCall 0) ∧
    ¬ Disciplined (beforeCall 0 [.IntObj 2, .IntObj 1]) (mainFrame 0 [.IntObj 2, .IntObj 1]) [] idMeta
      (duringCall 0 4 [] [.IntObj 2, .IntObj 1] (some 4)) (.IntObj 2) (afterCall 0) := by
  refine ⟨rfl, ⟨rfl, rfl, .inl rfl, ⟨_, rfl, rfl⟩, rfl⟩, callId_returns 0 [.IntObj 1], fun hd => ?_⟩
  have hframes := hd.caller
  injection hframes with hframe
  injection hframe with _ hstack
  cases hstack

end CompilerLab.Leech
