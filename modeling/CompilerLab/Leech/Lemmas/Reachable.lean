import CompilerLab.Leech.Instances
import CompilerLab.Leech.Lemmas.Calls
import CompilerLab.Leech.Lemmas.Serialize

/-!
# References in reachable states

Every reference in a reachable state is the one of a class object that has been made.
-/

namespace CompilerLab.Leech

open Lib LeechObj

/-! ## Objects and their copies -/

namespace LeechObj

/-- Induction on objects: a tuple has the property when its elements have it. -/
theorem tupleInduction {P : LeechObj → Prop} (hleaf : ∀ o : LeechObj, (∀ t, o ≠ TupleObj t) → P o)
    (htuple : ∀ t : List LeechObj, (∀ o ∈ t, P o) → P (TupleObj t)) (o : LeechObj) : P o := by
  refine @LeechObj.rec P (fun os => ∀ o ∈ os, P o) ?_ ?_ ?_ ?_ ?_ htuple ?_ ?_ ?_ o
  · exact hleaf _ fun _ h => LeechObj.noConfusion h
  · exact hleaf _ fun _ h => LeechObj.noConfusion h
  · exact fun _ => hleaf _ fun _ h => LeechObj.noConfusion h
  · exact fun _ => hleaf _ fun _ h => LeechObj.noConfusion h
  · exact fun _ => hleaf _ fun _ h => LeechObj.noConfusion h
  · exact fun _ => hleaf _ fun _ h => LeechObj.noConfusion h
  · exact fun _ h => absurd h List.not_mem_nil
  · intro o os ho hos o' ho'
    cases ho' with
    | head => exact ho
    | tail _ ho' => exact hos o' ho'

/-- The class objects in the object are among the first `n`. -/
def Below (n : Nat) (o : LeechObj) : Prop := ∀ a ∈ o.addrs, a < n

theorem Below.mono {n n' : Nat} {o : LeechObj} (h : o.Below n) (hn : n ≤ n') : o.Below n' :=
  fun a ha => (h a ha).trans_le hn

theorem below_of_addrs {n : Nat} {o : LeechObj} (h : o.addrs = []) : o.Below n := by
  intro a ha
  rw [h] at ha
  cases ha

theorem mem_addrsAll {os : List LeechObj} {a : Nat} : a ∈ addrsAll os ↔ ∃ o ∈ os, a ∈ o.addrs := by
  induction os with
  | nil => simp [addrsAll]
  | cons o os ih => simp [addrsAll, ih]

/-- A copy has made new class objects, each with the fields of an old one, and refers to no others. -/
structure Copies (heap heap' : Heap) (addrs : List Nat) : Prop where
  grows : ∃ extra, heap' = heap ++ extra ∧ ∀ data ∈ extra, data ∈ heap
  fresh : ∀ a ∈ addrs, heap.length ≤ a ∧ a < heap'.length

theorem Copies.nil (heap : Heap) : Copies heap heap [] :=
  ⟨⟨[], (List.append_nil heap).symm, fun _ h => absurd h List.not_mem_nil⟩, fun _ h => absurd h List.not_mem_nil⟩

theorem Copies.append {heap heap₁ heap₂ : Heap} {as bs : List Nat} (h : Copies heap heap₁ as) (h' : Copies heap₁ heap₂ bs) :
    Copies heap heap₂ (as ++ bs) := by
  obtain ⟨⟨extra, rfl, hextra⟩, hfresh⟩ := h
  obtain ⟨⟨extra', rfl, hextra'⟩, hfresh'⟩ := h'
  simp only [List.length_append] at hfresh hfresh'
  refine ⟨⟨extra ++ extra', List.append_assoc .., fun data hdata => ?_⟩, fun a ha => ?_⟩
  · rcases List.mem_append.mp hdata with hdata | hdata
    · exact hextra data hdata
    · exact (List.mem_append.mp (hextra' data hdata)).elim id (hextra data)
  · simp only [List.length_append]
    rcases List.mem_append.mp ha with ha | ha
    · have hlt := hfresh a ha
      omega
    · have hlt := hfresh' a ha
      omega

theorem cloneAll_copies {os os' : List LeechObj} {heap heap' : Heap}
    (hos : ∀ o ∈ os, ∀ o' heap heap', o.clone.run heap = .ok (o', heap') → Copies heap heap' o'.addrs)
    (h : (cloneAll os).run heap = .ok (os', heap')) : Copies heap heap' (addrsAll os') := by
  induction os generalizing os' heap with
  | nil =>
      rw [cloneAll] at h
      obtain ⟨rfl, rfl⟩ := run_pure_ok h
      exact .nil heap'
  | cons o os ih =>
      rw [cloneAll] at h
      obtain ⟨o₁, heap₁, ho, h₁⟩ := run_bind_ok h
      obtain ⟨os₁, heap₂, hrest, h₂⟩ := run_bind_ok h₁
      obtain ⟨rfl, rfl⟩ := run_pure_ok h₂
      exact (hos o List.mem_cons_self _ _ _ ho).append (ih (fun o' ho' => hos o' (List.mem_cons_of_mem _ ho')) hrest)

theorem clone_copies (o : LeechObj) : ∀ o' heap heap', o.clone.run heap = .ok (o', heap') → Copies heap heap' o'.addrs := by
  induction o using tupleInduction with
  | hleaf o ho =>
      intro o' heap heap' h
      cases o with
      | nullptr => cases h
      | TupleObj t => exact absurd rfl (ho t)
      | ClassObj addr =>
          cases hd : heap[addr]? with
          | none => simp [clone, StateT.run, hd] at h
          | some data =>
              have hrun : (LeechObj.ClassObj addr).clone.run heap = .ok (ClassObj heap.length, heap ++ [data]) := by
                simp only [clone, StateT.run, hd]
              obtain ⟨rfl, rfl⟩ := Prod.mk.inj (Except.ok.inj (hrun.symm.trans h))
              refine ⟨⟨[data], rfl, fun d hmem => ?_⟩, fun a ha => ?_⟩
              · obtain rfl := List.mem_singleton.mp hmem
                exact List.mem_of_getElem? hd
              · obtain rfl := List.mem_singleton.mp ha
                rw [List.length_append]
                exact ⟨Nat.le_refl _, Nat.lt_succ_self _⟩
      | _ =>
          rw [clone] at h
          obtain ⟨rfl, rfl⟩ := run_pure_ok h
          exact .nil heap'
  | htuple t ih =>
      intro o' heap heap' h
      rw [clone] at h
      obtain ⟨t', heap₁, ht, h₁⟩ := run_bind_ok h
      obtain ⟨rfl, rfl⟩ := run_pure_ok h₁
      exact cloneAll_copies ih ht

end LeechObj

/-! ## States -/

/-- What is stored in the class objects refers to class objects that have been made. -/
def Heap.Closed (heap : Heap) : Prop := ∀ data ∈ heap, ∀ name o, data.fields name = some o → o.Below heap.length

theorem Heap.Closed.copies {heap heap' : Heap} {as : List Nat} (h : heap.Closed) (hc : Copies heap heap' as) :
    heap'.Closed ∧ heap.length ≤ heap'.length := by
  obtain ⟨⟨extra, rfl, hextra⟩, -⟩ := hc
  have hle : heap.length ≤ (heap ++ extra).length := by
    rw [List.length_append]
    exact Nat.le_add_right _ _
  refine ⟨fun data hdata name o ho => ?_, hle⟩
  have hold : data ∈ heap := (List.mem_append.mp hdata).elim id (hextra data)
  exact (h data hold name o ho).mono hle

structure StackFrame.Valid (n : Nat) (f : StackFrame) : Prop where
  stack : ∀ o ∈ f.dataStack, o.Below n
  vars : ∀ name o, f.vars name = some o → o.Below n
  csts : ∀ o ∈ f.pmeta.cstPool, o.addrs = []

theorem StackFrame.Valid.mono {n n' : Nat} {f : StackFrame} (h : f.Valid n) (hn : n ≤ n') : f.Valid n' :=
  ⟨fun o ho => (h.stack o ho).mono hn, fun name o ho => (h.vars name o ho).mono hn, h.csts⟩

/-- Every reference in the state is the one of a class object. -/
structure State.Valid (s : State) : Prop where
  heap : s.heap.Closed
  frames : ∀ f ∈ s.funcStack, f.Valid s.heap.length

/-- The callback keeps valid states valid when `P` holds of the number of class objects before it; `Q` holds of its result and of
that number after it, which is not smaller. -/
def Sound {α : Type} (P : Nat → Prop) (m : Exec α) (Q : α → Nat → Prop) : Prop := ∀ s a s', s.Valid → P s.heap.length →
  m.run s = .ok (a, s') → s'.Valid ∧ s.heap.length ≤ s'.heap.length ∧ Q a s'.heap.length

/-- There is no condition. -/
def Always {α : Type} : α → Nat → Prop := fun _ _ => True

namespace Sound

variable {α β : Type} {P P' : Nat → Prop} {m : Exec α} {f : α → Exec β} {Q : α → Nat → Prop} {R : β → Nat → Prop}

theorem bind (hm : Sound P m Q) (hf : ∀ a, Sound (Q a) (f a) R) : Sound P (m >>= f) R := by
  intro s b s' hs hP h
  obtain ⟨a, t, ha, hb⟩ := run_bind_ok h
  obtain ⟨ht, hle, hQ⟩ := hm s a t hs hP ha
  obtain ⟨hs', hle', hR⟩ := hf a t b s' ht hQ hb
  exact ⟨hs', hle.trans hle', hR⟩

theorem pure {a : α} (h : ∀ n, P n → Q a n) : Sound P (pure a) Q := by
  intro s b s' hs hP hrun
  obtain ⟨rfl, rfl⟩ := run_pure_ok hrun
  exact ⟨hs, Nat.le_refl _, h _ hP⟩

theorem lift {x : Except Error α} (h : ∀ n a, P n → x = .ok a → Q a n) : Sound P (liftM x) Q := by
  intro s a s' hs hP hrun
  obtain ⟨hx, rfl⟩ := run_lift_ok hrun
  exact ⟨hs, Nat.le_refl _, h _ a hP hx⟩

theorem throw (e : Error) : Sound P (throw e : Exec α) Q := by
  intro s a s' _ _ h
  cases h

theorem get : Sound P get fun _ n => P n := by
  intro s t s' hs hP h
  obtain ⟨rfl, rfl⟩ := run_get_ok h
  exact ⟨hs, Nat.le_refl _, hP⟩

theorem modify {g : State → State} {R : Unit → Nat → Prop} (h : ∀ s, s.Valid → P s.heap.length →
    (g s).Valid ∧ s.heap.length ≤ (g s).heap.length ∧ R () (g s).heap.length) : Sound P (modify g : Exec Unit) R := by
  intro s a s' hs hP hrun
  obtain rfl := run_modify_ok hrun
  exact h s hs hP

/-- What is asked for may be more, and what is said less. -/
theorem mono {Q' : α → Nat → Prop} (hm : Sound P m Q) (hP : ∀ n, P' n → P n) (hQ : ∀ a n, Q a n → Q' a n) :
    Sound P' m Q' := by
  intro s a s' hs hP' h
  obtain ⟨hs', hle, h⟩ := hm s a s' hs (hP _ hP') h
  exact ⟨hs', hle, hQ _ _ h⟩

/-- What holds of fewer class objects is carried along. -/
theorem frame (hm : Sound P m Q) (hP' : ∀ n n', n ≤ n' → P' n → P' n') :
    Sound (fun n => P n ∧ P' n) m fun a n => Q a n ∧ P' n := by
  intro s a s' hs hP h
  obtain ⟨hs', hle, h⟩ := hm s a s' hs hP.1 h
  exact ⟨hs', hle, h, hP' _ _ hle hP.2⟩

/-- What holds of fewer class objects is carried over a callback with no condition. -/
theorem carry (hm : Sound (fun _ => True) m Q) (hP : ∀ n n', n ≤ n' → P n → P n') : Sound P m fun a n => Q a n ∧ P n :=
  (hm.frame hP).mono (fun _ h => ⟨trivial, h⟩) fun _ _ h => h

end Sound

/-! ## Primitives -/

section Primitives

variable {P : Nat → Prop}

/-- The object is below the number of class objects, as the result of a callback. -/
abbrev Referring (o : LeechObj) (n : Nat) : Prop := o.Below n

theorem sound_getCurFrame : Sound P getCurFrame fun f n => f.Valid n := by
  intro s f s' hs _ h
  obtain ⟨t, u, ht, hu⟩ := run_bind_ok h
  obtain ⟨rfl, rfl⟩ := run_get_ok ht
  split at hu
  · next f' rest hf =>
      obtain ⟨rfl, rfl⟩ := run_pure_ok hu
      exact ⟨hs, Nat.le_refl _, hs.frames f (hf ▸ List.mem_cons_self)⟩
  · cases hu

theorem sound_setCurFrame (f : StackFrame) : Sound f.Valid (setCurFrame f) Always := by
  refine Sound.modify fun s hs hf => ⟨⟨hs.heap, fun f' hf' => ?_⟩, Nat.le_refl _, trivial⟩
  rcases List.mem_cons.mp hf' with rfl | hf'
  · exact hf
  · exact hs.frames f' (List.mem_of_mem_tail hf')

theorem sound_clone (o : LeechObj) : Sound P (onHeap o.clone) Referring := by
  intro s o' s' hs _ h
  obtain ⟨heap, hclone, rfl⟩ := onHeap_ok h
  have hcopies := clone_copies o o' s.heap heap hclone
  obtain ⟨hclosed, hle⟩ := hs.heap.copies hcopies
  exact ⟨⟨hclosed, fun f hf => (hs.frames f hf).mono hle⟩, hle, fun a ha => (hcopies.fresh a ha).2⟩

theorem sound_push (o : LeechObj) : Sound o.Below (push o) Always := by
  have hframe : ∀ f : StackFrame, Sound (fun n => f.Valid n ∧ o.Below n)
      (liftM (f.push o) : Exec StackFrame) fun f n => f.Valid n := by
    refine fun f => Sound.lift fun n f' hf h => ?_
    have hpush : f' = { f with dataStack := o :: f.dataStack } := by
      unfold StackFrame.push at h
      split at h
      · cases h
      · exact (Except.ok.inj h).symm
    subst hpush
    exact ⟨List.forall_mem_cons.mpr ⟨hf.2, hf.1.stack⟩, hf.1.vars, hf.1.csts⟩
  exact (sound_getCurFrame.carry fun _ _ hn h => h.mono hn).bind fun f => (hframe f).bind fun f' => sound_setCurFrame f'

theorem sound_pop : Sound P pop Always := by
  refine sound_getCurFrame.bind fun f => Sound.bind (Q := fun f n => f.Valid n) (Sound.lift fun n f' hf h => ?_)
    fun f' => sound_setCurFrame f'
  unfold StackFrame.pop at h
  split at h
  · next o dataStack hd =>
      obtain rfl := Except.ok.inj h
      exact ⟨fun o ho => hf.stack o (hd ▸ List.mem_cons_of_mem _ ho), hf.vars, hf.csts⟩
  · cases h

theorem sound_top : Sound P top Referring := by
  refine sound_getCurFrame.bind fun f => Sound.lift fun n o hf h => ?_
  unfold StackFrame.top at h
  split at h
  · next o' _ hd =>
      obtain rfl := Except.ok.inj h
      exact hf.stack _ (hd ▸ List.mem_cons_self)
  · cases h

theorem below_mono {o : LeechObj} (n n' : Nat) (hn : n ≤ n') (h : o.Below n) : o.Below n' := h.mono hn

theorem sound_popGetTos : Sound P popGetTos Referring := by
  refine sound_top.bind fun o => (sound_clone o).bind fun o' => ?_
  exact (sound_pop.carry below_mono).bind fun _ => Sound.pure fun _ h => h.2

theorem sound_popArgs (k : Nat) : Sound P (popArgs k) fun args n => ∀ o ∈ args, o.Below n := by
  induction k generalizing P with
  | zero => exact Sound.pure fun _ _ o ho => absurd ho List.not_mem_nil
  | succ k ih =>
      refine sound_popGetTos.bind fun o => (ih.carry below_mono).bind fun os => Sound.pure fun n h => ?_
      exact List.forall_mem_cons.mpr ⟨h.2, h.1⟩

theorem update_below {g : Str → Option LeechObj} {name : Str} {o : LeechObj} {n : Nat}
    (hg : ∀ name o, g name = some o → o.Below n) (ho : o.Below n) (name' : Str) (o' : LeechObj)
    (h : Function.update g name (some o) name' = some o') : o'.Below n := by
  by_cases hn : name' = name
  · subst hn
    rw [Function.update_self, Option.some.injEq] at h
    exact h ▸ ho
  · rw [Function.update_of_ne hn] at h
    exact hg name' o' h

theorem setVar_valid {f f' : StackFrame} {name : Str} {o : LeechObj} {n : Nat} (hf : f.Valid n) (ho : o.Below n)
    (h : f.setVar name o = .ok f') : f'.Valid n := by
  unfold StackFrame.setVar at h
  cases hv : f.vars name with
  | none =>
      rw [hv] at h
      cases h
  | some old =>
      rw [hv] at h
      obtain rfl := Except.ok.inj h
      exact ⟨hf.stack, update_below hf.vars ho, hf.csts⟩

theorem sound_setVar (name : Str) (o : LeechObj) : Sound o.Below (setVar name o) Always :=
  (sound_getCurFrame.carry below_mono).bind fun _ =>
    Sound.bind (Sound.lift fun _ _ hf h => setVar_valid hf.1 hf.2 h) fun f' => sound_setCurFrame f'

theorem sound_getName (idx : Byte) : Sound P (getName idx) Always :=
  sound_getCurFrame.bind fun _ => Sound.lift fun _ _ _ _ => trivial

theorem sound_setNextPC (pc : BitVec 64) : Sound P (setNextPC pc) Always :=
  Sound.modify fun _ hs _ => ⟨⟨hs.heap, hs.frames⟩, Nat.le_refl _, trivial⟩

/-- The fields refer to the first `n` class objects. -/
def ClassData.Below (n : Nat) (data : ClassData) : Prop := ∀ name o, data.fields name = some o → o.Below n

theorem sound_getClass (addr : Nat) : Sound P (getClass addr) fun data n => data.Below n := by
  intro s data s' hs _ h
  obtain ⟨t, u, ht, hu⟩ := run_bind_ok h
  obtain ⟨rfl, rfl⟩ := run_get_ok ht
  split at hu
  · next data' hd =>
      obtain ⟨rfl, rfl⟩ := run_pure_ok hu
      exact ⟨hs, Nat.le_refl _, hs.heap data (List.mem_of_getElem? hd)⟩
  · cases hu

theorem sound_setClass (addr : Nat) (data : ClassData) : Sound data.Below (setClass addr data) Always := by
  refine Sound.modify fun s hs hd => ⟨⟨fun data' hmem name o ho => ?_, fun f hf => ?_⟩, ?_, trivial⟩
  · rw [List.length_set]
    rcases List.mem_or_eq_of_mem_set hmem with hmem | rfl
    · exact hs.heap data' hmem name o ho
    · exact hd name o ho
  · rw [List.length_set]
    exact hs.frames f hf
  · rw [List.length_set]

theorem sound_makeClass : Sound P makeClass Referring := by
  intro s o s' hs _ h
  obtain ⟨t, u, ht, hu⟩ := run_bind_ok h
  obtain ⟨rfl, rfl⟩ := run_get_ok ht
  obtain ⟨_, v, hv, hw⟩ := run_bind_ok hu
  obtain ⟨rfl, rfl⟩ := run_pure_ok hw
  obtain rfl := run_modify_ok hv
  have hle : u.heap.length ≤ (u.heap ++ [({} : ClassData)]).length := by
    rw [List.length_append]
    exact Nat.le_add_right _ _
  refine ⟨⟨fun data hmem name o ho => ?_, fun f hf => (hs.frames f hf).mono hle⟩, hle, fun a ha => ?_⟩
  · rcases List.mem_append.mp hmem with hmem | hmem
    · exact (hs.heap data hmem name o ho).mono hle
    · obtain rfl := List.mem_singleton.mp hmem
      cases ho
  · obtain rfl := List.mem_singleton.mp ha
    simp only [List.length_append, List.length_singleton]
    exact Nat.lt_succ_self _

theorem sound_updateField (addr : Nat) (name : Str) (o : LeechObj) : Sound o.Below (updateField addr name o) Always := by
  exact ((sound_getClass addr).carry below_mono).bind fun data => (sound_setClass _ _).mono
    (fun n h => update_below h.1 h.2) fun _ _ h => h

theorem sound_getField (addr : Nat) (name : Str) : Sound P (getField addr name) Referring := by
  refine (sound_getClass addr).bind fun data => ?_
  split
  · next o ho => exact Sound.pure fun n h => h name o ho
  · exact Sound.throw _

theorem sound_registerMethod (addr : Nat) (name : Str) : Sound P (registerMethod addr name) Always := by
  refine (sound_getClass addr).bind fun data => ?_
  split
  · exact Sound.throw _
  · exact (sound_setClass _ _).mono (fun _ h => h) fun _ _ h => h

theorem sound_checkMethod (addr : Nat) (name : Str) : Sound P (checkMethod addr name) Always := by
  refine (sound_getClass addr).bind fun data => ?_
  split
  · exact Sound.pure fun _ _ => trivial
  · exact Sound.throw _

theorem fillNames_valid {names : List Str} {args : List LeechObj} {f f' : StackFrame} {n : Nat} (hf : f.Valid n)
    (hargs : ∀ o ∈ args, o.Below n) (h : f.fillNames names args = .ok f') : f'.Valid n := by
  induction names generalizing f args with
  | nil =>
      obtain rfl := Except.ok.inj h
      exact hf
  | cons name names ih =>
      cases args with
      | nil =>
          obtain rfl := Except.ok.inj h
          exact hf
      | cons arg args =>
          rw [StackFrame.fillNames] at h
          cases hset : f.setVar name arg with
          | error e =>
              rw [hset] at h
              cases h
          | ok f₁ =>
              rw [hset] at h
              exact ih (setVar_valid hf (hargs arg List.mem_cons_self) hset)
                (fun o ho => hargs o (List.mem_cons_of_mem _ ho)) h

theorem sound_enterFrame (f : StackFrame) (args : List LeechObj) :
    Sound (fun n => f.Valid n ∧ ∀ o ∈ args, o.Below n) (enterFrame f args) Always := by
  have hmono : ∀ n n' : Nat, n ≤ n' → (f.Valid n ∧ ∀ o ∈ args, o.Below n) → f.Valid n' ∧ ∀ o ∈ args, o.Below n' :=
    fun _ _ hn h => ⟨h.1.mono hn, fun o ho => (h.2 o ho).mono hn⟩
  refine (Sound.get.bind fun s => ?_ : Sound _ (get >>= _) Always)
  refine (sound_getCurFrame.carry hmono).bind fun cur => ?_
  refine Sound.bind (((sound_setCurFrame _).frame hmono).mono (fun n h => ⟨⟨h.1.stack, h.1.vars, h.1.csts⟩, h.2⟩)
    fun _ _ h => h) fun _ => ?_
  refine Sound.bind (Q := fun f n => f.Valid n) (Sound.lift fun n f' h hf => fillNames_valid h.2.1 h.2.2 hf) fun f' => ?_
  refine Sound.modify fun s hs hf => ⟨⟨hs.heap, fun g hg => ?_⟩, Nat.le_refl _, trivial⟩
  cases hg with
  | head => exact hf
  | tail _ hg => exact hs.frames g hg

theorem sound_binary {op : LeechObj → LeechObj → Except Error LeechObj}
    (hop : ∀ a b r n, a.Below n → b.Below n → op a b = .ok r → r.Below n) : Sound P (binary op) Always :=
  sound_popGetTos.bind fun a => (sound_popGetTos.carry below_mono).bind fun b =>
    Sound.bind (Sound.lift fun n r h hr => hop a b r n h.2 h.1 hr) fun r => sound_push r

end Primitives

/-! ## Callbacks -/

section Callbacks

variable {P : Nat → Prop} {ops : FloatOps} {file : LeechFile} {inst : Instruction}

/-- The result is a number, or there is an error. -/
theorem below_int (v : BitVec 64) (n : Nat) : (IntObj v).Below n := below_of_addrs rfl

theorem below_float (v : BitVec 64) (n : Nat) : (FloatObj v).Below n := below_of_addrs rfl

theorem notSupported_ne {α : Type} {what : String} {a b : LeechObj} {r : α} : notSupported what a b ≠ .ok r := by
  intro h
  rw [notSupported] at h
  cases a with
  | nullptr => cases h
  | _ => cases b with
    | nullptr => cases h
    | _ => cases h

theorem add_below {a b r : LeechObj} {n : Nat} (h : a.add ops b = .ok r) : r.Below n := by
  unfold LeechObj.add at h
  split at h
  · exact Except.ok.inj h ▸ below_int _ n
  · exact Except.ok.inj h ▸ below_float _ n
  · cases h
  · cases h
  · exact absurd h notSupported_ne

theorem sub_below {a b r : LeechObj} {n : Nat} (h : a.sub ops b = .ok r) : r.Below n := by
  unfold LeechObj.sub at h
  split at h
  · exact Except.ok.inj h ▸ below_int _ n
  · exact Except.ok.inj h ▸ below_float _ n
  · cases h
  · cases h
  · exact absurd h notSupported_ne

theorem div_below {a b r : LeechObj} {n : Nat} (h : a.div ops b = .ok r) : r.Below n := by
  unfold LeechObj.div at h
  split at h
  · exact Except.ok.inj h ▸ below_float _ n
  · exact Except.ok.inj h ▸ below_float _ n
  · cases h
  · cases h
  · exact absurd h notSupported_ne

theorem subscript_below {a b r : LeechObj} {n : Nat} (ha : a.Below n) (h : a.subscript b = .ok r) : r.Below n := by
  unfold LeechObj.subscript at h
  split at h
  · next tuple =>
      split at h
      · split at h
        · next hlt =>
            obtain rfl := Except.ok.inj h
            exact fun x hx => ha x (mem_addrsAll.mpr ⟨_, List.getElem_mem hlt, hx⟩)
        · cases h
      · cases h
  · cases ht : a.getType with
    | error e =>
        rw [ht] at h
        cases h
    | ok type =>
        rw [ht] at h
        cases h

theorem sound_compare : Sound P (execute_COMPARE_OP inst) Always := by
  refine sound_binary fun a b r n _ _ h => ?_
  cases hc : b.compare a inst.arg with
  | error e =>
      rw [hc] at h
      cases h
  | ok res =>
      rw [hc] at h
      exact Except.ok.inj h ▸ below_int _ n

theorem sound_popJump (whenZero : Bool) : Sound P (popJump inst whenZero) Always := by
  refine sound_popGetTos.bind fun tos => Sound.bind (Q := Always) (Sound.lift fun _ _ _ _ => trivial) fun res => ?_
  split
  · exact sound_setNextPC _
  · exact Sound.pure fun _ _ => trivial

theorem sound_tail : Sound P (modify fun s => { s with funcStack := s.funcStack.tail } : Exec Unit) Always :=
  Sound.modify fun _ hs _ => ⟨⟨hs.heap, fun f hf => hs.frames f (List.mem_of_mem_tail hf)⟩, Nat.le_refl _, trivial⟩

theorem sound_return : Sound P execute_RETURN_VALUE Always := by
  refine sound_popGetTos.bind fun tos => (sound_tail.carry below_mono).bind fun _ => Sound.get.bind fun s => ?_
  split
  · exact Sound.pure fun _ _ => trivial
  · refine (sound_getCurFrame.carry (P := fun n => Always () n ∧ tos.Below n) fun _ _ hn h => ⟨trivial, h.2.mono hn⟩).bind
      fun f => ?_
    refine ((sound_setNextPC f.retAddr).carry (P := fun n => f.Valid n ∧ Always () n ∧ tos.Below n)
      fun _ _ hn h => ⟨h.1.mono hn, trivial, h.2.2.mono hn⟩).bind fun _ => ?_
    exact (sound_push tos).mono (fun n h => h.2.2.2) fun _ _ h => h

theorem sound_loadConst : Sound P (execute_LOAD_CONST inst) Always :=
  sound_getCurFrame.bind fun _ => Sound.bind (Q := fun o n => o.Below n)
    (Sound.lift fun _ o hf h => below_of_addrs (hf.csts o (List.mem_of_getElem? (getAt_ok h)))) fun o => sound_push o

theorem sound_loadFast : Sound P (execute_LOAD_FAST inst) Always :=
  (sound_getName inst.arg).bind fun name => sound_getCurFrame.bind fun _ => Sound.bind (Q := fun o n => o.Below n)
    (Sound.lift fun _ o hf h => hf.vars name o (getAt_ok h)) fun o => sound_push o

theorem sound_storeFast : Sound P (execute_STORE_FAST inst) Always :=
  (sound_getName inst.arg).bind fun name => sound_top.bind fun o => sound_setVar name o

/-- The functions of the file have no class objects among their constants. -/
theorem new_valid (hfile : file.Classless) {name : Str} {fm : FuncMeta} (h : file.fileMeta.funcs.lookup name = some fm)
    (n : Nat) : (StackFrame.new fm).Valid n := by
  refine ⟨fun o ho => absurd ho List.not_mem_nil, fun name' o ho => ?_, hfile ⟨name, fm⟩ (AList.mem_lookup_iff.mp h)⟩
  simp only [StackFrame.new] at ho
  split at ho
  · exact Option.some.inj ho ▸ below_of_addrs rfl
  · cases ho

theorem sound_callFunction (hfile : file.Classless) : Sound P (execute_CALL_FUNCTION file inst) Always := by
  refine (sound_getName inst.arg).bind fun name => Sound.bind (Q := fun fm n => (StackFrame.new fm).Valid n)
    (Sound.lift fun n fm _ h => new_valid hfile (getAt_ok h) n) fun fm => ?_
  refine ((sound_setNextPC fm.addr).carry fun _ _ hn h => h.mono hn).bind fun _ => ?_
  refine (sound_getCurFrame.carry (P := fun n => Always () n ∧ (StackFrame.new fm).Valid n)
    fun _ _ hn h => ⟨trivial, h.2.mono hn⟩).bind fun f => ?_
  refine ((sound_popArgs _).carry (P := fun n => f.Valid n ∧ Always () n ∧ (StackFrame.new fm).Valid n)
    fun _ _ hn h => ⟨h.1.mono hn, trivial, h.2.2.mono hn⟩).bind fun args => ?_
  exact (sound_enterFrame _ args).mono (fun n h => ⟨h.2.2.2, h.1⟩) fun _ _ h => h

theorem safeConvertToClass_ok {o : LeechObj} {what : String} {addr : Nat} (h : safeConvertToClass o what = .ok addr) :
    o = .ClassObj addr := by
  unfold safeConvertToClass at h
  split at h
  · exact congrArg LeechObj.ClassObj (Except.ok.inj h)
  · cases h
  · cases h

theorem sound_safeConvertToClass (o : LeechObj) (what : String) :
    Sound o.Below (liftM (safeConvertToClass o what) : Exec Nat) fun addr n => (LeechObj.ClassObj addr).Below n :=
  Sound.lift fun _ _ ho h => safeConvertToClass_ok h ▸ ho

theorem sound_print : Sound P execute_PRINT Always :=
  sound_popGetTos.bind fun _ => Sound.modify fun _ hs _ => ⟨⟨hs.heap, hs.frames⟩, Nat.le_refl _, trivial⟩

theorem sound_storeBuildClass : Sound P (execute_STORE_BUILD_CLASS inst) Always :=
  (sound_getName inst.arg).bind fun name => sound_popGetTos.bind fun o => (sound_safeConvertToClass o _).bind fun addr =>
    sound_setVar name (.ClassObj addr)

theorem sound_storeAttr : Sound P (execute_STORE_ATTR inst) Always := by
  refine (sound_getName inst.arg).bind fun name => sound_popGetTos.bind fun attr => ?_
  refine (sound_top.carry below_mono).bind fun o => ?_
  refine Sound.bind (Q := fun _ n => attr.Below n) (Sound.lift fun _ _ h _ => h.2) fun addr => ?_
  exact sound_updateField addr name attr

theorem sound_loadAttr : Sound P (execute_LOAD_ATTR inst) Always :=
  (sound_getName inst.arg).bind fun name => sound_top.bind fun o => (sound_safeConvertToClass o _).bind fun addr =>
    (sound_getField addr name).bind fun attr => sound_push attr

theorem sound_instanceClass : Sound P (execute_INSTANCE_CLASS inst) Always := by
  refine (sound_getName inst.arg).bind fun name => sound_getCurFrame.bind fun f => ?_
  refine Sound.bind (Q := Always) (Sound.lift fun _ _ _ _ => trivial) fun o => ?_
  refine Sound.bind (Q := Always) (Sound.lift fun _ _ _ _ => trivial) fun addr => ?_
  exact (sound_clone _).bind fun copy => sound_push copy

theorem sound_registerMethodOp : Sound P (execute_REGISTER_METHOD inst) Always :=
  (sound_getName inst.arg).bind fun name => sound_top.bind fun o => (sound_safeConvertToClass o _).bind fun addr =>
    sound_registerMethod addr name

theorem sound_callMethod (hfile : file.Classless) : Sound P (execute_CALL_METHOD file inst) Always := by
  refine (sound_getName inst.arg).bind fun name => Sound.bind (Q := fun fm n => (StackFrame.new fm).Valid n)
    (Sound.lift fun n fm _ h => new_valid hfile (getAt_ok h) n) fun fm => ?_
  have hnew : ∀ n n' : Nat, n ≤ n' → (StackFrame.new fm).Valid n → (StackFrame.new fm).Valid n' := fun _ _ hn h => h.mono hn
  refine ((sound_setNextPC fm.addr).carry hnew).bind fun _ => ?_
  refine ((sound_popArgs _).carry (P := fun n => Always () n ∧ (StackFrame.new fm).Valid n)
    fun _ _ hn h => ⟨trivial, h.2.mono hn⟩).bind fun args => ?_
  have hargs : ∀ n n' : Nat, n ≤ n' → ((∀ o ∈ args, o.Below n) ∧ Always () n ∧ (StackFrame.new fm).Valid n) →
      (∀ o ∈ args, o.Below n') ∧ Always () n' ∧ (StackFrame.new fm).Valid n' :=
    fun _ _ hn h => ⟨fun o ho => (h.1 o ho).mono hn, trivial, h.2.2.mono hn⟩
  refine (sound_top.carry hargs).bind fun o => ?_
  refine Sound.bind (((sound_safeConvertToClass o _).frame hargs)) fun addr => ?_
  refine Sound.bind (((sound_checkMethod addr name).carry fun _ _ hn h => ⟨h.1.mono hn, hargs _ _ hn h.2⟩)) fun _ => ?_
  refine (sound_enterFrame _ args).mono (fun n h => ⟨⟨fun o ho => ?_, h.2.2.2.2.vars, h.2.2.2.2.csts⟩, h.2.2.1⟩) fun _ _ h => h
  exact List.mem_singleton.mp ho ▸ h.2.1

/-- Every callback keeps references valid. -/
theorem sound_execute (hfile : file.Classless) : Sound P (execute ops file inst) Always := by
  unfold execute
  split
  · exact sound_pop
  · exact sound_binary fun _ _ _ _ _ _ h => add_below h
  · exact sound_binary fun _ _ _ _ _ _ h => sub_below h
  · exact sound_binary fun _ _ _ _ _ hb h => subscript_below hb h
  · exact sound_binary fun _ _ _ _ _ _ h => div_below h
  · exact sound_return
  · exact sound_loadConst
  · exact sound_compare
  · exact sound_popJump true
  · exact sound_popJump false
  · exact sound_loadFast
  · exact sound_storeFast
  · exact sound_callFunction hfile
  · exact sound_print
  · exact sound_makeClass.bind fun o => sound_push o
  · exact sound_storeBuildClass
  · exact sound_storeAttr
  · exact sound_loadAttr
  · exact sound_instanceClass
  · exact sound_registerMethodOp
  · exact sound_callMethod hfile
  · exact Sound.throw _
  · exact Sound.throw _

end Callbacks

/-! ## Reachable states -/

theorem initial_valid {file : LeechFile} {s : State} (hfile : file.Classless) (h : State.initial file = .ok s) : s.Valid := by
  unfold State.initial at h
  cases hl : file.fileMeta.funcs.lookup kMainFuncName with
  | none =>
      rw [hl] at h
      cases h
  | some fm =>
      rw [hl] at h
      obtain rfl := Except.ok.inj h
      refine ⟨fun data hdata => absurd hdata List.not_mem_nil, fun f hf => ?_⟩
      obtain rfl := List.mem_singleton.mp hf
      exact new_valid hfile hl _

theorem Reachable.valid {ops : FloatOps} {file : LeechFile} {s : State} (hfile : file.Classless)
    (h : Reachable ops file s) : s.Valid := by
  induction h with
  | initial h => exact initial_valid hfile h
  | @step s s' _ _ hstep ih =>
      obtain ⟨inst, t, -, he, rfl⟩ := step_ok hstep
      have hstart : State.Valid { s with nextPC := none } := ⟨ih.heap, ih.frames⟩
      obtain ⟨ht, -, -⟩ := sound_execute hfile (P := fun _ => True) _ _ _ hstart trivial he
      exact ⟨ht.heap, ht.frames⟩

end CompilerLab.Leech
