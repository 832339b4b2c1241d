import CompilerLab.Leech.Lemmas.Reachable
import CompilerLab.Leech.Theorems.Calls
import CompilerLab.Leech.Theorems.Deserialize

/-!
# Instances are not independent

The fields of a copy of a class object are the fields of the object, so what is in them is shared, at whatever depth.
-/

namespace CompilerLab.Leech

open Lib LeechObj

variable {s s' : State} {f : StackFrame} {rest : List StackFrame} {inst : Instruction}

/-! ## Attributes of references -/

theorem getClass_ok {addr : Nat} {data : ClassData} (h : (getClass addr).run s = .ok (data, s')) :
    s.heap[addr]? = some data ∧ s = s' := by
  obtain ⟨t, u, ht, hu⟩ := run_bind_ok h
  obtain ⟨rfl, rfl⟩ := run_get_ok ht
  split at hu
  · next d hd =>
      obtain ⟨rfl, rfl⟩ := run_pure_ok hu
      exact ⟨hd, rfl⟩
  · cases hu

theorem getField_ok {addr : Nat} {name : Str} {o : LeechObj} (h : (getField addr name).run s = .ok (o, s')) :
    (ClassObj addr).access s.heap (.attr name) = some o ∧ s = s' := by
  obtain ⟨data, t, hd, ht⟩ := run_bind_ok h
  obtain ⟨hdata, rfl⟩ := getClass_ok hd
  split at ht
  · next o' ho =>
      obtain ⟨rfl, rfl⟩ := run_pure_ok ht
      refine ⟨?_, rfl⟩
      rw [access, hdata]
      exact ho
  · cases ht

/-- An attribute is loaded from the class object on the top of the stack, which stays there. -/
theorem loadAttr_ok (hs : s.funcStack = f :: rest) (h : (execute_LOAD_ATTR inst).run s = .ok ((), s')) :
    ∃ name o, (∃ obj, f.dataStack = obj :: f.dataStack.tail ∧ obj.access s.heap (.attr name) = some o) ∧
      s' = { s with funcStack := { f with dataStack := o :: f.dataStack } :: rest } := by
  obtain ⟨name, s₁, hname, h₁⟩ := run_bind_ok h
  obtain ⟨-, rfl⟩ := getName_ok hs hname
  obtain ⟨obj, s₂, htop, h₂⟩ := run_bind_ok h₁
  obtain ⟨hd, rfl⟩ := top_ok hs htop
  obtain ⟨addr, s₃, hconv, h₃⟩ := run_bind_ok h₂
  obtain ⟨haddr, rfl⟩ := run_lift_ok hconv
  obtain rfl := safeConvertToClass_ok haddr
  obtain ⟨o, s₄, hfield, h₄⟩ := run_bind_ok h₃
  obtain ⟨ho, rfl⟩ := getField_ok hfield
  exact ⟨name, o, ⟨_, hd, ho⟩, push_ok hs h₄⟩

/-- A copy of the top of the stack is stored in the class object under it. -/
theorem storeAttr_ok (hs : s.funcStack = f :: rest) (h : (execute_STORE_ATTR inst).run s = .ok ((), s')) :
    ∃ name attr attr' heap d data, f.dataStack = attr :: ClassObj d :: f.dataStack.tail.tail ∧
      attr.clone.run s.heap = .ok (attr', heap) ∧ heap[d]? = some data ∧
      s'.heap = heap.set d { data with fields := Function.update data.fields name (some attr') } := by
  obtain ⟨name, s₁, hname, h₁⟩ := run_bind_ok h
  obtain ⟨-, rfl⟩ := getName_ok hs hname
  obtain ⟨attr', s₂, hpop, h₂⟩ := run_bind_ok h₁
  obtain ⟨attr, heap, hd, hclone, rfl⟩ := popGetTos_ok hs hpop
  obtain ⟨obj, s₃, htop, h₃⟩ := run_bind_ok h₂
  obtain ⟨hd', rfl⟩ := top_ok rfl htop
  obtain ⟨addr, s₄, hconv, h₄⟩ := run_bind_ok h₃
  obtain ⟨haddr, rfl⟩ := run_lift_ok hconv
  obtain rfl := safeConvertToClass_ok haddr
  obtain ⟨data, s₅, hclass, h₅⟩ := run_bind_ok h₄
  obtain ⟨hdata, rfl⟩ := getClass_ok hclass
  refine ⟨name, attr, attr', heap, addr, data, ?_, hclone, hdata, ?_⟩
  · rw [hd]
    exact congrArg _ hd'
  · rw [run_modify_ok h₅]

theorem follow_cons (heap : Heap) (obj : LeechObj) (x : Access) (path : List Access) :
    obj.follow heap (x :: path) = (obj.access heap x).bind fun o => o.follow heap path := List.foldlM_cons

theorem follow_append (heap : Heap) (obj : LeechObj) (path path' : List Access) :
    obj.follow heap (path ++ path') = (obj.follow heap path).bind fun o => o.follow heap path' := List.foldlM_append

theorem loads_ok {loads : List Instruction} {obj : LeechObj} (hs : s.funcStack = f :: rest)
    (hd : f.dataStack = obj :: f.dataStack.tail) (h : (loads.forM execute_LOAD_ATTR).run s = .ok ((), s')) :
    ∃ (path : List Str) (o : LeechObj) (f' : StackFrame), obj.follow s.heap (path.map .attr) = some o ∧
      s'.funcStack = f' :: rest ∧ f'.dataStack = o :: f'.dataStack.tail ∧ s'.heap = s.heap := by
  induction loads generalizing s f obj with
  | nil =>
      obtain ⟨-, rfl⟩ := run_pure_ok h
      exact ⟨[], obj, f, rfl, hs, hd, rfl⟩
  | cons inst loads ih =>
      obtain ⟨_, t, ht, hrest⟩ := run_bind_ok h
      obtain ⟨name, o, ⟨obj', hd', ho⟩, rfl⟩ := loadAttr_ok hs ht
      obtain rfl : obj' = obj := (List.cons.inj (hd'.symm.trans hd)).1
      obtain ⟨path, o', f', hpath, hs', hd', hheap⟩ := ih rfl rfl hrest
      refine ⟨name :: path, o', f', ?_, hs', hd', hheap⟩
      rw [List.map_cons, follow_cons, ho]
      exact hpath

/-- What a store through a class object does to the class objects. -/
theorem storeThrough_ok {c : Nat} {loads : List Instruction} {attr : LeechObj} {store : Instruction}
    (h : (storeThrough c loads attr store).run s = .ok ((), s')) :
    ∃ (path : List Str) (d : Nat) (data : ClassData) (name : Str) (attr' : LeechObj) (heap : Heap),
      (ClassObj c).follow s.heap (path.map .attr) = some (ClassObj d) ∧ attr.clone.run s.heap = .ok (attr', heap) ∧
      heap[d]? = some data ∧ s'.heap = heap.set d { data with fields := Function.update data.fields name (some attr') } := by
  obtain ⟨_, s₁, hpush, h₁⟩ := run_bind_ok h
  cases hs : s.funcStack with
  | nil =>
      obtain ⟨frame, s₂, hcur, -⟩ := run_bind_ok hpush
      obtain ⟨t, u, ht, hu⟩ := run_bind_ok hcur
      obtain ⟨rfl, rfl⟩ := run_get_ok ht
      rw [hs] at hu
      cases hu
  | cons f rest =>
      obtain rfl := push_ok hs hpush
      obtain ⟨_, s₂, hloads, h₂⟩ := run_bind_ok h₁
      obtain ⟨path, o, f₂, hpath, hs₂, hd₂, hheap₂⟩ := loads_ok rfl rfl hloads
      obtain ⟨_, s₃, hattr, h₃⟩ := run_bind_ok h₂
      obtain rfl := push_ok hs₂ hattr
      obtain ⟨name, top, attr', heap, d, data, hd, hclone, hdata, hheap⟩ := storeAttr_ok rfl h₃
      obtain ⟨rfl, htail⟩ := List.cons.inj hd
      obtain ⟨rfl, -⟩ := List.cons.inj (hd₂.symm.trans htail)
      rw [← hheap₂]
      rw [← hheap₂] at hpath
      exact ⟨path, d, data, name, attr', heap, hpath, hclone, hdata, hheap⟩

/-! ## What is not observed may be changed -/

theorem access_attr {heap : Heap} {obj o : LeechObj} {name : Str} (h : obj.access heap (.attr name) = some o) :
    ∃ addr data, obj = ClassObj addr ∧ heap[addr]? = some data ∧ data.fields name = some o := by
  cases obj with
  | ClassObj addr =>
      cases hd : heap[addr]? with
      | none => simp [access, hd] at h
      | some data =>
          rw [access, hd] at h
          exact ⟨addr, data, rfl, hd, h⟩
  | _ => cases h

/-- What is reached by attributes is the value of a field, but for the object itself. -/
theorem follow_attrs {heap : Heap} {obj : LeechObj} {path : List Str} {d : Nat}
    (h : obj.follow heap (path.map .attr) = some (ClassObj d)) : obj = ClassObj d ∨ heap.Held d := by
  induction path generalizing obj with
  | nil => exact .inl (Option.some.inj h)
  | cons name path ih =>
      rw [List.map_cons, follow_cons, Option.bind_eq_some_iff] at h
      obtain ⟨o, ho, hrest⟩ := h
      rcases ih hrest with rfl | hheld
      · obtain ⟨addr, data, -, hdata, hfield⟩ := access_attr ho
        exact .inr ⟨addr, data, name, hdata, hfield⟩
      · exact .inr hheld

theorem Heap.Held.of_copies {heap heap' : Heap} {as : List Nat} {d : Nat} (hc : Copies heap heap' as) (h : heap'.Held d) :
    heap.Held d := by
  obtain ⟨addr, data, name, hdata, hfield⟩ := h
  obtain ⟨⟨extra, rfl, hextra⟩, -⟩ := hc
  have hmem : data ∈ heap := (List.mem_append.mp (List.mem_of_getElem? hdata)).elim id (hextra data)
  obtain ⟨addr', hdata'⟩ := List.mem_iff_getElem?.mp hmem
  exact ⟨addr', data, name, hdata', hfield⟩

theorem Heap.Held.of_set {heap : Heap} {d x : Nat} {data : ClassData} {name : Str} {attr : LeechObj}
    (hdata : heap[d]? = some data)
    (h : Heap.Held (heap.set d { data with fields := Function.update data.fields name (some attr) }) x) :
    heap.Held x ∨ attr = ClassObj x := by
  obtain ⟨addr, data', name', hdata', hfield⟩ := h
  by_cases had : d = addr
  · subst had
    rw [List.getElem?_set_self (List.getElem?_eq_some_iff.mp hdata).1] at hdata'
    obtain rfl := Option.some.inj hdata'
    by_cases hn : name' = name
    · subst hn
      simp only [Function.update_self, Option.some.injEq] at hfield
      exact .inr hfield
    · simp only [Function.update_of_ne hn] at hfield
      exact .inl ⟨d, data, name', hdata, hfield⟩
  · rw [List.getElem?_set_ne had] at hdata'
    exact .inl ⟨addr, data', name', hdata', hfield⟩

/-- The class objects `O` are as they were, and nothing but the copy leads to them. -/
structure Apart (heap heap' : Heap) (O : Nat → Prop) : Prop where
  longer : heap.length ≤ heap'.length
  same : ∀ a, O a → heap'[a]? = heap[a]?
  notHeld : ∀ a, O a → ¬ heap'.Held a

variable {heap heap' : Heap} {O : Nat → Prop} {c o : Nat}

theorem Apart.store {loads : List Instruction} {attr : LeechObj} {store : Instruction} (h : Apart heap s.heap O)
    (hO : ∀ a, O a → a < heap.length) (hc : ¬ O c) (hs : (storeThrough c loads attr store).run s = .ok ((), s')) :
    Apart heap s'.heap O := by
  obtain ⟨path, d, data, name, attr', heap₁, hpath, hclone, hdata, hheap⟩ := storeThrough_ok hs
  have hcopies := clone_copies attr attr' s.heap heap₁ hclone
  have hd : ¬ O d := by
    rcases follow_attrs hpath with heq | hheld
    · exact ClassObj.inj heq ▸ hc
    · exact fun hOd => h.notHeld d hOd hheld
  have hold : ∀ a, O a → heap₁[a]? = s.heap[a]? := by
    intro a ha
    obtain ⟨⟨extra, rfl, -⟩, -⟩ := hcopies
    exact List.getElem?_append_left ((hO a ha).trans_le h.longer)
  have hle : s.heap.length ≤ heap₁.length := by
    obtain ⟨⟨extra, rfl, -⟩, -⟩ := hcopies
    rw [List.length_append]
    exact Nat.le_add_right _ _
  rw [hheap]
  refine ⟨?_, fun a ha => ?_, fun a ha hheld => ?_⟩
  · rw [List.length_set]
    exact h.longer.trans hle
  · have hne : d ≠ a := fun heq => hd (heq ▸ ha)
    rw [List.getElem?_set_ne hne, hold a ha, h.same a ha]
  · rcases Heap.Held.of_set hdata hheld with hheld | rfl
    · exact h.notHeld a ha (hheld.of_copies hcopies)
    · have hfresh := (hcopies.fresh a (List.mem_singleton.mpr rfl)).1
      have hlt := hO a ha
      have hlong := h.longer
      omega

theorem Apart.through (ht : Through c heap heap') (hO : ∀ a, O a → a < heap.length) (hc : ¬ O c)
    (hheld : ∀ a, O a → ¬ heap.Held a) : Apart heap heap' O := by
  induction ht with
  | refl => exact ⟨Nat.le_refl _, fun _ _ => rfl, hheld⟩
  | store _ hs ih => exact ih.store hO hc hs

/-- What is seen through an object is the same when the class objects in it are the same. -/
theorem follow_eq (h : ∀ a, O a → heap'[a]? = heap[a]?) {obj : LeechObj} (path : List Access)
    (hobj : ∀ p a, obj.follow heap p = some (ClassObj a) → O a) : obj.follow heap' path = obj.follow heap path := by
  induction path generalizing obj with
  | nil => rfl
  | cons x path ih =>
      have hx : obj.access heap' x = obj.access heap x := by
        cases obj with
        | ClassObj a =>
            cases x with
            | attr name => rw [access, access, h a (hobj [] a rfl)]
            | item i => rfl
        | TupleObj t => cases x <;> rfl
        | _ => rfl
      rw [follow_cons, follow_cons, hx]
      cases ho : obj.access heap x with
      | none => rfl
      | some o =>
          refine ih fun p a ha => hobj (x :: p) a ?_
          rw [follow_cons, ho]
          exact ha

theorem independent_of_apart (hclosed : ∀ d, heap.Observes o d → d < heap.length) (hc : ¬ heap.Observes o c)
    (hheld : ∀ d, heap.Observes o d → ¬ heap.Held d) : heap.Independent c o := by
  intro heap' ht path
  have hapart := Apart.through ht hclosed hc hheld
  rw [Heap.observe, Heap.observe, follow_eq hapart.same path fun p a ha => ⟨p, ha⟩]

theorem access_below {obj o : LeechObj} {x : Access} (h : heap.Closed) (hobj : obj.Below heap.length)
    (ho : obj.access heap x = some o) : o.Below heap.length := by
  cases x with
  | attr name =>
      obtain ⟨addr, data, rfl, hdata, hfield⟩ := access_attr ho
      exact h data (List.mem_of_getElem? hdata) name o hfield
  | item i =>
      cases obj with
      | TupleObj t => exact fun a ha => hobj a (mem_addrsAll.mpr ⟨o, List.mem_of_getElem? ho, ha⟩)
      | _ => cases ho

theorem follow_below {obj o : LeechObj} {path : List Access} (h : heap.Closed) (hobj : obj.Below heap.length)
    (ho : obj.follow heap path = some o) : o.Below heap.length := by
  induction path generalizing obj with
  | nil => exact Option.some.inj ho ▸ hobj
  | cons x path ih =>
      rw [follow_cons, Option.bind_eq_some_iff] at ho
      obtain ⟨o₁, hx, hrest⟩ := ho
      exact ih (access_below h hobj hx) hrest

theorem Heap.Observes.lt {d : Nat} (h : heap.Closed) (ho : o < heap.length) (hd : heap.Observes o d) : d < heap.length := by
  obtain ⟨path, hpath⟩ := hd
  have hobj : (ClassObj o).Below heap.length := fun a ha => List.mem_singleton.mp ha ▸ ho
  exact follow_below h hobj hpath d (List.mem_singleton.mpr rfl)

/-! ## What is observed is changed -/

/-- The name of an attribute. -/
def Access.name : Access → Option Str
  | attr name => some name
  | item _ => none

/-- A name that is not used in a path. -/
theorem exists_unused (path : List Access) : ∃ z : Str, Access.attr z ∉ path := by
  obtain ⟨z, hz⟩ := Infinite.exists_notMem_finset (path.filterMap Access.name).toFinset
  refine ⟨z, fun hmem => hz ?_⟩
  rw [List.mem_toFinset, List.mem_filterMap]
  exact ⟨.attr z, hmem, rfl⟩

theorem follow_extend {obj o : LeechObj} {path : List Access} {extra : Heap} (h : obj.follow heap path = some o) :
    obj.follow (heap ++ extra) path = some o := by
  induction path generalizing obj with
  | nil => exact h
  | cons x path ih =>
      rw [follow_cons, Option.bind_eq_some_iff] at h ⊢
      obtain ⟨o₁, hx, hrest⟩ := h
      refine ⟨o₁, ?_, ih hrest⟩
      cases x with
      | attr name =>
          obtain ⟨addr, data, rfl, hdata, hfield⟩ := access_attr hx
          rw [access, List.getElem?_append_left (List.getElem?_eq_some_iff.mp hdata).1, hdata]
          exact hfield
      | item i => cases obj <;> exact hx

/-- A path that does not use the attribute that is stored leads where it did. -/
theorem follow_set {obj : LeechObj} {path : List Access} {d : Nat} {data : ClassData} {z : Str} {v : LeechObj}
    (hdata : heap[d]? = some data) (hz : Access.attr z ∉ path) :
    obj.follow (heap.set d { data with fields := Function.update data.fields z (some v) }) path = obj.follow heap path := by
  induction path generalizing obj with
  | nil => rfl
  | cons x path ih =>
      obtain ⟨hx, hpath⟩ := not_or.mp (fun h => hz (List.mem_cons.mpr h))
      have hstep : obj.access (heap.set d { data with fields := Function.update data.fields z (some v) }) x =
          obj.access heap x := by
        cases obj with
        | ClassObj a =>
            cases x with
            | attr name =>
                have hname : name ≠ z := fun h => hx (h ▸ rfl)
                by_cases had : d = a
                · subst had
                  rw [access, access, List.getElem?_set_self (List.getElem?_eq_some_iff.mp hdata).1, hdata]
                  exact Function.update_of_ne hname ..
                · rw [access, access, List.getElem?_set_ne had]
            | item i => rfl
        | TupleObj t => cases x <;> rfl
        | _ => rfl
      rw [follow_cons, follow_cons, hstep]
      exact Option.bind_congr fun o _ => ih hpath

theorem loadAttr_run {obj o : LeechObj} {stack : List LeechObj} {name : Str} (hs : s.funcStack = f :: rest)
    (hd : f.dataStack = obj :: stack) (hn : f.pmeta.names[inst.arg.toNat]? = some name)
    (ho : obj.access s.heap (.attr name) = some o) (hne : o ≠ .nullptr) : (execute_LOAD_ATTR inst).run s =
      .ok ((), { s with funcStack := { f with dataStack := o :: obj :: stack } :: rest }) := by
  obtain ⟨addr, data, rfl, hdata, hfield⟩ := access_attr ho
  simp [execute_LOAD_ATTR, getName, getCurFrame, top, StackFrame.top, StackFrame.getName, getAt, safeConvertToClass, getField,
    getClass, push, hs, hd, hn, hdata, hfield, StackFrame.push, setCurFrame]

theorem storeAttr_run {attr attr' : LeechObj} {d : Nat} {stack : List LeechObj} {name : Str} {data : ClassData}
    (hs : s.funcStack = f :: rest) (hd : f.dataStack = attr :: ClassObj d :: stack)
    (hn : f.pmeta.names[inst.arg.toNat]? = some name) (hclone : attr.clone.run s.heap = .ok (attr', heap))
    (hdata : heap[d]? = some data) : (execute_STORE_ATTR inst).run s = .ok ((), { s with
      funcStack := { f with dataStack := ClassObj d :: stack } :: rest
      heap := heap.set d { data with fields := Function.update data.fields name (some attr') } }) := by
  simp [execute_STORE_ATTR, getName, getCurFrame, top, StackFrame.top, StackFrame.getName, getAt, safeConvertToClass,
    getClass, hs, hd, hn, hdata, setCurFrame, popGetTos, onHeap, hclone, pop, StackFrame.pop, updateField, setClass]

/-- The instructions have the names as their arguments. -/
abbrev Named (names : List Str) (insts : List Instruction) (path : List Str) : Prop :=
  List.Forall₂ (fun inst name => names[inst.arg.toNat]? = some name) insts path

theorem loads_run {loads : List Instruction} {path names : List Str} {obj : LeechObj} {d : Nat} {stack : List LeechObj}
    (hs : s.funcStack = f :: rest) (hd : f.dataStack = obj :: stack) (hf : f.pmeta.names = names) (hn : Named names loads path)
    (h : obj.follow s.heap (path.map .attr) = some (ClassObj d)) : ∃ stack', (loads.forM execute_LOAD_ATTR).run s =
      .ok ((), { s with funcStack := { f with dataStack := ClassObj d :: stack' } :: rest }) := by
  induction hn generalizing s f obj stack with
  | nil =>
      obtain rfl := Option.some.inj h
      refine ⟨stack, ?_⟩
      rw [← hd, ← hs]
      rfl
  | @cons inst name loads path hname _ ih =>
      rw [List.map_cons, follow_cons, Option.bind_eq_some_iff] at h
      obtain ⟨o, ho, hrest⟩ := h
      have hne : o ≠ .nullptr := by
        rintro rfl
        cases path with
        | nil => cases hrest
        | cons name path =>
            rw [List.map_cons, follow_cons] at hrest
            cases hrest
      have hload := loadAttr_run hs hd (hf ▸ hname) ho hne
      obtain ⟨stack', hrun⟩ := @ih { s with funcStack := { f with dataStack := o :: obj :: stack } :: rest }
        { f with dataStack := o :: obj :: stack } o (obj :: stack) rfl rfl hf hrest
      exact ⟨stack', run_bind_of_ok hload hrun⟩

/-- A state in which a function with the given names begins. -/
def namesState (names : List Str) (heap : Heap) (stack : List LeechObj) : State where
  funcStack := [{ StackFrame.new { names } with dataStack := stack }]
  pc := 0
  heap := heap

theorem Through.storeAttr {loads : List Instruction} {path names : List Str} {store : Instruction} {attr attr' : LeechObj}
    {d : Nat} {heap₁ : Heap} {data : ClassData} {z : Str} (ht : Through c heap' heap) (hn : Named names loads path)
    (hz : names[store.arg.toNat]? = some z) (h : (ClassObj c).follow heap (path.map .attr) = some (ClassObj d))
    (hne : attr ≠ .nullptr) (hclone : attr.clone.run heap = .ok (attr', heap₁)) (hdata : heap₁[d]? = some data) :
    Through c heap' (heap₁.set d { data with fields := Function.update data.fields z (some attr') }) := by
  have hpush : (push (ClassObj c)).run (namesState names heap []) = .ok ((), namesState names heap [ClassObj c]) := rfl
  obtain ⟨stack, hloads⟩ := @loads_run (namesState names heap [ClassObj c]) _ [] loads path names _ d [] rfl rfl rfl hn h
  have hattr : (push attr).run (namesState names heap (ClassObj d :: stack)) =
      .ok ((), namesState names heap (attr :: ClassObj d :: stack)) := by
    cases attr with
    | nullptr => exact absurd rfl hne
    | _ => rfl
  have hstore := @storeAttr_run (namesState names heap (attr :: ClassObj d :: stack)) _ [] store heap₁ attr attr' d stack z data rfl rfl
    hz hclone hdata
  exact @Through.store c heap' (namesState names heap []) _ loads attr store ht
    (run_bind_of_ok hpush (run_bind_of_ok hloads (run_bind_of_ok hattr hstore)))

/-- An attribute that is not used on the way to it is changed. -/
theorem not_independent {loads : List Instruction} {path names : List Str} {store : Instruction} {d : Nat} {p : List Access}
    {z : Str} (ht : Through c heap heap') (hn : Named names loads path) (hz : names[store.arg.toNat]? = some z)
    (h : (ClassObj c).follow heap' (path.map .attr) = some (ClassObj d)) (hd : d < heap'.length)
    (hp : (ClassObj o).follow heap' p = some (ClassObj d)) (hunused : Access.attr z ∉ p) : ¬ heap.Independent c o := by
  intro hind
  have hdata : heap'[d]? = some heap'[d] := List.getElem?_eq_getElem hd
  have hvalue : ∀ v : BitVec 64, heap.observe o (p ++ [.attr z]) = some (.int v) := by
    intro v
    have hstore : Through c heap (heap'.set d { heap'[d] with fields := Function.update heap'[d].fields z (some (IntObj v)) }) :=
      @Through.storeAttr heap' heap c loads path names store (IntObj v) _ d heap' _ z ht hn hz h
        (fun hnull => LeechObj.noConfusion hnull) rfl hdata
    have hsame := hind _ hstore (p ++ [.attr z])
    rw [← hsame, Heap.observe, follow_append, follow_set hdata hunused, hp, Option.bind_some, follow_cons, access,
      List.getElem?_set_self hd]
    change Option.map seen ((Function.update heap'[d].fields z (some (IntObj v)) z).bind fun o => some o) = _
    rw [Function.update_self]
    rfl
  have hzero := (hvalue 0).symm.trans (hvalue 1)
  cases hzero

theorem not_independent_of_observes (hc : c < heap.length) (h : heap.Observes o c) : ¬ heap.Independent c o := by
  obtain ⟨p, hp⟩ := h
  obtain ⟨z, hz⟩ := exists_unused p
  exact @not_independent heap heap c o [] [] [z] {} c p z (.refl heap) .nil rfl rfl hc hp hz

theorem not_independent_of_held (hc : c < heap.length) {d : Nat} (hd : d < heap.length) (h : heap.Observes o d)
    (hheld : heap.Held d) : ¬ heap.Independent c o := by
  obtain ⟨p, hp⟩ := h
  obtain ⟨z, hz⟩ := exists_unused p
  obtain ⟨e, data, k, hdata, hfield⟩ := hheld
  have hcdata : heap[c]? = some heap[c] := List.getElem?_eq_getElem hc
  have hlong : (heap ++ [data])[c]? = some heap[c] := by rw [List.getElem?_append_left hc, hcdata]
  have hclone : (ClassObj e).clone.run heap = .ok (ClassObj heap.length, heap ++ [data]) := by
    simp only [clone, StateT.run, hdata]
  -- A copy of the class object that holds `d` is stored in `c`.
  have hfirst := @Through.storeAttr heap heap c [] [] [z] {} (ClassObj e) _ c _ _ z (.refl heap) .nil rfl rfl
    (fun hnull => LeechObj.noConfusion hnull) hclone hlong
  refine @not_independent heap _ c o [⟨.LOAD_ATTR, 0⟩, ⟨.LOAD_ATTR, 1⟩] [z, k] [z, k] {} d p z hfirst
    (.cons rfl (.cons rfl .nil)) rfl ?_ ?_ ?_ hz
  · have hne : c ≠ heap.length := Nat.ne_of_lt hc
    rw [List.map_cons, List.map_cons, follow_cons, access, List.getElem?_set_self (by rw [List.length_append]; omega)]
    change Option.bind (Function.update heap[c].fields z (some (ClassObj heap.length)) z) _ = _
    rw [Function.update_self, Option.bind_some, follow_cons, access, List.getElem?_set_ne hne, List.getElem?_append_right
      (Nat.le_refl _), Nat.sub_self]
    change Option.bind (data.fields k) _ = _
    rw [hfield]
    rfl
  · rw [List.length_set, List.length_append]
    omega
  · rw [follow_set hlong hz]
    exact follow_extend hp

theorem independent_iff_of_closed (hclosed : heap.Closed) (hc : c < heap.length) (ho : o < heap.length) :
    heap.Independent c o ↔ ¬ heap.Observes o c ∧ ∀ d, heap.Observes o d → ¬ heap.Held d := by
  constructor
  · intro hind
    refine ⟨fun hobs => not_independent_of_observes hc hobs hind, fun d hobs hheld => ?_⟩
    exact not_independent_of_held hc (hobs.lt hclosed ho) hobs hheld hind
  · rintro ⟨hobs, hheld⟩
    exact independent_of_apart (fun d hd => hd.lt hclosed ho) hobs hheld

/-- A file that has been read has no class objects among its constants. -/
theorem deserialize_classless {bytes : List Byte} {file : LeechFile} (h : LeechFile.deserialize bytes = .ok file) :
    file.Classless := by
  rcases LeechFile.deserialize_cases bytes with ⟨e, he, -⟩ | ⟨file', hok, hsolid, -⟩
  · rw [he] at h
    cases h
  · obtain rfl := Except.ok.inj (hok.symm.trans h)
    intro entry hentry o ho
    obtain ⟨hnull, hcopied⟩ := hsolid entry hentry o ho
    have hclone : o.clone.run [] = .ok (o, []) := by rw [hcopied, if_neg (hnull ▸ Bool.false_ne_true)]
    refine List.eq_nil_iff_forall_not_mem.mpr fun a ha => ?_
    exact absurd ((clone_copies o o [] [] hclone).fresh a ha).2 (Nat.not_lt_zero a)

/-- The class object with `f`. -/
def withField : ClassData where
  fields := Function.update (fun _ => none) [0x66] (some (ClassObj 2))

/-- An instance is a new class object with the fields of the class. -/
theorem instanceClass_ok (hs : s.funcStack = f :: rest) (h : (execute_INSTANCE_CLASS inst).run s = .ok ((), s')) :
    ∃ data ∈ s.heap, s'.heap = s.heap ++ [data] ∧
      s'.funcStack = { f with dataStack := ClassObj s.heap.length :: f.dataStack } :: rest := by
  obtain ⟨name, s₁, hname, h₁⟩ := run_bind_ok h
  obtain ⟨-, rfl⟩ := getName_ok hs hname
  obtain ⟨f', s₂, hcur, h₂⟩ := run_bind_ok h₁
  obtain ⟨rfl, rfl⟩ := getCurFrame_ok hs hcur
  obtain ⟨obj, s₃, hvar, h₃⟩ := run_bind_ok h₂
  obtain ⟨-, rfl⟩ := run_lift_ok hvar
  obtain ⟨addr, s₄, hconv, h₄⟩ := run_bind_ok h₃
  obtain ⟨-, rfl⟩ := run_lift_ok hconv
  obtain ⟨copy, s₅, hclone, h₅⟩ := run_bind_ok h₄
  obtain ⟨heap, hrun, rfl⟩ := onHeap_ok hclone
  cases hd : s₄.heap[addr]? with
  | none => simp [clone, StateT.run, hd] at hrun
  | some data =>
      simp only [clone, StateT.run, hd] at hrun
      obtain ⟨rfl, rfl⟩ := Prod.mk.inj (Except.ok.inj hrun)
      refine ⟨data, List.mem_of_getElem? hd, ?_, ?_⟩
      · rw [push_ok (by exact hs) h₅]
      · rw [push_ok (by exact hs) h₅]

/-- What is stored through a new instance is not seen through an older object exactly when nothing in the older object is the value
of a field. -/
theorem instance_independent_iff {ops : FloatOps} {file : LeechFile} (hfile : file.Classless) (h : Reachable ops file s)
    (hs : s.funcStack = f :: rest) (hi : (execute_INSTANCE_CLASS inst).run s = .ok ((), s')) (ho : o < s.heap.length) :
    s'.heap.Independent s.heap.length o ↔ ∀ d, s.heap.Observes o d → ¬ s.heap.Held d := by
  have hvalid := h.valid hfile
  obtain ⟨hvalid', -, -⟩ := sound_instanceClass (P := fun _ => True) s _ s' hvalid trivial hi
  obtain ⟨data, hdata, hheap, -⟩ := instanceClass_ok hs hi
  have hlen : s'.heap.length = s.heap.length + 1 := by rw [hheap, List.length_append, List.length_singleton]
  have hold : ∀ a, a < s.heap.length → s'.heap[a]? = s.heap[a]? := fun a ha => hheap ▸ List.getElem?_append_left ha
  have hobs : ∀ d, s'.heap.Observes o d ↔ s.heap.Observes o d := by
    refine fun d => exists_congr fun path => ?_
    rw [follow_eq hold path fun p a ha => Heap.Observes.lt hvalid.heap ho ⟨p, ha⟩]
  have hheld : ∀ d, s'.heap.Held d ↔ s.heap.Held d := by
    refine fun d => ⟨Heap.Held.of_copies ⟨⟨[data], hheap, fun x hx => List.mem_singleton.mp hx ▸ hdata⟩,
      fun _ ha => absurd ha List.not_mem_nil⟩, ?_⟩
    rintro ⟨addr, data', name, hdata', hfield⟩
    exact ⟨addr, data', name, (hold addr (List.getElem?_eq_some_iff.mp hdata').1).trans hdata', hfield⟩
  rw [independent_iff_of_closed hvalid'.heap (by omega) (by omega)]
  constructor
  · exact fun hi d hd hh => hi.2 d ((hobs d).mpr hd) ((hheld d).mpr hh)
  · refine fun hi => ⟨fun hd => ?_, fun d hd hh => hi d ((hobs d).mp hd) ((hheld d).mp hh)⟩
    exact Nat.lt_irrefl _ (Heap.Observes.lt hvalid.heap ho ((hobs _).mp hd))

/-- The names of `main`, of which `v` is the variable with the class. -/
def nestedMeta : FuncMeta where
  names := [[0x66], [0x76]]

/-- A class with another class in its field `f`, and an instance of it. -/
def nestedClass : LeechFile where
  fileMeta.funcs := AList.singleton kMainFuncName nestedMeta
  code := [⟨.LOAD_BUILD_CLASS, 0⟩, ⟨.LOAD_BUILD_CLASS, 0⟩, ⟨.STORE_ATTR, 0⟩, ⟨.STORE_BUILD_CLASS, 1⟩, ⟨.INSTANCE_CLASS, 1⟩]

/-- A state of `main`. -/
def nestedState (pc : BitVec 64) (stack : List LeechObj) (vars : Str → Option LeechObj) (heap : Heap) : State where
  funcStack := [{ StackFrame.new nestedMeta with
    dataStack := stack
    vars }]
  pc := pc
  heap := heap

/-- The variables when the class has been stored. -/
def nestedVars : Str → Option LeechObj :=
  Function.update (StackFrame.new nestedMeta).vars [0x76] (some (ClassObj 3))

/-- The class is the object 3, and its instance the object 4. -/
def nestedInstance : State := nestedState 5 [ClassObj 4] nestedVars [withField, {}, {}, withField, withField]

theorem nestedClass_classless : nestedClass.Classless := by
  intro entry hentry
  obtain rfl := List.mem_singleton.mp hentry
  exact fun o ho => absurd ho List.not_mem_nil

theorem nestedInstance_reachable (ops : FloatOps) : Reachable ops nestedClass nestedInstance := by
  have h₀ : Reachable ops nestedClass (nestedState 0 [] (StackFrame.new nestedMeta).vars []) := .initial rfl
  have h₁ : Reachable ops nestedClass (nestedState 1 [ClassObj 0] (StackFrame.new nestedMeta).vars [{}]) := h₀.step rfl rfl
  have h₂ : Reachable ops nestedClass (nestedState 2 [ClassObj 1, ClassObj 0] (StackFrame.new nestedMeta).vars [{}, {}]) :=
    h₁.step rfl rfl
  have h₃ : Reachable ops nestedClass (nestedState 3 [ClassObj 0] (StackFrame.new nestedMeta).vars [withField, {}, {}]) :=
    h₂.step rfl rfl
  have h₄ : Reachable ops nestedClass (nestedState 4 [] nestedVars [withField, {}, {}, withField]) := h₃.step rfl rfl
  exact h₄.step rfl rfl

end CompilerLab.Leech
