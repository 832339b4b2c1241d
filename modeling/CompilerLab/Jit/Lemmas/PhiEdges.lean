import CompilerLab.Jit.Lemmas.Edges
import CompilerLab.Jit.Lemmas.Joins
import CompilerLab.Jit.Lemmas.Removal

/-!
# Phis when an edge goes

What `FixPHIAfterDisconnect` does to the phis of the target: with more than two predecessors each loses one source, with two the
first one is replaced by its other input.
-/

namespace CompilerLab.Jit.Graph

open CompilerLab.Lib

variable {g g' : Graph} {i j r s t phi : Nat} {phis rest l : List Nat}

/-! ## Taking a source out of a phi -/

theorem popInto_idxOf {l : List Nat} {x : Nat} (h : x ∈ l) : popInto l (l.idxOf x) = swapErase l x := by
  have hset : ∀ b, l.set (l.idxOf x) b = l.replace x b := by
    intro b
    induction l with
    | nil => cases h
    | cons a l ih =>
        by_cases hax : a = x
        · subst hax
          simp
        · have hmem : x ∈ l := (List.mem_cons.mp h).resolve_left (Ne.symm hax)
          have hxa : (x == a) = false := beq_false_of_ne (Ne.symm hax)
          rw [List.idxOf_cons_ne _ hax, List.set_cons_succ, List.replace_cons, hxa, ih hmem]
  have hne := List.ne_nil_of_mem h
  rw [popInto, swapErase_of_mem h hne, List.getLast?_eq_some_getLast hne]
  exact congrArg List.dropLast (hset _)

theorem length_popInto {α : Type*} (l : List α) (idx : Nat) : (popInto l idx).length = l.length - 1 := by
  unfold popInto
  cases hl : l.getLast? with
  | none =>
      rw [List.getLast?_eq_none_iff.mp hl]
      rfl
  | some b => simp

/-- The graph after the phis in `done` have lost the source `s`. -/
structure LosesSource (g : Graph) (s : Nat) (done : List Nat) (g' : Graph) : Prop where
  graph : g' = { g with instr := g'.instr }
  instr : ∀ i, g'.instr i = if i ∈ done then
    { g.instr i with
      sourceBBlocks := popInto (g.instr i).sourceBBlocks (g.indexOf i s)
      inputs := popInto (g.instr i).inputs (g.indexOf i s) } else g.instr i

theorem removePhiInput_losesSource {done : List Nat} (h : LosesSource g s done g') (hdone : phi ∉ done)
    (hs : s ∈ (g.instr phi).sourceBBlocks) :
    ∃ g'', g'.removePhiInput phi s = some g'' ∧ LosesSource g s (done ++ [phi]) g'' := by
  have hinstr : g'.instr phi = g.instr phi := by rw [h.instr, if_neg hdone]
  refine ⟨_, removePhiInput_eq_some.mpr ⟨?_, rfl⟩, ⟨?_, fun i => ?_⟩⟩
  · rw [indexOf, hinstr]
    exact List.idxOf_lt_length_of_mem hs
  · rw [h.graph]
    rfl
  · rw [modifyInstr_instr, indexOf, hinstr]
    by_cases hi : i = phi
    · subst hi
      simp [indexOf]
    · simp [hi, h.instr]

theorem forPhi_losesSource (hl : g.Layout t phis rest) (hs : ∀ phi ∈ phis, s ∈ (g.instr phi).sourceBBlocks) :
    ∃ g', forPhi id (fun g phi => g.removePhiInput phi s) g.instrCount g phis.head? = some g' ∧
      LosesSource g s phis g' := by
  have step : ∀ done phi l u, phis = done ++ phi :: l → LosesSource g s done u →
      ∃ u', u.removePhiInput phi s = some u' ∧ LosesSource g s (done ++ [phi]) u' := by
    intro done phi l u heq hu
    have hnodup : (done ++ phi :: l).Nodup := heq ▸ hl.nodup.of_append_left
    have hdone : phi ∉ done := fun hmem => List.disjoint_of_nodup_append hnodup hmem List.mem_cons_self
    exact removePhiInput_losesSource hu hdone (hs phi (by simp [heq]))
  have start : LosesSource g s [] g := ⟨rfl, fun i => by simp⟩
  obtain ⟨g', heq, hg'⟩ := foldlM_completes step start
  refine ⟨g', ?_, hg'⟩
  have hfuel : phis.length ≤ g.instrCount := by
    have := hl.length_le
    rw [List.length_append] at this
    omega
  rw [Layout.forPhi_eq (b := t) (P := LosesSource g s) ?_ ?_ start hfuel, heq]
  · intro done u hu
    refine ⟨rest, hl.congr ?_ (fun i _ => ?_) ?_⟩
    · rw [id, hu.graph]
      exact ⟨rfl, rfl, rfl, rfl⟩
    · rw [id, hu.instr]
      split_ifs <;> exact ⟨rfl, rfl, rfl, rfl⟩
    · rw [id, hu.graph]
  · intro done phi l u u' heq hu hrun
    obtain ⟨v, hv, hv'⟩ := step done phi l u heq hu
    exact Option.some.inj (hv.symm.trans hrun) ▸ hv'

/-! ## Replacing an instruction by another one in its users -/

/-- What `ReplaceInputInUsers` relies on: the users of `i` hold it, and when another instruction is to take its place they are all
its uses, each as often as it is one. -/
structure Redirectable (g : Graph) (i r : Nat) : Prop where
  users : ∀ u ∈ (g.instr i).users, (g.instr u).hasInputs = true ∧ some i ∈ (g.instr u).inputs
  count : r ≠ i → ∀ j, (g.instr i).users.count j = (g.instr j).inputs.count (some i)

theorem replaceInputIn_users (h : g.replaceInputIn i r l = some g') :
    ∀ u ∈ l, (g.instr u).hasInputs = true ∧ some i ∈ (g.instr u).inputs := by
  refine (foldlM_passed (P := fun done t => (∀ u ∈ done, (g.instr u).hasInputs = true ∧ some i ∈ (g.instr u).inputs) ∧
    ∀ j, (t.instr j).properties = (g.instr j).properties ∧
      (some i ∈ (t.instr j).inputs → some i ∈ (g.instr j).inputs)) (fun done u l t t' _ ht hstep => ?_)
    ⟨nofun, fun _ => ⟨rfl, id⟩⟩ h).1
  obtain ⟨hdone, hsame⟩ := ht
  simp only [Option.bind_eq_bind, ASSERT_bind, replaceInput_eq_some] at hstep
  obtain ⟨hin, hmem, rfl⟩ := hstep
  refine ⟨fun v hv => ?_, fun j => ?_⟩
  · rcases List.mem_append.mp hv with hv | hv
    · exact hdone v hv
    · rw [List.mem_singleton.mp hv]
      refine ⟨?_, (hsame u).2 hmem⟩
      rw [Instruction.hasInputs, Instruction.satisfiesProperty, ← (hsame u).1]
      exact hin
  · rw [modifyInstr_instr]
    split_ifs with hj
    · rw [hj]
      exact ⟨(hsame u).1, fun _ => (hsame u).2 hmem⟩
    · exact hsame j

/-- A slot is left alone or goes from `i` to `r`. -/
theorem replaceInputIn_slots (h : g.replaceInputIn i r l = some g') (j k : Nat) :
    (g'.instr j).inputs[k]? = (g.instr j).inputs[k]? ∨
      (g.instr j).inputs[k]? = some (some i) ∧ (g'.instr j).inputs[k]? = some (some r) := by
  refine foldlM_invariant (P := fun t => (t.instr j).inputs[k]? = (g.instr j).inputs[k]? ∨
    (g.instr j).inputs[k]? = some (some i) ∧ (t.instr j).inputs[k]? = some (some r)) (fun t u t' _ ht hstep => ?_) (.inl rfl) h
  simp only [Option.bind_eq_bind, ASSERT_bind, replaceInput_eq_some] at hstep
  obtain ⟨-, hmem, rfl⟩ := hstep
  rw [modifyInstr_instr]
  split_ifs with hj
  · subst hj
    rcases getElem?_replace (x := some i) (y := some r) (t.instr j).inputs k with hset | ⟨hold, hnew⟩
    · rw [hset]
      exact ht
    · refine .inr ⟨?_, hnew⟩
      rcases ht with ht | ⟨ht, -⟩
      · rw [← ht]
        exact hold
      · exact ht
  · exact ht

theorem replaceInputIn_self (h : ∀ u ∈ l, (g.instr u).hasInputs = true ∧ some i ∈ (g.instr u).inputs) :
    g.replaceInputIn i i l = some g := by
  induction l with
  | nil => rfl
  | cons u l ih =>
      obtain ⟨hin, hmem⟩ := h u List.mem_cons_self
      have hsame : g.replaceInput u i i = some g := by
        refine replaceInput_eq_some.mpr ⟨hmem, ?_⟩
        simp only [replace_self, modifyInstr, Function.update_eq_self]
      rw [replaceInputIn, List.foldlM_cons, ASSERT_of hin]
      simp only [Option.bind_eq_bind, Option.bind_some, hsame]
      exact ih fun v hv => h v (List.mem_cons_of_mem u hv)

theorem addUsers_inputs (us : List Nat) : ((g.addUsers r us).instr j).inputs = (g.instr j).inputs := by
  rw [addUsers, modifyInstr_instr]
  split_ifs with hj
  · rw [hj]
  · rfl

theorem addUsers_hasInputs (us : List Nat) : ((g.addUsers r us).instr j).hasInputs = (g.instr j).hasInputs := by
  rw [addUsers, modifyInstr_instr]
  split_ifs with hj
  · rw [hj]
    rfl
  · rfl

theorem addUsers_users_self (us : List Nat) : ((g.addUsers r us).instr r).users = (g.instr r).users ++ us := by
  rw [addUsers, modifyInstr_instr_self]

theorem addUsers_users_ne (us : List Nat) (h : j ≠ r) : ((g.addUsers r us).instr j).users = (g.instr j).users := by
  rw [addUsers, modifyInstr_instr_ne _ _ h]

theorem Redirectable.total (h : g.Redirectable i r) : ∃ g', g.replaceInputInUsers i r = some g' := by
  have hmem : ∀ u ∈ (g.instr i).users, ((g.addUsers r (g.instr i).users).instr u).hasInputs = true ∧
      some i ∈ ((g.addUsers r (g.instr i).users).instr u).inputs := fun u hu => by
    rw [addUsers_hasInputs, addUsers_inputs]
    exact h.users u hu
  by_cases hr : r = i
  · subst hr
    refine ⟨_, replaceInputIn_self fun u hu => hmem u ?_⟩
    rw [addUsers_users_self, List.mem_append, or_self] at hu
    exact hu
  · refine replaceInputIn_total hr fun u hu => ?_
    rw [addUsers_users_ne _ (Ne.symm hr)] at hu ⊢
    refine ⟨(hmem u hu).1, ?_⟩
    rw [addUsers_inputs, h.count hr]

/-- `ReplaceInputInUsers` completes and redirects every use exactly when the users of the instruction are its uses. -/
theorem replaceInputInUsers_iff : (∃ g' : Graph, g.replaceInputInUsers i r = some g' ∧
    ∀ j k : Nat, (g.instr j).inputs[k]? = some (some i) → (g'.instr j).inputs[k]? = some (some r)) ↔ g.Redirectable i r := by
  constructor
  · rintro ⟨g', hrun, hslots⟩
    refine ⟨fun u hu => ?_, fun hr j => ?_⟩
    · have hmem : u ∈ ((g.addUsers r (g.instr i).users).instr i).users := by
        by_cases hr : i = r
        · subst hr
          rw [addUsers_users_self]
          exact List.mem_append_left _ hu
        · rw [addUsers_users_ne _ hr]
          exact hu
      have := replaceInputIn_users hrun u hmem
      rwa [addUsers_hasInputs, addUsers_inputs] at this
    · have hcount := (replaceInputInUsers_redirects hrun).count hr j
      rw [addUsers_users_ne _ (Ne.symm hr), addUsers_inputs] at hcount
      have hnone : (g'.instr j).inputs.count (some i) = 0 := by
        rw [List.count_eq_zero]
        intro hmem
        obtain ⟨k, hk⟩ := List.mem_iff_getElem?.mp hmem
        have hold : (g.instr j).inputs[k]? = some (some i) := by
          rcases replaceInputIn_slots hrun j k with hsame | ⟨-, hnew⟩
          · rw [← addUsers_inputs, ← hsame]
            exact hk
          · rw [hk, Option.some.injEq, Option.some.injEq] at hnew
            exact absurd hnew.symm hr
        have hnew := hslots j k hold
        rw [hk, Option.some.injEq, Option.some.injEq] at hnew
        exact hr hnew.symm
      omega
  · intro h
    obtain ⟨g', hrun⟩ := h.total
    refine ⟨g', hrun, fun j k hold => ?_⟩
    rcases replaceInputIn_slots hrun j k with hsame | ⟨-, hnew⟩
    · rw [addUsers_inputs, hold] at hsame
      by_cases hr : r = i
      · rw [hr]
        exact hsame
      · have hcount := (replaceInputInUsers_redirects hrun).count hr j
        rw [addUsers_users_ne _ (Ne.symm hr), addUsers_inputs, h.count hr] at hcount
        have hmem : some i ∈ (g'.instr j).inputs := List.mem_of_getElem? hsame
        have := List.count_pos_iff.mpr hmem
        omega
    · exact hnew

theorem replaceInputInUsers_keeps (h : g.replaceInputInUsers i r = some g') : g'.block = g.block ∧
    g'.instrCount = g.instrCount ∧ ∀ j, (g'.instr j).sourceBBlocks = (g.instr j).sourceBBlocks ∧
      (g'.instr j).inputs.length = (g.instr j).inputs.length := by
  have hr := replaceInputInUsers_redirects h
  refine ⟨by rw [hr.graph]; rfl, by rw [hr.graph]; rfl, fun j => ⟨?_, ?_⟩⟩
  · rw [hr.instr j, addUsers, modifyInstr_instr]
    split_ifs with hj
    · rw [hj]
    · rfl
  · have hlen := congrArg List.length (hr.inputs j)
    rw [List.length_map, List.length_map, addUsers_inputs] at hlen
    exact hlen

/-! ## A target with two predecessors -/

theorem Listed.congr (h : g.Listed t phis rest) (block : g'.block = g.block) (count : g'.instrCount = g.instrCount)
    (links : ∀ j, (g'.instr j).next = (g.instr j).next ∧ (g'.instr j).prev = (g.instr j).prev ∧
      (g'.instr j).parent = (g.instr j).parent ∧ (g'.instr j).opcode = (g.instr j).opcode) : g'.Listed t phis rest where
  toLayout := h.toLayout.congr (by rw [block]; exact ⟨rfl, rfl, rfl, rfl⟩) (fun i _ => links i) count.ge
  count := by
    rw [block]
    exact h.count
  complete i hi := by
    rw [(links i).2.2.1] at hi
    exact h.complete i hi

/-- With two sources, what is not the input of one of them is the input of the other. -/
theorem getInput_other {p : Nat} {sources : List Nat} (hlen : sources.length = 2) (hs : s ∈ sources) (hp : p ∈ sources)
    (hne : p ≠ s) : 1 - sources.idxOf s = sources.idxOf p := by
  obtain ⟨a, b, rfl⟩ := List.length_eq_two.mp hlen
  simp only [List.mem_cons, List.not_mem_nil, or_false] at hs hp
  rcases hs with rfl | rfl
  · obtain rfl := hp.resolve_left hne
    simp [hne.symm]
  · obtain rfl := hp.resolve_right hne
    simp [hne]

theorem Lists.instrs_congr {c : Nat} (h : g.Lists) (block : g'.block = g.block) (count : g'.instrCount = g.instrCount)
    (links : ∀ j, (g'.instr j).next = (g.instr j).next ∧ (g'.instr j).prev = (g.instr j).prev ∧
      (g'.instr j).parent = (g.instr j).parent ∧ (g'.instr j).opcode = (g.instr j).opcode) : g'.instrs c = g.instrs c := by
  obtain ⟨phis, rest, hl⟩ := h.listed c
  rw [hl.instrs_eq, (hl.congr block count links).instrs_eq]

theorem Lists.replacePhi {g₁ : Graph} (h : g.Lists) (hl : g.Listed t (phi :: phis) rest)
    (hrep : g.replaceInputInUsers phi r = some g₁) (hun : g₁.unlinkInstruction t phi = some g') :
    g'.Lists ∧ g'.Listed t phis rest ∧ (g'.instr phi).next = none := by
  obtain ⟨h₁, hlinks⟩ := h.replaceInputInUsers hrep
  obtain ⟨hblock, hcount, -⟩ := replaceInputInUsers_keeps hrep
  have hl₁ : g₁.Listed t ([] ++ phi :: phis) rest := hl.congr hblock hcount hlinks
  obtain ⟨hl', hsp⟩ := hl₁.unlinkPhi hun
  exact ⟨h₁.unlink hun, hl', (hsp.freed rfl).2⟩

/-- The loop over the phis ends after the first one, which has lost its link to the next. -/
theorem fixPHIAfterDisconnect_two {p : Nat} (h : g.Lists) (hl : g.Listed t (phi :: phis) rest) (hs : g.InStep t (phi :: phis))
    (hlen : (g.block t).preds.length = 2) (hsp : s ∈ (g.block t).preds) (hp : p ∈ (g.block t).preds) (hne : p ≠ s) :
    g.fixPHIAfterDisconnect s t = (g.resolveInput phi p).bind fun r =>
      (g.replaceInputInUsers phi r).bind fun g₁ => g₁.unlinkInstruction t phi := by
  have hsources := hs.sources phi List.mem_cons_self
  have hslen : (g.instr phi).sourceBBlocks.length = 2 := by
    rw [hsources.length_eq]
    exact hlen
  have hilen : (g.instr phi).inputs.length = 2 := by
    rw [hs.inputs phi List.mem_cons_self]
    exact hslen
  have hidx : 1 - g.indexOf phi s = g.indexOf phi p := getInput_other hslen (hsources.mem_iff.mpr hsp) (hsources.mem_iff.mpr hp) hne
  have hle : g.indexOf phi s ≤ 1 := by
    have := List.idxOf_lt_length_of_mem (hsources.mem_iff.mpr hsp)
    rw [hslen] at this
    exact Nat.le_of_lt_succ this
  have hbody : fixPhiOfTwo s t g phi = (g.resolveInput phi p).bind fun r =>
      (g.replaceInputInUsers phi r).bind fun g₁ => g₁.unlinkInstruction t phi := by
    rw [fixPhiOfTwo, ASSERT_of hilen]
    simp only [Option.bind_eq_bind, Option.bind_some, ASSERT_of hle, hidx]
    rfl
  obtain ⟨n, hn⟩ : ∃ n, g.instrCount = n + 1 :=
    Nat.exists_eq_succ_of_ne_zero (Nat.ne_zero_of_lt (hl.lt phi List.mem_cons_self))
  rw [fixPHIAfterDisconnect, ASSERT_of (by simpa [hasPredecessor] using hsp)]
  simp only [Option.bind_eq_bind, Option.bind_some]
  rw [if_pos hlen, hl.firstPhi, hn, List.head?_cons, forPhi, hbody, Option.bind_eq_bind]
  cases hrun : (g.resolveInput phi p).bind fun r =>
      (g.replaceInputInUsers phi r).bind fun g₁ => g₁.unlinkInstruction t phi with
  | none => rfl
  | some g' =>
      obtain ⟨r, -, hrun⟩ := Option.bind_eq_some_iff.mp hrun
      obtain ⟨g₁, hrep, hun⟩ := Option.bind_eq_some_iff.mp hrun
      have hnext : g'.nextPhi phi = none := by rw [nextPhi, (h.replacePhi hl hrep hun).2.2]
      rw [Option.bind_some, id, hnext]
      cases n <;> rfl

/-! ## What is kept -/

/-- The blocks hold the same instructions, which are as they were. -/
structure SameLists (g g' : Graph) : Prop where
  ends : ∀ c, (g'.block c).firstPhi = (g.block c).firstPhi ∧ (g'.block c).lastPhi = (g.block c).lastPhi ∧
    (g'.block c).firstInst = (g.block c).firstInst ∧ (g'.block c).lastInst = (g.block c).lastInst ∧
    (g'.block c).instrsCount = (g.block c).instrsCount
  instr : g'.instr = g.instr
  instrCount : g'.instrCount = g.instrCount

namespace SameLists

variable {c : Nat}

theorem listed (h : SameLists g g') (hl : g.Listed c phis rest) : g'.Listed c phis rest where
  toLayout := by
    obtain ⟨h₁, h₂, h₃, h₄, -⟩ := h.ends c
    exact hl.toLayout.congr ⟨h₁, h₂, h₃, h₄⟩ (fun i _ => by rw [h.instr]; exact ⟨rfl, rfl, rfl, rfl⟩) h.instrCount.ge
  count := by
    rw [(h.ends c).2.2.2.2]
    exact hl.count
  complete i hi := by
    rw [h.instr] at hi
    exact hl.complete i hi

theorem lists (h : SameLists g g') (hl : g.Lists) : g'.Lists where
  listed c := by
    obtain ⟨phis, rest, hc⟩ := hl.listed c
    exact ⟨phis, rest, h.listed hc⟩
  unlinked i hi := by
    rw [h.instrCount] at hi
    rw [h.instr]
    exact hl.unlinked i hi

theorem phis_eq (h : SameLists g g') (hl : g.Lists) : g'.phis c = g.phis c := by
  obtain ⟨phis, rest, hc⟩ := hl.listed c
  rw [hc.phis_eq, (h.listed hc).phis_eq]

theorem inStep (h : SameLists g g') (hl : g.Lists) (hpreds : (g'.block c).preds = (g.block c).preds)
    (hs : g.InStep c (g.phis c)) : g'.InStep c (g'.phis c) := by
  rw [h.phis_eq hl]
  refine ⟨fun phi hphi => ?_, fun phi hphi => ?_⟩
  · rw [h.instr, hpreds]
    exact hs.sources phi hphi
  · rw [h.instr]
    exact hs.inputs phi hphi

end SameLists

/-- Only the phis of `t` have gone or lost a source. -/
structure PhisKept (g : Graph) (t : Nat) (g' : Graph) : Prop where
  lists : g'.Lists
  only : InstrsOnly g g'
  instrs : ∀ c, c ≠ t → g'.instrs c = g.instrs c
  opcode : ∀ i, (g'.instr i).opcode = (g.instr i).opcode
  phis : ∀ c, c ≠ t → ∀ phi ∈ g.instrs c, (g'.instr phi).sourceBBlocks = (g.instr phi).sourceBBlocks ∧
    (g'.instr phi).inputs.length = (g.instr phi).inputs.length

theorem PhisKept.phis_eq {c : Nat} (h : PhisKept g t g') (hc : c ≠ t) : g'.phis c = g.phis c := by
  simp only [Graph.phis, h.instrs c hc, Instruction.isPhi, h.opcode]

theorem PhisKept.inStep {c : Nat} (h : PhisKept g t g') (hc : c ≠ t) (hs : g.InStep c (g.phis c)) :
    g'.InStep c (g'.phis c) := by
  rw [h.phis_eq hc]
  have hmem : ∀ phi ∈ g.phis c, phi ∈ g.instrs c := fun phi hphi => (List.takeWhile_sublist _).mem hphi
  refine ⟨fun phi hphi => ?_, fun phi hphi => ?_⟩
  · rw [(h.phis c hc phi (hmem phi hphi)).1, (h.only.sameEdges c).2]
    exact hs.sources phi hphi
  · rw [(h.phis c hc phi (hmem phi hphi)).1, (h.phis c hc phi (hmem phi hphi)).2]
    exact hs.inputs phi hphi

theorem fixPHIAfterDisconnect_of_mem (hsp : s ∈ (g.block t).preds) : g.fixPHIAfterDisconnect s t =
    if (g.block t).preds.length = 2 then forPhi id (fixPhiOfTwo s t) g.instrCount g (g.block t).firstPhi
    else if (g.block t).preds.length > 2 then
      forPhi id (fun g phi => g.removePhiInput phi s) g.instrCount g (g.block t).firstPhi
    else some g := by
  have hmem : g.hasPredecessor t s = true := by
    rw [hasPredecessor, decide_eq_true_eq]
    exact hsp
  rw [fixPHIAfterDisconnect, ASSERT_of hmem]
  rfl

theorem forPhi_none (body : Graph → Nat → Option Graph) (n : Nat) : forPhi id body n g none = some g := by
  cases n <;> rfl

theorem fixPHIAfterDisconnect_nil (hl : g.Layout t [] rest) (hsp : s ∈ (g.block t).preds) :
    g.fixPHIAfterDisconnect s t = some g := by
  rw [fixPHIAfterDisconnect_of_mem hsp, hl.firstPhi, List.head?_nil, forPhi_none, forPhi_none]
  split_ifs <;> rfl

theorem fixPHIAfterDisconnect_one (hsp : s ∈ (g.block t).preds) (hlen : (g.block t).preds.length = 1) :
    g.fixPHIAfterDisconnect s t = some g := by
  rw [fixPHIAfterDisconnect_of_mem hsp, hlen]
  rfl

theorem fixPHIAfterDisconnect_many (hl : g.Layout t phis rest) (hs : g.InStep t phis) (hsp : s ∈ (g.block t).preds)
    (hlen : 2 < (g.block t).preds.length) : ∃ g', g.fixPHIAfterDisconnect s t = some g' ∧ LosesSource g s phis g' := by
  rw [fixPHIAfterDisconnect_of_mem hsp, if_neg hlen.ne', if_pos hlen, hl.firstPhi]
  exact forPhi_losesSource hl fun phi hphi => (hs.sources phi hphi).mem_iff.mpr hsp

theorem exists_other (hnodup : l.Nodup) (hlen : l.length = 2) (s : Nat) : ∃ p ∈ l, p ≠ s := by
  obtain ⟨a, b, rfl⟩ := List.length_eq_two.mp hlen
  have hab : a ≠ b := by simpa using hnodup
  by_cases ha : a = s
  · exact ⟨b, by simp, fun hb => hab (ha.trans hb.symm)⟩
  · exact ⟨a, List.mem_cons_self, ha⟩

theorem fixPHIAfterDisconnect_kept (h : g.Lists) (hs : g.InStep t (g.phis t)) (hsp : s ∈ (g.block t).preds)
    (hnodup : (g.block t).preds.Nodup) (hrun : g.fixPHIAfterDisconnect s t = some g') : PhisKept g t g' := by
  have honly := fixPHIAfterDisconnect_instrsOnly hrun
  have hself : PhisKept g t g := ⟨h, .refl g, fun _ _ => rfl, fun _ => rfl, fun _ _ _ _ => ⟨rfl, rfl⟩⟩
  obtain ⟨phis, rest, hl⟩ := h.listed t
  rw [hl.phis_eq] at hs
  have hpos := List.length_pos_of_mem hsp
  rcases Nat.lt_trichotomy (g.block t).preds.length 2 with hlen | hlen | hlen
  · rw [fixPHIAfterDisconnect_one hsp (by omega)] at hrun
    exact Option.some.inj hrun ▸ hself
  · cases phis with
    | nil =>
        rw [fixPHIAfterDisconnect_nil hl.toLayout hsp] at hrun
        exact Option.some.inj hrun ▸ hself
    | cons phi phis =>
        obtain ⟨p, hp, hne⟩ := exists_other hnodup hlen s
        rw [fixPHIAfterDisconnect_two h hl hs hlen hsp hp hne] at hrun
        obtain ⟨r, -, hrun⟩ := Option.bind_eq_some_iff.mp hrun
        obtain ⟨g₁, hrep, hun⟩ := Option.bind_eq_some_iff.mp hrun
        obtain ⟨h₁, hlinks⟩ := h.replaceInputInUsers hrep
        obtain ⟨hblock, hcount, hinputs⟩ := replaceInputInUsers_keeps hrep
        have hremoves := (Removes.refl h₁).unlink hun
        have hsame : ∀ j, (g'.instr j).opcode = (g₁.instr j).opcode ∧
            (g'.instr j).sourceBBlocks = (g₁.instr j).sourceBBlocks ∧ (g'.instr j).inputs = (g₁.instr j).inputs := fun j => by
          rw [hremoves.instr_eq j]
          exact ⟨rfl, rfl, rfl⟩
        refine ⟨hremoves.lists, honly, fun c hc => ?_, fun i => (hsame i).1.trans (hlinks i).2.2.2, fun c hc i _ => ?_⟩
        · have hout : phi ∉ g.instrs c := fun hmem => by
            rw [h.mem_instrs, hl.parent phi (by simp)] at hmem
            exact hc (Option.some.inj hmem).symm
          rw [h₁.unlink_instrs hun, h.instrs_congr hblock hcount hlinks, List.erase_of_not_mem hout]
        · rw [(hsame i).2.1, (hsame i).2.2]
          exact hinputs i
  · obtain ⟨g'', hrun', hloses⟩ := fixPHIAfterDisconnect_many hl.toLayout hs hsp hlen
    obtain rfl := Option.some.inj (hrun'.symm.trans hrun)
    have hlinks : ∀ j, (g''.instr j).next = (g.instr j).next ∧ (g''.instr j).prev = (g.instr j).prev ∧
        (g''.instr j).parent = (g.instr j).parent ∧ (g''.instr j).opcode = (g.instr j).opcode := by
      intro j
      rw [hloses.instr]
      split_ifs <;> exact ⟨rfl, rfl, rfl, rfl⟩
    have hblock : g''.block = g.block := by rw [hloses.graph]
    have hcount : g''.instrCount = g.instrCount := by rw [hloses.graph]
    refine ⟨h.congr hblock hcount hlinks, honly, fun c _ => h.instrs_congr hblock hcount hlinks, fun i => (hlinks i).2.2.2,
      fun c hc i hi => ?_⟩
    have hout : i ∉ phis := fun hmem => by
      rw [h.mem_instrs, hl.parent i (List.mem_append_left _ hmem)] at hi
      exact hc (Option.some.inj hi).symm
    rw [hloses.instr, if_neg hout]
    exact ⟨rfl, rfl⟩

end CompilerLab.Jit.Graph
