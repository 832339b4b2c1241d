import CompilerLab.Jit.GraphOps
import CompilerLab.Lib.OptionFold

/-!
# What the operations on users and inputs change

An operation on one side of a def-use edge leaves the rest of the instructions as they were.
-/

namespace CompilerLab.Jit.Graph

open CompilerLab.Lib

variable {g g' : Graph} {i j r : Nat} {x : Instruction}

/-! ## Making an instruction -/

theorem addUserOf_eq (g : Graph) (a : Option Nat) (u : Nat) : g.addUserOf a u =
    { g with instr := fun j =>
        { g.instr j with users := (g.instr j).users ++ if a = some j then [u] else [] } } := by
  cases a with
  | none =>
      simp only [addUserOf, reduceCtorEq, if_false, List.append_nil]
  | some k =>
      simp only [addUserOf, addUser, modifyInstr, Option.some.injEq]
      congr 1
      funext j
      by_cases hj : j = k
      · subst hj
        simp only [Function.update_self, if_true]
      · simp only [Function.update_of_ne hj, Ne.symm hj, if_false, List.append_nil]

theorem foldl_addUserOf (l : List (Option Nat)) (g : Graph) (u : Nat) :
    l.foldl (fun g a => g.addUserOf a u) g =
    { g with instr := fun j =>
        { g.instr j with users := (g.instr j).users ++ List.replicate (l.count (some j)) u } } := by
  induction l generalizing g with
  | nil =>
      simp only [List.foldl_nil, List.count_nil, List.replicate_zero, List.append_nil]
  | cons a l ih =>
      rw [List.foldl_cons, ih, addUserOf_eq]
      congr 1
      funext j
      simp only [List.append_assoc, List.count_cons, beq_iff_eq]
      split_ifs with ha
      · rw [List.replicate_succ]
        rfl
      · rfl

/-- A new instruction takes the next number and is entered among the users of its inputs. -/
theorem createInst_eq (g : Graph) (x : Instruction) : g.createInst x =
    ({ g with
        instr := fun j =>
          { Function.update g.instr g.instrCount x j with
            users := (Function.update g.instr g.instrCount x j).users ++
              List.replicate (x.inputs.count (some j)) g.instrCount }
        instrCount := g.instrCount + 1 }, g.instrCount) := by
  simp only [createInst, foldl_addUserOf]

/-! ## Redirecting the users of an instruction -/

/-- What the loop over `users` that puts `r` in the place of `i` does: it writes to the input slots only, and each entry
of an instruction in `users` takes one of its slots holding `i`. -/
structure RedirectsIn (i r : Nat) (users : List Nat) (g g' : Graph) : Prop where
  graph : g' = { g with instr := g'.instr }
  instr : ∀ j, g'.instr j = { g.instr j with inputs := (g'.instr j).inputs }
  inputs : ∀ j, (g'.instr j).inputs.map (Option.map fun a => if a = i then r else a) =
    (g.instr j).inputs.map (Option.map fun a => if a = i then r else a)
  count : r ≠ i → ∀ j, (g'.instr j).inputs.count (some i) + users.count j = (g.instr j).inputs.count (some i)

namespace RedirectsIn

theorem refl (i r : Nat) (g : Graph) : RedirectsIn i r [] g g :=
  ⟨rfl, fun _ => rfl, fun _ => rfl, fun _ _ => by rw [List.count_nil, Nat.add_zero]⟩

theorem step {done : List Nat} {u : Nat} (h : RedirectsIn i r done g g') (hmem : some i ∈ (g'.instr u).inputs) :
    RedirectsIn i r (done ++ [u]) g
      (g'.modifyInstr u fun x => { x with inputs := x.inputs.replace (some i) (some r) }) where
  graph := by
    rw [h.graph]
    rfl
  instr j := by
    rw [modifyInstr_instr]
    split_ifs with hj
    · subst hj
      rw [h.instr j]
    · exact h.instr j
  inputs j := by
    rw [modifyInstr_instr]
    split_ifs with hj
    · subst hj
      exact (map_replace_of_eq (by simp) _).trans (h.inputs j)
    · exact h.inputs j
  count hne j := by
    rw [modifyInstr_instr, List.count_append, List.count_singleton]
    have hj := h.count hne j
    by_cases hu : j = u
    · subst hu
      have := count_replace (y := some r) hmem (some i)
      have hr : (some r == some i) = false := beq_false_of_ne (by simpa using hne)
      simp only [if_true, hr, Bool.false_eq_true, if_false, beq_self_eq_true] at this ⊢
      omega
    · simp only [hu, if_false, beq_false_of_ne (Ne.symm hu), Bool.false_eq_true]
      omega

end RedirectsIn

theorem replaceInputIn_redirects {l : List Nat} (h : g.replaceInputIn i r l = some g') : RedirectsIn i r l g g' := by
  refine foldlM_passed (P := fun done t => RedirectsIn i r done g t) (fun done u rest s s' _ hs hstep => ?_)
    (.refl i r g) h
  simp only [Option.bind_eq_bind, ASSERT_bind, replaceInput_eq_some] at hstep
  obtain ⟨-, hmem, rfl⟩ := hstep
  exact hs.step hmem

/-- The slots holding another instruction are left alone. -/
theorem RedirectsIn.count_ne {users : List Nat} {a : Nat} (h : RedirectsIn i r users g g') (hi : a ≠ i) (hr : a ≠ r)
    (j : Nat) : (g'.instr j).inputs.count (some a) = (g.instr j).inputs.count (some a) := by
  have counts : ∀ l : List (Option Nat), l.count (some a) =
      (l.map (Option.map fun b => if b = i then r else b)).countP (· == some a) := by
    intro l
    rw [List.countP_map, List.count]
    refine List.countP_congr fun x _ => ?_
    cases x with
    | none => simp
    | some b =>
        simp only [Function.comp_apply, Option.map_some, beq_iff_eq, Option.some.injEq]
        split_ifs with hb
        · exact ⟨fun h => absurd (h.symm.trans hb) hi, fun h => absurd h.symm hr⟩
        · rfl
  rw [counts, counts, h.inputs]

theorem replaceInputIn_total {l : List Nat} (hne : r ≠ i)
    (hl : ∀ u ∈ l, (g.instr u).hasInputs = true ∧ l.count u ≤ (g.instr u).inputs.count (some i)) :
    ∃ g', g.replaceInputIn i r l = some g' := by
  suffices ∃ g', g.replaceInputIn i r l = some g' ∧ RedirectsIn i r l g g' from this.imp fun _ h => h.1
  refine foldlM_completes (P := fun done t => RedirectsIn i r done g t) (fun done u rest t heq ht => ?_) (.refl i r g)
  obtain ⟨hin, hcount⟩ := hl u (by simp [heq])
  have hin' : (t.instr u).hasInputs = true := by
    rw [ht.instr u]
    exact hin
  have hmem : some i ∈ (t.instr u).inputs := by
    have hbal := ht.count hne u
    rw [heq, List.count_append, List.count_cons_self] at hcount
    exact List.count_pos_iff.1 (by omega)
  refine ⟨_, ?_, ht.step hmem⟩
  simp only [Option.bind_eq_bind, ASSERT_bind, replaceInput_eq_some]
  exact ⟨hin', hmem, trivial⟩

/-- `ReplaceInputInUsers` runs over the users `i` has after the new input has taken them over. -/
theorem replaceInputInUsers_redirects (h : g.replaceInputInUsers i r = some g') :
    RedirectsIn i r ((g.addUsers r (g.instr i).users).instr i).users (g.addUsers r (g.instr i).users) g' :=
  replaceInputIn_redirects h

end CompilerLab.Jit.Graph
