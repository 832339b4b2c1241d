import CompilerLab.Jit.BasicBlock

/-!
# Moving instructions between blocks

Linking or unlinking an instruction writes to its parent, to the links of instructions and to blocks, and to nothing
else.
-/

namespace CompilerLab.Jit

/-- The instruction without its place in the list of its block. -/
def Instruction.withoutLinks (i : Instruction) : Instruction := { i with prev := none, next := none }

namespace Graph

variable {g g' g'' : Graph} {i t b : Nat} {p : Option Nat}

/-- The graphs differ in the lists of instructions only. -/
structure LinksOnly (g g' : Graph) : Prop where
  graph : g' = { g with instr := g'.instr, block := g'.block }
  instr : ∀ j, (g'.instr j).withoutLinks = (g.instr j).withoutLinks

namespace LinksOnly

theorem refl (g : Graph) : LinksOnly g g := ⟨rfl, fun _ => rfl⟩

theorem trans (h : LinksOnly g g') (h' : LinksOnly g' g'') : LinksOnly g g'' where
  graph := by
    rw [h'.graph, h.graph]
  instr j := (h'.instr j).trans (h.instr j)

theorem modifyBlock (g : Graph) (b f) : LinksOnly g (g.modifyBlock b f) := ⟨rfl, fun _ => rfl⟩

theorem setPrev (g : Graph) (i p) : LinksOnly g (g.setPrev i p) where
  graph := rfl
  instr j := by
    rw [Graph.setPrev, modifyInstr_instr]
    split_ifs with h
    · subst h
      rfl
    · rfl

theorem setNext (g : Graph) (i p) : LinksOnly g (g.setNext i p) where
  graph := rfl
  instr j := by
    rw [Graph.setNext, modifyInstr_instr]
    split_ifs with h
    · subst h
      rfl
    · rfl

end LinksOnly

/-- Instruction `t` has been put into, or out of, a block. -/
def Relinks (t : Nat) (p : Option Nat) (g g' : Graph) : Prop := LinksOnly (g.setParent t p) g'

theorem Relinks.instr (h : Relinks t p g g') (j : Nat) : (g'.instr j).withoutLinks =
    { (g.instr j).withoutLinks with parent := if j = t then p else (g.instr j).parent } := by
  rw [LinksOnly.instr h j, setParent, modifyInstr_instr]
  split_ifs with hj
  · subst hj
    rfl
  · rfl

theorem Relinks.instrCount (h : Relinks t p g g') : g'.instrCount = g.instrCount := by
  rw [LinksOnly.graph h]
  rfl

theorem unlinkEnds_linksOnly {n : Option Nat} (h : g.unlinkEnds b t p n = some g') : LinksOnly g g' := by
  unfold unlinkEnds at h
  split_ifs at h
  · cases h
    exact .modifyBlock ..
  · simp only [Option.bind_eq_bind, Option.bind_eq_some_iff, Option.pure_def, Option.some.injEq] at h
    obtain ⟨_, -, _, -, rfl⟩ := h
    exact .modifyBlock ..
  · simp only [Option.bind_eq_bind, Option.bind_eq_some_iff, Option.pure_def, Option.some.injEq] at h
    obtain ⟨_, -, _, -, rfl⟩ := h
    exact .modifyBlock ..
  · cases h
    exact .refl g
  · cases h
    exact .modifyBlock ..

theorem unlinkInstruction_relinks (h : g.unlinkInstruction b t = some g') :
    (g.instr t).parent = some b ∧ Relinks t none g g' := by
  simp only [unlinkInstruction, Option.bind_eq_bind, Option.bind_eq_some_iff, ASSERT_eq_some, exists_const,
    Option.pure_def, Option.some.injEq] at h
  obtain ⟨hparent, g₁, hends, rfl⟩ := h
  refine ⟨hparent, .trans (.trans ?_ (unlinkEnds_linksOnly hends)) (.modifyBlock ..)⟩
  have links : LinksOnly (g.setParent t none) (((g.setParent t none).setPrev t none).setNext t none) :=
    .trans (.setPrev ..) (.setNext ..)
  split
  · split
    · exact (links.trans (.setNext ..)).trans (.setPrev ..)
    · exact links.trans (.setPrev ..)
  · split
    · exact links.trans (.setNext ..)
    · exact links

theorem insertBefore_relinks {before : Nat} (h : g.insertBefore b before t = some g') :
    (g.instr t).parent = none ∧ Relinks t (some b) g g' := by
  simp only [insertBefore, Option.bind_eq_bind, ASSERT_bind] at h
  obtain ⟨hparent, -, -, h⟩ := h
  refine ⟨hparent, ?_⟩
  split at h
  · cases h
    exact .trans (.setPrev ..) (.trans (.setPrev ..) (.trans (.setNext ..) (.trans (.setNext ..) (.modifyBlock ..))))
  · simp only [ASSERT_bind, Option.bind_some, Option.pure_def, Option.some.injEq] at h
    obtain ⟨-, -, -, rfl⟩ := h
    exact .trans (.setPrev ..) (.trans (.setPrev ..) (.trans (.setNext ..) (.trans (.modifyBlock ..) (.modifyBlock ..))))

theorem insertAfter_relinks {after : Nat} (h : g.insertAfter b after t = some g') :
    (g.instr t).parent = none ∧ Relinks t (some b) g g' := by
  simp only [insertAfter, Option.bind_eq_bind, ASSERT_bind] at h
  obtain ⟨hparent, -, -, h⟩ := h
  refine ⟨hparent, ?_⟩
  split at h
  · cases h
    exact .trans (.setNext ..) (.trans (.setPrev ..) (.trans (.setNext ..) (.trans (.setPrev ..) (.modifyBlock ..))))
  · simp only [ASSERT_bind, Option.bind_some, Option.pure_def, Option.some.injEq] at h
    obtain ⟨-, rfl⟩ := h
    exact .trans (.setNext ..) (.trans (.setPrev ..) (.trans (.setNext ..) (.trans (.modifyBlock ..) (.modifyBlock ..))))

theorem pushPhi_linksOnly (g : Graph) (b i : Nat) : LinksOnly g (g.pushPhi b i) := by
  unfold pushPhi
  split
  · dsimp only
    split
    · exact .trans (.modifyBlock ..) (.trans (.setNext ..) (.setPrev ..))
    · exact .trans (.modifyBlock ..) (.setNext ..)
  · exact .trans (.setNext ..) (.trans (.setPrev ..) (.modifyBlock ..))

theorem pushInstruction_relinks {back : Bool} (h : pushInstruction back g b t = some g') :
    (g.instr t).parent = none ∧ Relinks t (some b) g g' := by
  simp only [pushInstruction, Option.bind_eq_bind, ASSERT_bind] at h
  obtain ⟨hparent, -, h⟩ := h
  refine ⟨hparent, ?_⟩
  split at h
  · cases h
    exact .trans (pushPhi_linksOnly ..) (.modifyBlock ..)
  split at h
  · split at h
    · cases h
      exact .trans (.setPrev ..) (.trans (.modifyBlock ..) (.trans (.setNext ..) (.modifyBlock ..)))
    · cases h
      exact .trans (.setPrev ..) (.trans (.modifyBlock ..) (.modifyBlock ..))
  split at h
  · simp only [Option.bind_eq_some_iff, Option.some.injEq] at h
    obtain ⟨last, -, _, rfl, h⟩ := h
    cases h
    exact .trans (.setPrev ..) (.trans (.setNext ..) (.trans (.modifyBlock ..) (.modifyBlock ..)))
  · cases h
    exact .trans (.setNext ..) (.trans (.setPrev ..) (.trans (.modifyBlock ..) (.modifyBlock ..)))

theorem Relinks.trans_ne {q : Option Nat} {s : Nat} (h : Relinks t p g g') (h' : Relinks s q g' g'') (hne : s ≠ t) :
    (g''.instr t).parent = p := by
  have h₁ := congrArg Instruction.parent (h'.instr t)
  have h₂ := congrArg Instruction.parent (h.instr t)
  simp only [Instruction.withoutLinks, hne.symm, if_false, if_true] at h₁ h₂
  exact h₁.trans h₂

end Graph

end CompilerLab.Jit
