import CompilerLab.Jit.EmptyBlocksRemoval
import CompilerLab.Jit.Lemmas.Joins
import CompilerLab.Jit.Lemmas.PhiEdges
import CompilerLab.Jit.Lemmas.Traversals

/-!
# Removing one empty block

What `RemoveIfEmpty` leaves of a graph: the edges of the block go from its predecessors to its successor.
-/

namespace CompilerLab.Jit.Graph

open CompilerLab.Lib

variable {g g' g₁ : Graph} {b c s p : Nat} {phis rest : List Nat}

/-- A graph with its blocks linked in both directions, phis that have a source for each predecessor, and instructions in every block
with two successors. -/
structure Regular (g : Graph) : Prop where
  lists : g.Lists
  connected : g.Connected
  inStep : ∀ b, g.InStep b (g.phis b)
  branches : ∀ b, (g.block b).succs.length = 2 → g.instrs b ≠ []
  numbered : ∀ i b, g.bblocks[i]? = some (some b) → (g.block b).id = i ∧ (g.block b).inGraph = true

/-- An empty block can be removed. What follows it does not follow a predecessor of it already, and has phis only when the
predecessor is the only one; with nothing behind it, no branch leads to it. -/
def CanRemove (g : Graph) (b : Nat) : Prop :=
  (∃ s, (g.block b).succs = [s] ∧ (∀ p ∈ (g.block b).preds, p ≠ b → p ∉ (g.block s).preds) ∧
    (g.phis s ≠ [] → (g.block b).preds.length = 1)) ∨
  (g.block b).succs = [] ∧ ∀ p ∈ (g.block b).preds, (g.block p).succs = [b]

/-- `b` with its edges is replaced by `l`. -/
def replaced (b : Nat) (l : List Nat) (x : Nat) : List Nat := if x = b then l else [x]

/-- `b` is in the graph no more, and has no edges. -/
structure Unlinks (g : Graph) (b : Nat) (g' : Graph) : Prop where
  gone : (g'.block b).preds = [] ∧ (g'.block b).succs = []
  ends : ∀ c, (g'.block c).firstPhi = (g.block c).firstPhi ∧ (g'.block c).lastPhi = (g.block c).lastPhi ∧
    (g'.block c).firstInst = (g.block c).firstInst ∧ (g'.block c).lastInst = (g.block c).lastInst ∧
    (g'.block c).instrsCount = (g.block c).instrsCount
  number : ∀ c, c ≠ b → (g'.block c).id = (g.block c).id ∧ (g'.block c).inGraph = (g.block c).inGraph
  bblocks : g'.bblocks = g.bblocks.set (g.block b).id none
  instrCount : g'.instrCount = g.instrCount
  firstBlock : g'.firstBlock = g.firstBlock
  lastBlock : g'.lastBlock = g.lastBlock

/-- `b` has been taken out of the graph: in the lists of the other blocks, its successors and its predecessors have its place. -/
structure Drops (g : Graph) (b : Nat) (g' : Graph) : Prop extends Unlinks g b g' where
  succs : ∀ c, c ≠ b → (g'.block c).succs = (g.block c).succs.flatMap (replaced b (g.block b).succs)
  preds : ∀ c, c ≠ b → (g'.block c).preds.Perm ((g.block c).preds.flatMap (replaced b (g.block b).preds))
  instr : ∀ i, g'.instr i = { g.instr i with sourceBBlocks := (g'.instr i).sourceBBlocks }
  sources : ∀ c, c ≠ b → ∀ phi ∈ g.phis c, (b ∉ (g.block c).preds ∧ (g'.instr phi).sourceBBlocks = (g.instr phi).sourceBBlocks) ∨
    b ∈ (g.block c).preds ∧ ∃ p, (g.block b).preds = [p] ∧
      (g'.instr phi).sourceBBlocks = (g.instr phi).sourceBBlocks.replace b p

/-- An empty block has no instructions, and its number is its place. -/
structure Empty (g : Graph) (b : Nat) : Prop where
  mem : g.bblocks[(g.block b).id]? = some (some b)
  inGraph : (g.block b).inGraph = true
  notFirst : g.firstBlock ≠ some b
  notLast : g.lastBlock ≠ some b
  instrs : g.instrs b = []
  phis : g.phis b = []

/-- Only edges and instructions have been written to. -/
structure EdgesOnly (g g' : Graph) : Prop where
  block : ∀ c, g'.block c = { g.block c with preds := (g'.block c).preds, succs := (g'.block c).succs }
  graph : { g' with instr := g.instr, block := g.block } = g

theorem EdgesOnly.trans {g₂ : Graph} (h₁ : EdgesOnly g g₁) (h₂ : EdgesOnly g₁ g₂) : EdgesOnly g g₂ where
  block c := by
    rw [h₂.block c, h₁.block c]
  graph := (congrArg (fun h : Graph => { h with instr := g.instr, block := g.block }) h₂.graph).trans h₁.graph

/-! ## The block itself -/

theorem unlinkBasicBlock_loose (hin : (g.block b).inGraph = true) (hid : g.bblocks[(g.block b).id]? = some (some b))
    (hlast : g.lastBlock ≠ some b) (hb : g.Loose b) :
    ∃ f, g.unlinkBasicBlock b = some { g with
      block := f
      bblocks := g.bblocks.set (g.block b).id none
      unlinkedInstructionsCounter := g.unlinkedInstructionsCounter + 1
      valid := fun _ => false } ∧
      ∀ c, f c = if c = b then { g.block b with id := INVALID_ID, inGraph := false } else g.block c := by
  obtain ⟨hpreds, hsuccs⟩ := hb
  rw [unlinkBasicBlock, unlinkBasicBlockRaw, ASSERT_of hin]
  simp only [Option.bind_eq_bind, Option.bind_some]
  rw [ASSERT_of hid]
  simp only [Option.bind_some, Option.pure_def, invalidateAfterChangedCFG, modifyBlock_lastBlock]
  rw [if_pos hlast]
  simp only [removePredecessors, removeSuccessors, modifyBlock_block, if_true, hpreds, List.foldlM_nil, Option.pure_def,
    Option.bind_eq_bind, Option.bind_some, hsuccs]
  refine ⟨_, rfl, fun c => ?_⟩
  by_cases hc : c = b
  · subst hc
    simp [modifyBlock, hpreds, hsuccs]
  · simp [modifyBlock, hc]

theorem clear_unlinkBasicBlock (hb : g.Empty b) (he : EdgesOnly g g₁) :
    ∃ g', (g₁.modifyBlock b fun x => { x with preds := [], succs := [] }).unlinkBasicBlock b = some g' ∧ Unlinks g b g' ∧
      (∀ c, c ≠ b → (g'.block c).preds = (g₁.block c).preds ∧ (g'.block c).succs = (g₁.block c).succs) ∧
      g'.instr = g₁.instr := by
  have hbb : g₁.bblocks = g.bblocks := by rw [← he.graph]
  have hlast : g₁.lastBlock = g.lastBlock := by rw [← he.graph]
  have hid : (g₁.block b).id = (g.block b).id := by rw [he.block]
  have hin : (g₁.block b).inGraph = (g.block b).inGraph := by rw [he.block]
  have hloose : (g₁.modifyBlock b fun x => { x with preds := [], succs := [] }).Loose b := by
    constructor
    · rw [modifyBlock_block_self]
    · rw [modifyBlock_block_self]
  obtain ⟨f, hrun, hf⟩ := unlinkBasicBlock_loose (by simpa [hin] using hb.inGraph) (by simpa [hid, hbb] using hb.mem)
    (by simpa [hlast] using hb.notLast) hloose
  have hself : f b = { g₁.block b with preds := [], succs := [], id := INVALID_ID, inGraph := false } := by
    rw [hf, if_pos rfl, modifyBlock_block_self]
  have hne : ∀ c, c ≠ b → f c = g₁.block c := fun c hc => by
    rw [hf, if_neg hc]
    exact modifyBlock_block_ne _ _ hc
  refine ⟨_, hrun, ⟨?_, fun c => ?_, fun c hc => ?_, ?_, ?_, ?_, hlast⟩, fun c hc => ?_, rfl⟩
  · dsimp only
    rw [hself]
    exact ⟨rfl, rfl⟩
  · dsimp only
    by_cases hc : c = b
    · rw [hc, hself, he.block]
      exact ⟨rfl, rfl, rfl, rfl, rfl⟩
    · rw [hne c hc, he.block]
      exact ⟨rfl, rfl, rfl, rfl, rfl⟩
  · dsimp only
    rw [hne c hc, he.block]
    exact ⟨rfl, rfl⟩
  · dsimp only
    rw [modifyBlock_block_self, modifyBlock_bblocks, hid, hbb]
  · rw [← he.graph]
    rfl
  · rw [← he.graph]
    rfl
  · dsimp only
    rw [hne c hc]
    exact ⟨rfl, rfl⟩

/-! ## The loop over the predecessors -/

/-- The edges from `done` lead to `s`. -/
structure PassedOn (g : Graph) (b s : Nat) (done : List Nat) (g' : Graph) : Prop where
  block : ∀ c, g'.block c = { g.block c with
    succs := if c ∈ done then (g.block c).succs.replace b s else (g.block c).succs
    preds := if c = s then (g.block c).preds ++ done else (g.block c).preds }
  graph : { g' with block := g.block } = g

theorem PassedOn.edgesOnly {done : List Nat} (h : PassedOn g b s done g') : EdgesOnly g g' where
  block c := by rw [h.block]
  graph := congrArg (fun x : Graph => { x with instr := g.instr }) h.graph

theorem passOnPredecessor_foldlM {l : List Nat} (hnodup : l.Nodup) (hl : ∀ p ∈ l, b ∈ (g.block p).succs ∧ (g.block p).succs.length ≤ 2)
    (hs : ∀ p ∈ l, p ∉ (g.block s).preds) :
    ∃ g', l.foldlM (passOnPredecessor b (some s)) g = some g' ∧ PassedOn g b s l g' := by
  refine foldlM_completes (P := PassedOn g b s) (fun done p l' h heq hP => ?_) ⟨fun c => by simp, rfl⟩
  subst heq
  have hmem : p ∈ done ++ p :: l' := List.mem_append_right _ List.mem_cons_self
  have hp : p ∉ done := fun hmem => List.disjoint_of_nodup_append hnodup hmem List.mem_cons_self
  obtain ⟨hbp, hlen⟩ := hl p hmem
  have hsuccs : (h.block p).succs = (g.block p).succs := by rw [hP.block, if_neg hp]
  have hpreds : (h.block s).preds = (g.block s).preds ++ done := by rw [hP.block, if_pos rfl]
  have hne : (h.block p).succs ≠ [] ∧ (h.block p).succs.length ≤ 2 := by
    rw [hsuccs]
    exact ⟨List.ne_nil_of_mem hbp, hlen⟩
  have hnew : p ∉ (h.block s).preds := by
    rw [hpreds, List.mem_append]
    exact fun hor => hor.elim (hs p hmem) hp
  refine ⟨(h.modifyBlock s fun x => { x with preds := x.preds ++ [p] }).modifyBlock p fun x =>
    { x with succs := x.succs.replace b s }, ?_, fun c => ?_, hP.graph⟩
  · rw [passOnPredecessor]
    simp only [Option.bind_eq_bind]
    rw [ASSERT_of hne, Option.bind_some, addPredecessor_eq hnew, Option.bind_some]
    refine replaceSuccessor_eq ?_
    rw [modifyBlock_succs (by exact fun _ => rfl), hsuccs]
    exact hbp
  · simp only [modifyBlock_block, hP.block]
    by_cases hcp : c = p
    · subst hcp
      by_cases hcs : c = s
      · subst hcs
        simp [hp]
      · simp [hp, hcs]
    · by_cases hcs : c = s
      · subst hcs
        simp [hcp]
      · simp [hcp, hcs]

/-- The edges from `done` are gone. -/
structure CutOff (g : Graph) (b : Nat) (done : List Nat) (g' : Graph) : Prop where
  block : ∀ c, g'.block c = { g.block c with succs := if c ∈ done then (g.block c).succs.erase b else (g.block c).succs }
  graph : { g' with block := g.block } = g

theorem CutOff.edgesOnly {done : List Nat} (h : CutOff g b done g') : EdgesOnly g g' where
  block c := by rw [h.block]
  graph := congrArg (fun x : Graph => { x with instr := g.instr }) h.graph

theorem cutOff_foldlM {l : List Nat} (hnodup : l.Nodup) (hl : ∀ p ∈ l, (g.block p).succs = [b]) :
    ∃ g', l.foldlM (passOnPredecessor b none) g = some g' ∧ CutOff g b l g' := by
  refine foldlM_completes (P := CutOff g b) (fun done p l' h heq hP => ?_) ⟨fun c => by simp, rfl⟩
  subst heq
  have hp : p ∉ done := fun hmem => List.disjoint_of_nodup_append hnodup hmem List.mem_cons_self
  have hsuccs : (h.block p).succs = [b] := by
    rw [hP.block, if_neg hp]
    exact hl p (List.mem_append_right _ List.mem_cons_self)
  refine ⟨h.modifyBlock p fun x => { x with succs := x.succs.erase b }, ?_, fun c => ?_, hP.graph⟩
  · rw [passOnPredecessor, hsuccs]
    simp only [Option.bind_eq_bind]
    rw [ASSERT_of ⟨List.cons_ne_nil b [], by simp⟩, Option.bind_some, if_neg (by simp), Option.bind_some]
    refine removeSuccessor_eq ?_
    rw [hsuccs]
    exact List.mem_singleton_self b
  · simp only [modifyBlock_block, hP.block]
    by_cases hcp : c = p
    · subst hcp
      simp [hp]
    · simp [hcp]

/-! ## The successor -/

theorem leaveForSuccessor_one (hl : g.Layout s phis rest) (hsucc : (g.block b).succs = [s]) (hbs : b ∈ (g.block s).preds)
    (hsrc : ∀ phi ∈ phis, b ∈ (g.instr phi).sourceBBlocks) (hne : phis ≠ [] → s ≠ b ∧ (g.block b).preds.length = 1) :
    ∃ g₁, g.leaveForSuccessor b = some (g₁, some s) ∧
      (∀ c, g₁.block c = { g.block c with preds := if c = s then swapErase (g.block s).preds b else (g.block c).preds }) ∧
      { g₁ with instr := g.instr, block := g.block } = g ∧
      ((phis = [] ∧ g₁.instr = g.instr) ∨ ∃ p, (g.block b).preds = [p] ∧ ∀ i, g₁.instr i = if i ∈ phis then
        { g.instr i with sourceBBlocks := (g.instr i).sourceBBlocks.replace b p } else g.instr i) := by
  obtain ⟨g₀, hg₀⟩ : ∃ g₀, g₀ = g.modifyBlock s fun x => { x with preds := swapErase x.preds b } := ⟨_, rfl⟩
  have hblock : ∀ c, g₀.block c =
      { g.block c with preds := if c = s then swapErase (g.block s).preds b else (g.block c).preds } := by
    intro c
    rw [hg₀, modifyBlock_block]
    split_ifs with hc
    · rw [hc]
    · rfl
  have hfirst : (g₀.block s).firstPhi = phis.head? := by
    rw [hblock]
    exact hl.firstPhi
  rw [leaveForSuccessor, hsucc, if_neg (List.cons_ne_nil s [])]
  simp only [Option.bind_eq_bind]
  rw [ASSERT_of (by simp)]
  simp only [Option.bind_some, List.getElem?_cons_zero]
  rw [removePredecessor_eq hbs, ← hg₀]
  cases phis with
  | nil =>
      refine ⟨g₀, ?_, hblock, by rw [hg₀]; rfl, .inl ⟨rfl, by rw [hg₀]; rfl⟩⟩
      simp only [Option.bind_some, hfirst, List.head?_nil]
      rfl
  | cons phi phis =>
      obtain ⟨hsb, hlen⟩ := hne (List.cons_ne_nil phi phis)
      obtain ⟨p, hp⟩ := List.length_eq_one_iff.mp hlen
      have hpreds : (g₀.block b).preds = [p] := by
        rw [hblock, if_neg (Ne.symm hsb)]
        exact hp
      have hl₀ : g₀.Layout s (phi :: phis) rest := by
        refine hl.congr ?_ (fun i _ => by rw [hg₀]; exact ⟨rfl, rfl, rfl, rfl⟩) (by rw [hg₀]; exact le_rfl)
        rw [hblock]
        exact ⟨rfl, rfl, rfl, rfl⟩
      have hsrc₀ : ∀ i ∈ phi :: phis, b ∈ (g₀.instr i).sourceBBlocks := by
        rw [hg₀]
        exact hsrc
      obtain ⟨g₁, heq, hblock₁, -, -, -, hinstr₁⟩ := LinearScan.forPhi_replaceSource (n := p) hl₀ hsrc₀
      have honly := forPhi_instrsOnly (fun g i g' h => by
        obtain ⟨-, rfl⟩ := replaceSourceBasicBlock_eq_some.mp h
        exact InstrsOnly.modifyInstr g i _) heq
      refine ⟨g₁, ?_, fun c => by rw [hblock₁, hblock], ?_, .inr ⟨p, hp, ?_⟩⟩
      · rw [List.head?_cons] at heq hfirst
        simp only [Option.bind_some, hfirst, hpreds, List.getElem?_cons_zero]
        rw [ASSERT_of (by simp), Option.bind_some, heq]
        rfl
      · have hgraph := congrArg (fun h : Graph => { h with instr := g.instr, block := g.block }) honly.graph
        rw [hg₀] at hgraph
        exact hgraph
      · rw [hg₀] at hinstr₁
        exact hinstr₁

theorem leaveForSuccessor_none (hsucc : (g.block b).succs = []) : g.leaveForSuccessor b = some (g, none) := by
  rw [leaveForSuccessor, if_pos hsucc]
  rfl

/-! ## The whole step -/

theorem flatMap_replaced_of_notMem {l r : List Nat} (h : b ∉ l) : l.flatMap (replaced b r) = l := by
  induction l with
  | nil => rfl
  | cons a l ih =>
      rw [List.mem_cons, not_or] at h
      rw [List.flatMap_cons, ih h.2, replaced, if_neg (Ne.symm h.1), List.singleton_append]

theorem flatMap_replaced_singleton {l : List Nat} (hl : l.Nodup) : l.flatMap (replaced b [s]) = l.replace b s := by
  induction l with
  | nil => rfl
  | cons a l ih =>
      obtain ⟨ha, hl⟩ := List.nodup_cons.mp hl
      rw [List.flatMap_cons, List.replace_cons, replaced]
      by_cases hab : a = b
      · subst hab
        rw [if_pos rfl, beq_self_eq_true, flatMap_replaced_of_notMem ha]
        rfl
      · have hba : (b == a) = false := beq_false_of_ne (Ne.symm hab)
        rw [if_neg hab, hba, ih hl]
        rfl

theorem flatMap_replaced_perm {l r : List Nat} (hl : l.Nodup) (hb : b ∈ l) :
    (l.flatMap (replaced b r)).Perm (l.erase b ++ r) := by
  have hperm := (List.perm_cons_erase hb).flatMap_right (replaced b r)
  rw [List.flatMap_cons, replaced, if_pos rfl] at hperm
  rw [flatMap_replaced_of_notMem hl.not_mem_erase] at hperm
  exact hperm.trans List.perm_append_comm

/-- The step once the predecessors have been passed on. -/
theorem removeIfEmpty_eq {g₂ : Graph} {l : List Nat} {o : Option Nat} (hrem : g.isRemovable b = true)
    (hleave : g.leaveForSuccessor b = some (g₁, o)) (hpreds : (g₁.block b).preds = l)
    (hloop : l.foldlM (passOnPredecessor b o) g₁ = some g₂) :
    g.removeIfEmpty b =
      ((g₂.modifyBlock b fun x => { x with preds := [], succs := [] }).unlinkBasicBlock b).map fun g => (g, true) := by
  rw [removeIfEmpty, hrem, hleave]
  simp only [Bool.true_eq_false, if_false, Option.bind_eq_bind, Option.bind_some, hpreds, hloop]
  rw [Option.map_eq_bind]
  rfl

theorem Regular.empty (h : g.Regular) (hb : b ∈ g.blocks) (hrem : g.isRemovable b = true) : g.Empty b := by
  obtain ⟨i, hi⟩ := mem_blocks_iff.mp hb
  obtain ⟨rfl, hin⟩ := h.numbered i b hi
  obtain ⟨phis, rest, hl⟩ := h.lists.listed b
  simp only [isRemovable, Bool.and_eq_true, beq_iff_eq, bne_iff_ne] at hrem
  obtain ⟨⟨hcount, hfirst⟩, hlast⟩ := hrem
  have hnil : phis ++ rest = [] := by
    rw [← List.length_eq_zero_iff, ← hl.count]
    exact hcount
  obtain ⟨rfl, rfl⟩ := List.append_eq_nil_iff.mp hnil
  exact ⟨hi, hin, hfirst, hlast, hl.instrs_eq, hl.phis_eq⟩

section
variable (h : g.Regular)
include h

/-- The predecessors that are passed on are those that are not the block itself. -/
theorem passed_preds (hsucc : (g.block b).succs = [s]) (hout : ∀ p ∈ (g.block b).preds, p ≠ b → p ∉ (g.block s).preds)
    (hblock : ∀ c, g₁.block c = { g.block c with preds := if c = s then swapErase (g.block s).preds b else (g.block c).preds }) :
    (g₁.block b).preds.Nodup ∧ ∀ p, p ∈ (g₁.block b).preds ↔ p ∈ (g.block b).preds ∧ p ≠ b := by
  have hg := h.connected
  by_cases hsb : s = b
  · subst hsb
    have hself : (g.block s).preds = [s] := by
      refine List.perm_singleton.mp ((List.perm_ext_iff_of_nodup (hg.preds_nodup s) (List.nodup_singleton s)).mpr fun p => ?_)
      rw [List.mem_singleton]
      refine ⟨fun hp => by_contra fun hne => hout p hp hne hp, ?_⟩
      rintro rfl
      rw [← hg.edges, hsucc]
      exact List.mem_singleton_self _
    have hnil : (g₁.block s).preds = [] := by
      rw [hblock, if_pos rfl, hself]
      simp [swapErase]
    rw [hnil, hself]
    refine ⟨List.nodup_nil, fun p => ?_⟩
    simp
  · have heq : (g₁.block b).preds = (g.block b).preds := by rw [hblock, if_neg (Ne.symm hsb)]
    rw [heq]
    refine ⟨hg.preds_nodup b, fun p => ⟨fun hp => ⟨hp, ?_⟩, fun hp => hp.1⟩⟩
    rintro rfl
    rw [← hg.edges, hsucc, List.mem_singleton] at hp
    exact hsb hp.symm

theorem removeIfEmpty_one (hb : g.Empty b) (hrem : g.isRemovable b = true) (hsucc : (g.block b).succs = [s])
    (hout : ∀ p ∈ (g.block b).preds, p ≠ b → p ∉ (g.block s).preds)
    (hphis : g.phis s ≠ [] → (g.block b).preds.length = 1) :
    ∃ g', g.removeIfEmpty b = some (g', true) ∧ Drops g b g' := by
  have hg := h.connected
  have hbs : b ∈ (g.block s).preds := (hg.edges b s).mp (by rw [hsucc]; exact List.mem_singleton_self s)
  obtain ⟨phis, rest, hl⟩ := h.lists.listed s
  have hphiseq := hl.phis_eq
  have hne : phis ≠ [] → s ≠ b ∧ (g.block b).preds.length = 1 := by
    intro hphi
    rw [← hphiseq] at hphi
    refine ⟨?_, hphis hphi⟩
    rintro rfl
    exact hphi hb.phis
  have hsrc : ∀ phi ∈ phis, b ∈ (g.instr phi).sourceBBlocks := by
    intro phi hphi
    rw [← hphiseq] at hphi
    exact ((h.inStep s).sources phi hphi).mem_iff.mpr hbs
  obtain ⟨g₁, hleave, hblock₁, hgraph₁, hinstr₁⟩ := leaveForSuccessor_one hl.toLayout hsucc hbs hsrc hne
  obtain ⟨hnodup, hmem⟩ := passed_preds h hsucc hout hblock₁
  obtain ⟨g₂, hloop, hP⟩ := passOnPredecessor_foldlM (b := b) (s := s) hnodup (fun p hp => by
    rw [hblock₁ p]
    exact ⟨(hg.edges p b).mpr ((hmem p).mp hp).1, hg.succs_le p⟩) (fun p hp => by
    rw [hblock₁ s, if_pos rfl]
    obtain ⟨hpb, hne⟩ := (hmem p).mp hp
    exact fun hmem => hout p hpb hne (mem_swapErase hmem))
  have hedges₁ : EdgesOnly g g₁ := ⟨fun c => by rw [hblock₁], hgraph₁⟩
  obtain ⟨g', hunlink, hdrops, hblock', hinstr'⟩ := clear_unlinkBasicBlock hb (hedges₁.trans hP.edgesOnly)
  have hinstr₂ : g₂.instr = g₁.instr := by rw [← hP.graph]
  have hsucc' : ∀ c, (g₁.block c).succs = (g.block c).succs := fun c => by rw [hblock₁]
  refine ⟨g', ?_, hdrops, fun c hc => ?_, fun c hc => ?_, fun i => ?_, fun c hc phi hphi => ?_⟩
  · rw [removeIfEmpty_eq hrem hleave rfl hloop, hunlink]
    rfl
  · rw [(hblock' c hc).2, hP.block, hsucc, flatMap_replaced_singleton (hg.succs_nodup c)]
    simp only [hsucc']
    split_ifs with hcl
    · rfl
    · have hbc : b ∉ (g.block c).succs := fun hbc => hcl ((hmem c).mpr ⟨(hg.edges c b).mp hbc, hc⟩)
      exact (List.replace_of_not_mem hbc).symm
  · rw [(hblock' c hc).1, hP.block]
    simp only [hblock₁]
    by_cases hcs : c = s
    · subst hcs
      rw [if_pos rfl, if_pos rfl, if_neg (Ne.symm hc)]
      exact ((swapErase_perm hbs).append_right _).trans (flatMap_replaced_perm (hg.preds_nodup c) hbs).symm
    · have hbc : b ∉ (g.block c).preds := by
        rw [← hg.edges, hsucc, List.mem_singleton]
        exact hcs
      rw [if_neg hcs, if_neg hcs, flatMap_replaced_of_notMem hbc]
  · rw [hinstr', hinstr₂]
    rcases hinstr₁ with ⟨-, heq⟩ | ⟨p, -, heq⟩
    · rw [heq]
    · rw [heq]
      split_ifs <;> rfl
  · rw [hinstr', hinstr₂]
    by_cases hcs : c = s
    · subst hcs
      rw [hphiseq] at hphi
      rcases hinstr₁ with ⟨hnil, -⟩ | ⟨p, hp, heq⟩
      · rw [hnil] at hphi
        cases hphi
      · refine .inr ⟨hbs, p, hp, ?_⟩
        rw [heq, if_pos hphi]
    · have hbc : b ∉ (g.block c).preds := by
        rw [← hg.edges, hsucc, List.mem_singleton]
        exact hcs
      refine .inl ⟨hbc, ?_⟩
      rcases hinstr₁ with ⟨-, heq⟩ | ⟨p, -, heq⟩
      · rw [heq]
      · rw [heq, if_neg]
        intro hphis'
        have hparent : (g.instr phi).parent = some c := h.lists.mem_instrs.mp ((List.takeWhile_sublist _).mem hphi)
        rw [hl.parent phi (List.mem_append_left _ hphis')] at hparent
        exact hcs (Option.some.inj hparent).symm

theorem removeIfEmpty_none (hb : g.Empty b) (hrem : g.isRemovable b = true) (hsucc : (g.block b).succs = [])
    (hpreds : ∀ p ∈ (g.block b).preds, (g.block p).succs = [b]) :
    ∃ g', g.removeIfEmpty b = some (g', true) ∧ Drops g b g' := by
  have hg := h.connected
  obtain ⟨g₂, hloop, hP⟩ := cutOff_foldlM (hg.preds_nodup b) hpreds
  obtain ⟨g', hunlink, hdrops, hblock', hinstr'⟩ := clear_unlinkBasicBlock hb hP.edgesOnly
  have hinstr₂ : g₂.instr = g.instr := by rw [← hP.graph]
  have hbc : ∀ c, b ∉ (g.block c).preds := fun c => by
    rw [← hg.edges, hsucc]
    exact List.not_mem_nil
  refine ⟨g', ?_, hdrops, fun c hc => ?_, fun c hc => ?_, fun i => ?_, fun c hc phi hphi => ?_⟩
  · rw [removeIfEmpty_eq hrem (leaveForSuccessor_none hsucc) rfl hloop, hunlink]
    rfl
  · rw [(hblock' c hc).2, hP.block, hsucc]
    dsimp only
    split_ifs with hcl
    · rw [hpreds c hcl]
      simp [replaced]
    · have hbs : b ∉ (g.block c).succs := fun hbs => hcl ((hg.edges c b).mp hbs)
      rw [flatMap_replaced_of_notMem hbs]
  · rw [(hblock' c hc).1, hP.block, flatMap_replaced_of_notMem (hbc c)]
  · rw [hinstr', hinstr₂]
  · rw [hinstr', hinstr₂]
    exact .inl ⟨hbc c, rfl⟩

theorem removeIfEmpty_drops (hb : b ∈ g.blocks) (hrem : g.isRemovable b = true) (hcan : CanRemove g b) :
    ∃ g', g.removeIfEmpty b = some (g', true) ∧ Drops g b g' := by
  have he := h.empty hb hrem
  rcases hcan with ⟨s, hsucc, hout, hphis⟩ | ⟨hsucc, hpreds⟩
  · exact removeIfEmpty_one h he hrem hsucc hout hphis
  · exact removeIfEmpty_none h he hrem hsucc hpreds

end

end CompilerLab.Jit.Graph
