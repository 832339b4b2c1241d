import CompilerLab.Jit.Lemmas.EmptyBlocksRemoval
import CompilerLab.Jit.Lemmas.BranchElimination
import CompilerLab.Lib.Contraction

/-!
# Empty blocks and the control flow

A graph without some of its empty blocks is that graph with these vertices contracted. `EmptyBlocksRemoval` keeps the control flow
when every block it removes can be removed, and in no other case.
-/

namespace CompilerLab.Jit.Graph

open CompilerLab.Lib

variable {g g' g₁ g₂ : Graph} {b c e p s : Nat}

/-- The blocks of `g` that are not blocks of `g'`. -/
def Removed (g g' : Graph) : Set Nat := {b | b ∈ g.blocks ∧ b ∉ g'.blocks}

/-- An execution can visit the non-empty blocks `w`, in this order. -/
def Visits (g : Graph) (w : List Nat) : Prop :=
  ∃ first, g.firstBlock = some first ∧ Trace g.Edge (fun b => !(g.instrs b).isEmpty) first w

/-- Only empty blocks are gone. The executions visit the same blocks, a branch leads where it led, and a phi selects what it selected on
the path through the removed blocks. -/
structure KeepsFlow (g g' : Graph) : Prop where
  removed : ∀ b ∈ Removed g g', g.instrs b = []
  instrs : ∀ b, g'.instrs b = g.instrs b
  instr : ∀ i, g'.instr i = { g.instr i with sourceBBlocks := (g'.instr i).sourceBBlocks }
  visits : ∀ w, g'.Visits w ↔ g.Visits w
  branches : ∀ c, c ∉ Removed g g' → ∀ x y, (g.block c).succs = [x, y] → ∃ x' y', (g'.block c).succs = [x', y'] ∧
    Onward g.Edge (Removed g g') x x' ∧ Onward g.Edge (Removed g g') y y'
  sources : ∀ c, c ∉ Removed g g' → g'.InStep c (g'.phis c)
  selects : ∀ p e c, p ∉ Removed g g' → c ∉ Removed g g' → Enters g.Edge (Removed g g') e c p →
    ∀ phi ∈ g.phis c, g'.resolveInput phi p = g.resolveInput phi e

/-! ## One block -/

theorem mem_flatMap_replaced {l r : List Nat} {x : Nat} (hx : x ≠ b) :
    x ∈ l.flatMap (replaced b r) ↔ x ∈ l ∨ b ∈ l ∧ x ∈ r := by
  simp only [List.mem_flatMap, replaced]
  constructor
  · rintro ⟨y, hy, hxy⟩
    split_ifs at hxy with hyb
    · exact .inr ⟨hyb ▸ hy, hxy⟩
    · rw [List.mem_singleton] at hxy
      exact .inl (hxy ▸ hy)
  · rintro (hx' | ⟨hb, hxr⟩)
    · refine ⟨x, hx', ?_⟩
      rw [if_neg hx]
      exact List.mem_singleton_self x
    · refine ⟨b, hb, ?_⟩
      rw [if_pos rfl]
      exact hxr

theorem notMem_flatMap_replaced {l r : List Nat} (hr : b ∈ l → b ∉ r) : b ∉ l.flatMap (replaced b r) := by
  simp only [List.mem_flatMap, replaced, not_exists, not_and]
  intro y hy hby
  split_ifs at hby with hyb
  · exact hr (hyb ▸ hy) hby
  · exact hyb (List.mem_singleton.mp hby).symm

theorem nodup_flatMap_replaced {l r : List Nat} (hl : l.Nodup) (hr : r.Nodup) (hd : b ∈ l → ∀ x ∈ r, x ≠ b → x ∉ l)
    (hb : b ∈ l → b ∉ r) : (l.flatMap (replaced b r)).Nodup := by
  by_cases hbl : b ∈ l
  · rw [(flatMap_replaced_perm hl hbl).nodup_iff]
    refine (hl.erase b).append hr fun x hx hxr => ?_
    have hne : x ≠ b := by
      rintro rfl
      exact hb hbl hxr
    exact hd hbl x hxr hne (List.mem_of_mem_erase hx)
  · rw [flatMap_replaced_of_notMem hbl]
    exact hl

theorem length_flatMap_replaced_le {l r : List Nat} (hr : r.length ≤ 1) : (l.flatMap (replaced b r)).length ≤ l.length := by
  induction l with
  | nil => exact le_rfl
  | cons a l ih =>
      rw [List.flatMap_cons, List.length_append, List.length_cons, replaced]
      split_ifs
      · omega
      · rw [List.length_singleton]
        omega

theorem CanRemove.length_le (h : g.CanRemove b) : (g.block b).succs.length ≤ 1 := by
  rcases h with ⟨s, hs, -⟩ | ⟨hs, -⟩
  · rw [hs]
    exact le_rfl
  · rw [hs]
    exact Nat.zero_le 1

/-- A block that goes around itself has no other way in. -/
theorem CanRemove.not_loop (h : g.CanRemove b) (hpb : p ∈ (g.block b).preds) (hp : p ≠ b) : b ∉ (g.block b).succs := by
  rcases h with ⟨s, hs, hout, -⟩ | ⟨hs, -⟩
  · rw [hs, List.mem_singleton]
    rintro rfl
    exact hout p hpb hp hpb
  · rw [hs]
    exact List.not_mem_nil

namespace Drops

variable (hd : Drops g b g') (h : g.Regular) (hb : g.Empty b) (hcan : g.CanRemove b)
include hd

theorem listed {phis rest : List Nat} (hl : g.Listed c phis rest) : g'.Listed c phis rest where
  toLayout := by
    obtain ⟨h₁, h₂, h₃, h₄, -⟩ := hd.ends c
    exact hl.toLayout.congr ⟨h₁, h₂, h₃, h₄⟩ (fun i _ => by rw [hd.instr]; exact ⟨rfl, rfl, rfl, rfl⟩) hd.instrCount.ge
  count := by
    rw [(hd.ends c).2.2.2.2]
    exact hl.count
  complete i hi := by
    rw [hd.instr] at hi
    exact hl.complete i hi

include h

theorem instrs_eq (c : Nat) : g'.instrs c = g.instrs c := by
  obtain ⟨phis, rest, hl⟩ := h.lists.listed c
  rw [hl.instrs_eq, (hd.listed hl).instrs_eq]

theorem phis_eq (c : Nat) : g'.phis c = g.phis c := by
  obtain ⟨phis, rest, hl⟩ := h.lists.listed c
  rw [hl.phis_eq, (hd.listed hl).phis_eq]

theorem lists : g'.Lists where
  listed c := by
    obtain ⟨phis, rest, hl⟩ := h.lists.listed c
    exact ⟨phis, rest, hd.listed hl⟩
  unlinked i hi := by
    rw [hd.instrCount] at hi
    rw [hd.instr]
    exact h.lists.unlinked i hi

include hcan

omit hd in
theorem succs_of_mem (hp : p ≠ b) (hpb : b ∈ (g.block p).succs) : b ∉ (g.block b).succs :=
  hcan.not_loop ((h.connected.edges p b).mp hpb) hp

omit hd in
theorem succs_eq (hbc : b ∈ (g.block c).preds) : (g.block b).succs = [c] ∧
    (∀ p ∈ (g.block b).preds, p ≠ b → p ∉ (g.block c).preds) ∧ (g.phis c ≠ [] → (g.block b).preds.length = 1) := by
  rw [← h.connected.edges] at hbc
  rcases hcan with ⟨s, hs, hout, hphis⟩ | ⟨hs, -⟩
  · rw [hs, List.mem_singleton] at hbc
    subst hbc
    exact ⟨hs, hout, hphis⟩
  · rw [hs] at hbc
    cases hbc

theorem edges (p c : Nat) : c ∈ (g'.block p).succs ↔ p ∈ (g'.block c).preds := by
  have hg := h.connected
  have hout : ∀ p, p ≠ b → b ∉ (g'.block p).succs := fun p hp => by
    rw [hd.succs p hp]
    exact notMem_flatMap_replaced fun hpb => succs_of_mem h hcan hp hpb
  have hin : ∀ c, c ≠ b → b ∉ (g'.block c).preds := fun c hc => by
    rw [(hd.preds c hc).mem_iff]
    refine notMem_flatMap_replaced fun hbc hloop => ?_
    rw [← hg.edges, (succs_eq h hcan hbc).1, List.mem_singleton] at hloop
    exact hc hloop.symm
  by_cases hp : p = b
  · subst hp
    rw [hd.gone.2]
    by_cases hc : c = p
    · subst hc
      rw [hd.gone.1]
    · exact ⟨nofun, fun hmem => absurd hmem (hin c hc)⟩
  · by_cases hc : c = b
    · subst hc
      rw [hd.gone.1]
      exact ⟨fun hmem => absurd hmem (hout p hp), nofun⟩
    · rw [hd.succs p hp, (hd.preds c hc).mem_iff, mem_flatMap_replaced hc, mem_flatMap_replaced hp]
      rw [hg.edges p c, hg.edges p b, hg.edges b c]
      tauto

theorem connected : g'.Connected := by
  have hg := h.connected
  refine ⟨hd.edges h hcan, fun c => ?_, fun c => ?_, fun c => ?_⟩
  · by_cases hc : c = b
    · rw [hc, hd.gone.1]
      exact List.nodup_nil
    · rw [(hd.preds c hc).nodup_iff]
      refine nodup_flatMap_replaced (hg.preds_nodup c) (hg.preds_nodup b) (fun hbc => (succs_eq h hcan hbc).2.1) fun hbc hloop => ?_
      rw [← hg.edges, (succs_eq h hcan hbc).1, List.mem_singleton] at hloop
      exact hc hloop.symm
  · by_cases hc : c = b
    · rw [hc, hd.gone.2]
      exact List.nodup_nil
    · rw [hd.succs c hc]
      refine nodup_flatMap_replaced (hg.succs_nodup c) (hg.succs_nodup b) (fun hbc x hx _ hxc => ?_) (succs_of_mem h hcan hc)
      rw [hg.edges] at hx hxc hbc
      exact (succs_eq h hcan hx).2.1 c hbc hc hxc
  · by_cases hc : c = b
    · rw [hc, hd.gone.2]
      exact Nat.zero_le 2
    · rw [hd.succs c hc]
      exact (length_flatMap_replaced_le hcan.length_le).trans (hg.succs_le c)

include hb

omit hcan in
theorem inStep (c : Nat) : g'.InStep c (g'.phis c) := by
  have hg := h.connected
  have hstep := h.inStep c
  rw [hd.phis_eq h]
  by_cases hc : c = b
  · rw [hc, hb.phis]
    exact ⟨List.forall_mem_nil _, List.forall_mem_nil _⟩
  refine ⟨fun phi hphi => ?_, fun phi hphi => ?_⟩
  · refine List.Perm.trans ?_ (hd.preds c hc).symm
    rcases hd.sources c hc phi hphi with ⟨hbc, heq⟩ | ⟨hbc, p, hp, heq⟩
    · rw [heq, flatMap_replaced_of_notMem hbc]
      exact hstep.sources phi hphi
    · rw [heq]
      have hbs : b ∈ (g.instr phi).sourceBBlocks := (hstep.sources phi hphi).mem_iff.mpr hbc
      refine (replace_perm hbs).trans (.trans ?_ (flatMap_replaced_perm (hg.preds_nodup c) hbc).symm)
      rw [hp]
      exact (List.perm_append_singleton p _).symm.trans (((hstep.sources phi hphi).erase b).append_right [p])
  · rw [hd.instr phi]
    dsimp only
    rw [hstep.inputs phi hphi]
    rcases hd.sources c hc phi hphi with ⟨-, heq⟩ | ⟨-, p, -, heq⟩
    · rw [heq]
    · rw [heq, List.length_replace]

theorem regular : g'.Regular where
  lists := hd.lists h
  connected := hd.connected h hcan
  inStep := hd.inStep h hb
  branches c hlen := by
    rw [hd.instrs_eq h]
    refine h.branches c (Nat.le_antisymm (h.connected.succs_le c) ?_)
    by_cases hc : c = b
    · rw [hc, hd.gone.2] at hlen
      cases hlen
    · rw [hd.succs c hc] at hlen
      rw [← hlen]
      exact length_flatMap_replaced_le hcan.length_le
  numbered i c hi := by
    rw [hd.bblocks] at hi
    have hne : (g.block b).id ≠ i := by
      rintro rfl
      rw [List.getElem?_set_self' , hb.mem] at hi
      cases hi
    rw [List.getElem?_set_ne hne] at hi
    obtain ⟨hid, hin⟩ := h.numbered i c hi
    have hc : c ≠ b := by
      rintro rfl
      exact hne hid
    rw [(hd.number c hc).1, (hd.number c hc).2]
    exact ⟨hid, hin⟩

omit hcan in
theorem removed : Removed g g' = {b} := by
  ext c
  rw [Set.mem_singleton_iff, Removed, Set.mem_ofPred_eq, mem_blocks_iff, mem_blocks_iff, hd.bblocks]
  constructor
  · rintro ⟨⟨i, hi⟩, hout⟩
    by_contra hc
    have hne : (g.block b).id ≠ i := by
      rintro rfl
      rw [hb.mem] at hi
      exact hc (Option.some.inj (Option.some.inj hi)).symm
    exact hout ⟨i, by rw [List.getElem?_set_ne hne]; exact hi⟩
  · rintro rfl
    refine ⟨⟨_, hb.mem⟩, ?_⟩
    rintro ⟨i, hi⟩
    by_cases hne : (g.block c).id = i
    · subst hne
      rw [List.getElem?_set_self', hb.mem] at hi
      cases hi
    · rw [List.getElem?_set_ne hne] at hi
      exact hne (h.numbered i c hi).1

omit hb

theorem contracts : Contracts g.Edge {b} g'.Edge := by
  intro p s
  rw [Set.mem_singleton_iff, Set.mem_singleton_iff]
  have hthrough : ∀ {e q}, Enters g.Edge {b} e s q → q = b → s ≠ b → s ∈ (g.block b).succs := by
    intro e q he hq hs
    induction he with
    | edge hes =>
        rw [← hq]
        exact hes
    | step _ hx _ ih => exact ih hx
  constructor
  · intro hps
    have hp : p ≠ b := by
      rintro rfl
      rw [Edge, hd.gone.2] at hps
      cases hps
    have hs : s ≠ b := by
      rintro rfl
      rw [Edge, hd.edges h hcan, hd.gone.1] at hps
      cases hps
    refine ⟨hp, hs, ?_⟩
    rw [Edge, hd.succs p hp, mem_flatMap_replaced hs] at hps
    rcases hps with hps | ⟨hpb, hbs⟩
    · exact ⟨p, .edge hps⟩
    · exact ⟨b, .step hpb rfl (.edge hbs)⟩
  · rintro ⟨hp, hs, e, he⟩
    rw [Edge, hd.succs p hp, mem_flatMap_replaced hs]
    cases he with
    | edge hps => exact .inl hps
    | step hpx hx hxs =>
        rw [Set.mem_singleton_iff] at hx
        subst hx
        exact .inr ⟨hpx, hthrough hxs rfl hs⟩

theorem branch {x y : Nat} (hc : c ≠ b) (hxy : (g.block c).succs = [x, y]) : ∃ x' y', (g'.block c).succs = [x', y'] ∧
    Onward g.Edge {b} x x' ∧ Onward g.Edge {b} y y' := by
  have hnodup := h.connected.succs_nodup c
  have hlead : ∀ z ∈ (g.block c).succs, ∃ z', replaced b (g.block b).succs z = [z'] ∧ Onward g.Edge {b} z z' := by
    intro z hz
    by_cases hzb : z = b
    · subst hzb
      have hloop := succs_of_mem h hcan hc hz
      rw [h.connected.edges] at hz
      rcases hcan with ⟨s, hs, -⟩ | ⟨-, hone⟩
      · refine ⟨s, by rw [replaced, if_pos rfl, hs], ?_, .inr ⟨rfl, z, .edge ?_⟩⟩
        · rintro rfl
          rw [hs] at hloop
          exact hloop (List.mem_singleton_self _)
        · rw [Edge, hs]
          exact List.mem_singleton_self s
      · rw [hone c hz] at hxy
        cases hxy
    · exact ⟨z, by rw [replaced, if_neg hzb], hzb, .inl rfl⟩
  obtain ⟨x', hx, hxx'⟩ := hlead x (by simp [hxy])
  obtain ⟨y', hy, hyy'⟩ := hlead y (by simp [hxy])
  refine ⟨x', y', ?_, hxx', hyy'⟩
  rw [hd.succs c hc, hxy, List.flatMap_cons, List.flatMap_cons, hx, hy]
  rfl

theorem select {phi : Nat} (hp : p ≠ b) (hc : c ≠ b) (he : Enters g.Edge {b} e c p) (hphi : phi ∈ g.phis c) :
    g'.resolveInput phi p = g.resolveInput phi e := by
  have hg := h.connected
  have hsrc := (h.inStep c).sources phi hphi
  have hinputs : (g'.instr phi).inputs = (g.instr phi).inputs := by rw [hd.instr]
  rw [resolveInput, resolveInput, getInput, getInput, indexOf, indexOf, hinputs]
  have hlast : e ∈ (g.block c).preds := (hg.edges e c).mp he.last
  rcases hd.sources c hc phi hphi with ⟨hbc, heq⟩ | ⟨hbc, q, hq, heq⟩
  · rw [heq]
    rcases he.last_mem with rfl | heb
    · rfl
    · rw [Set.mem_singleton_iff] at heb
      subst heb
      exact absurd hlast hbc
  · obtain ⟨-, hout, -⟩ := succs_eq h hcan hbc
    rw [heq]
    rcases he.last_mem with rfl | heb
    · have hne : e ≠ q := by
        rintro rfl
        exact hout e (by rw [hq]; exact List.mem_singleton_self e) hp hlast
      rw [idxOf_replace_ne hp hne]
    · rw [Set.mem_singleton_iff] at heb
      subst heb
      cases he with
      | edge _ => exact absurd rfl hp
      | step hpx hx _ =>
          rw [Set.mem_singleton_iff] at hx
          subst hx
          rw [Edge, hg.edges, hq, List.mem_singleton] at hpx
          subst hpx
          have hnew : p ∉ (g.instr phi).sourceBBlocks := by
            rw [hsrc.mem_iff]
            exact hout p (by rw [hq]; exact List.mem_singleton_self p) hp
          rw [idxOf_replace_new hnew]

end Drops

/-! ## Several blocks -/

/-- `g'` is `g` without some of its empty blocks. -/
structure Shortens (g g' : Graph) : Prop where
  regular : g'.Regular
  blocks : g'.blocks ⊆ g.blocks
  firstBlock : g'.firstBlock = g.firstBlock
  lastBlock : g'.lastBlock = g.lastBlock
  removed : ∀ b ∈ Removed g g', g.instrs b = [] ∧ g.firstBlock ≠ some b
  instrs : ∀ b, g'.instrs b = g.instrs b
  phis : ∀ b, g'.phis b = g.phis b
  instr : ∀ i, g'.instr i = { g.instr i with sourceBBlocks := (g'.instr i).sourceBBlocks }
  contracts : Contracts g.Edge (Removed g g') g'.Edge
  branches : ∀ c, c ∉ Removed g g' → ∀ x y, (g.block c).succs = [x, y] → ∃ x' y', (g'.block c).succs = [x', y'] ∧
    Onward g.Edge (Removed g g') x x' ∧ Onward g.Edge (Removed g g') y y'
  selects : ∀ p e c, p ∉ Removed g g' → c ∉ Removed g g' → Enters g.Edge (Removed g g') e c p →
    ∀ phi ∈ g.phis c, g'.resolveInput phi p = g.resolveInput phi e

namespace Shortens

theorem removed_trans (h₁ : Shortens g g₁) (h₂ : Shortens g₁ g₂) : Removed g g₂ = Removed g g₁ ∪ Removed g₁ g₂ := by
  ext c
  simp only [Removed, Set.mem_union, Set.mem_ofPred_eq]
  have hsub₁ := @h₁.blocks c
  have hsub₂ := @h₂.blocks c
  tauto

theorem trans (h₁ : Shortens g g₁) (h₂ : Shortens g₁ g₂) : Shortens g g₂ where
  regular := h₂.regular
  blocks := List.Subset.trans h₂.blocks h₁.blocks
  firstBlock := h₂.firstBlock.trans h₁.firstBlock
  lastBlock := h₂.lastBlock.trans h₁.lastBlock
  removed b hb := by
    rw [h₁.removed_trans h₂] at hb
    rcases hb with hb | hb
    · exact h₁.removed b hb
    · rw [← h₁.instrs, ← h₁.firstBlock]
      exact h₂.removed b hb
  instrs b := (h₂.instrs b).trans (h₁.instrs b)
  phis b := (h₂.phis b).trans (h₁.phis b)
  instr i := by rw [h₂.instr, h₁.instr]
  contracts := by
    rw [h₁.removed_trans h₂]
    exact h₁.contracts.trans h₂.contracts
  branches c hc x y hxy := by
    rw [h₁.removed_trans h₂] at hc ⊢
    rw [Set.mem_union, not_or] at hc
    obtain ⟨x₁, y₁, hxy₁, hx₁, hy₁⟩ := h₁.branches c hc.1 x y hxy
    obtain ⟨x₂, y₂, hxy₂, hx₂, hy₂⟩ := h₂.branches c hc.2 x₁ y₁ hxy₁
    exact ⟨x₂, y₂, hxy₂, hx₁.trans h₁.contracts hx₂, hy₁.trans h₁.contracts hy₂⟩
  selects p e c hp hc he phi hphi := by
    rw [h₁.removed_trans h₂] at hp hc he
    rw [Set.mem_union, not_or] at hp hc
    obtain ⟨m, hm, hem⟩ := (h₁.contracts.split hc.1 he).1 hp.1
    obtain ⟨hm₁, -, -⟩ := (h₁.contracts m c).mp hm.last
    rw [h₂.selects p m c hp.2 hc.2 hm phi (by rw [h₁.phis]; exact hphi)]
    exact h₁.selects m e c hm₁ hc.1 hem phi hphi

theorem keepsFlow (h : Shortens g g') : KeepsFlow g g' where
  removed b hb := (h.removed b hb).1
  instrs := h.instrs
  instr := h.instr
  visits w := by
    rw [Visits, Visits, h.firstBlock]
    have hsame : (fun b => !(g'.instrs b).isEmpty) = fun b => !(g.instrs b).isEmpty := by
      funext b
      rw [h.instrs]
    rw [hsame]
    refine exists_congr fun first => and_congr_right fun hfirst => h.contracts.trace_iff (fun b hb => ?_) fun hmem => ?_
    · rw [(h.removed b hb).1]
      rfl
    · exact (h.removed first hmem).2 hfirst
  branches := h.branches
  sources c _ := h.regular.inStep c
  selects := h.selects

end Shortens

/-- The edges and the instructions are the same. -/
theorem shortens_of_same (h : g.Regular) (block : g'.block = g.block) (instr : g'.instr = g.instr)
    (instrCount : g'.instrCount = g.instrCount) (bblocks : g'.bblocks = g.bblocks) (firstBlock : g'.firstBlock = g.firstBlock)
    (lastBlock : g'.lastBlock = g.lastBlock) : Shortens g g' := by
  have hblocks : g'.blocks = g.blocks := by rw [blocks, bblocks, blocks]
  have hsame : SameLists g g' := ⟨fun c => by rw [block]; exact ⟨rfl, rfl, rfl, rfl, rfl⟩, instr, instrCount⟩
  have hphis : ∀ b, g'.phis b = g.phis b := fun b => hsame.phis_eq h.lists
  have hinstrs : ∀ b, g'.instrs b = g.instrs b := fun b => by
    obtain ⟨phis, rest, hl⟩ := h.lists.listed b
    rw [hl.instrs_eq, (hsame.listed hl).instrs_eq]
  have hnone : Removed g g' = ∅ := by
    ext c
    simp [Removed, hblocks]
  have hfollows : g'.Edge = g.Edge := by
    funext p s
    rw [Edge, Edge, block]
  refine ⟨⟨hsame.lists h.lists, ⟨?_, ?_, ?_, ?_⟩, fun b => ?_, fun b => ?_, fun i b => ?_⟩, fun c hc => hblocks ▸ hc, firstBlock,
    lastBlock, ?_, hinstrs, hphis, fun i => by rw [instr], ?_, ?_, ?_⟩
  · rw [block]
    exact h.connected.edges
  · rw [block]
    exact h.connected.preds_nodup
  · rw [block]
    exact h.connected.succs_nodup
  · rw [block]
    exact h.connected.succs_le
  · exact hsame.inStep h.lists (by rw [block]) (h.inStep b)
  · rw [block, hinstrs]
    exact h.branches b
  · rw [block, bblocks]
    exact h.numbered i b
  · rw [hnone]
    exact fun b hb => hb.elim
  · rw [hnone, hfollows]
    exact Contracts.refl _
  · intro c _ x y hxy
    rw [hnone, block]
    exact ⟨x, y, hxy, ⟨Set.notMem_empty x, .inl rfl⟩, Set.notMem_empty y, .inl rfl⟩
  · intro p e c _ _ he phi _
    rw [hnone] at he
    rw [resolveInput, resolveInput, getInput, getInput, indexOf, indexOf, instr]
    cases he with
    | edge _ => rfl
    | step _ hx _ => exact hx.elim

theorem Drops.shortens (hd : Drops g b g') (h : g.Regular) (hb : g.Empty b) (hcan : g.CanRemove b) : Shortens g g' where
  regular := hd.regular h hb hcan
  blocks c hc := by
    obtain ⟨i, hi⟩ := mem_blocks_iff.mp hc
    rw [hd.bblocks] at hi
    have hne : (g.block b).id ≠ i := by
      rintro rfl
      rw [List.getElem?_set_self', hb.mem] at hi
      cases hi
    rw [List.getElem?_set_ne hne] at hi
    exact mem_blocks_iff.mpr ⟨i, hi⟩
  firstBlock := hd.firstBlock
  lastBlock := hd.lastBlock
  removed c hc := by
    rw [hd.removed h hb, Set.mem_singleton_iff] at hc
    subst hc
    exact ⟨hb.instrs, hb.notFirst⟩
  instrs := hd.instrs_eq h
  phis := hd.phis_eq h
  instr := hd.instr
  contracts := by
    rw [hd.removed h hb]
    exact hd.contracts h hcan
  branches c hc x y hxy := by
    rw [hd.removed h hb] at hc ⊢
    exact hd.branch h hcan hc hxy
  selects p e c hp hc he phi hphi := by
    rw [hd.removed h hb] at hp hc he
    exact hd.select h hcan hp hc he hphi

/-! ## The run of the pass -/

theorem Regular.nodup_blocks (h : g.Regular) : g.blocks.Nodup := by
  rw [blocks, List.Nodup, List.pairwise_filterMap, List.pairwise_iff_getElem]
  intro i j hi hj hlt b hb c hc
  rintro rfl
  have hbi : g.bblocks[i]? = some (some b) := (List.getElem?_eq_getElem hi).trans (congrArg some hb)
  have hbj : g.bblocks[j]? = some (some b) := (List.getElem?_eq_getElem hj).trans (congrArg some hc)
  rw [← (h.numbered i b hbi).1, ← (h.numbered j b hbj).1] at hlt
  exact lt_irrefl _ hlt

/-- Every block of `l` that the callback removes can be removed, from what the callback has left of `g` by then. -/
def EachCanRemove (g : Graph) (l : List Nat) : Prop :=
  ∀ done b rest, l = done ++ b :: rest → ∀ g₁ r, done.foldlM removeCallback (g, false) = some (g₁, r) →
    g₁.isRemovable b = true → g₁.CanRemove b

theorem eachCanRemove_concat {l : List Nat} : EachCanRemove g (l ++ [b]) ↔ EachCanRemove g l ∧
    ∀ g₁ r, l.foldlM removeCallback (g, false) = some (g₁, r) → g₁.isRemovable b = true → g₁.CanRemove b := by
  constructor
  · intro h
    refine ⟨fun done c rest heq => h done c (rest ++ [b]) ?_, h l b [] rfl⟩
    rw [heq, List.append_assoc]
    rfl
  · rintro ⟨hl, hb⟩ done c rest heq
    cases rest using List.reverseRecOn with
    | nil =>
        obtain ⟨rfl, hc⟩ := List.append_inj' heq rfl
        obtain rfl : b = c := List.singleton_inj.mp hc
        exact hb
    | append_singleton rest d =>
        rw [← List.cons_append, ← List.append_assoc] at heq
        exact hl done c rest (List.append_inj' heq rfl).1

theorem removeCallback_skip {r : Bool} (hrem : g.isRemovable b = false) : removeCallback (g, r) b = some (g, r) := by
  rw [removeCallback, removeIfEmpty, if_pos hrem]
  simp

/-- The callback, when the block can be removed if it is. -/
theorem removeCallback_shortens {r : Bool} (h : g.Regular) (hb : b ∈ g.blocks)
    (hcan : g.isRemovable b = true → g.CanRemove b) :
    ∃ g' r', removeCallback (g, r) b = some (g', r') ∧ Shortens g g' ∧ ∀ c ∈ g.blocks, c ≠ b → c ∈ g'.blocks := by
  cases hrem : g.isRemovable b with
  | false => exact ⟨g, r, removeCallback_skip hrem, shortens_of_same h rfl rfl rfl rfl rfl rfl, fun _ hc _ => hc⟩
  | true =>
      obtain ⟨g', hrun, hd⟩ := removeIfEmpty_drops h hb hrem (hcan hrem)
      have he := h.empty hb hrem
      refine ⟨g', r || true, ?_, hd.shortens h he (hcan hrem), fun c hc hcb => ?_⟩
      · rw [removeCallback, hrun]
        rfl
      · by_contra hout
        have hmem : c ∈ Removed g g' := ⟨hc, hout⟩
        rw [hd.removed h he] at hmem
        exact hcb hmem

theorem removeCallback_run {l : List Nat} (h : g.Regular) (hl : l.Nodup) (hsub : l ⊆ g.blocks) (hcan : EachCanRemove g l) :
    ∃ g' r, l.foldlM removeCallback (g, false) = some (g', r) ∧ Shortens g g' ∧ ∀ c ∈ g.blocks, c ∉ l → c ∈ g'.blocks := by
  induction l using List.reverseRecOn with
  | nil => exact ⟨g, false, rfl, shortens_of_same h rfl rfl rfl rfl rfl rfl, fun _ hc _ => hc⟩
  | append_singleton l b ih =>
      obtain ⟨hlcan, hbcan⟩ := eachCanRemove_concat.mp hcan
      obtain ⟨hl, -, hd⟩ := List.nodup_append.mp hl
      obtain ⟨g₁, r₁, hrun, hshort, hleft⟩ := ih hl (fun c hc => hsub (List.mem_append_left _ hc)) hlcan
      have hb : b ∈ g₁.blocks := hleft b (hsub (List.mem_append_right _ (List.mem_singleton_self b)))
        fun hmem => hd b hmem b (List.mem_singleton_self b) rfl
      obtain ⟨g', r', hstep, hshort', hleft'⟩ := removeCallback_shortens (r := r₁) hshort.regular hb (hbcan g₁ r₁ hrun)
      refine ⟨g', r', ?_, hshort.trans hshort', fun c hc hout => ?_⟩
      · rw [List.foldlM_append, hrun]
        simp [hstep]
      · rw [List.mem_append, List.mem_singleton, not_or] at hout
        exact hleft' c (hleft c hc hout.1) hout.2

/-! ## What cannot be removed -/

/-- No block has more successors than before. -/
def FewerSuccs (g g' : Graph) : Prop := ∀ c, (g'.block c).succs.length ≤ (g.block c).succs.length

namespace FewerSuccs

theorem refl (g : Graph) : FewerSuccs g g := fun _ => le_rfl

theorem trans (h₁ : FewerSuccs g g₁) (h₂ : FewerSuccs g₁ g₂) : FewerSuccs g g₂ := fun c => (h₂ c).trans (h₁ c)

theorem modifyBlock {f : BasicBlock → BasicBlock} (h : ∀ x, (f x).succs.length ≤ x.succs.length) :
    FewerSuccs g (g.modifyBlock b f) := by
  intro c
  rw [modifyBlock_block]
  split_ifs with hc
  · rw [hc]
    exact h _
  · exact le_rfl

theorem of_sameEdges (h : SameEdges g g') : FewerSuccs g g' := fun c => (congrArg List.length (h c).1).le

end FewerSuccs

theorem removePredecessor_fewer (h : g.removePredecessor b p = some g') : FewerSuccs g g' := by
  simp only [removePredecessor, Option.bind_eq_bind, ASSERT_bind, Option.pure_def, Option.some.injEq] at h
  obtain ⟨-, rfl⟩ := h
  exact .modifyBlock fun _ => le_rfl

theorem addPredecessor_fewer (h : g.addPredecessor b p = some g') : FewerSuccs g g' := by
  simp only [addPredecessor, Option.bind_eq_bind, ASSERT_bind, Option.pure_def, Option.some.injEq] at h
  obtain ⟨-, rfl⟩ := h
  exact .modifyBlock fun _ => le_rfl

theorem removeSuccessor_fewer (h : g.removeSuccessor b s = some g') : FewerSuccs g g' := by
  simp only [removeSuccessor, Option.bind_eq_bind, ASSERT_bind, Option.pure_def, Option.some.injEq] at h
  obtain ⟨-, rfl⟩ := h
  exact .modifyBlock fun _ => List.length_erase_le

theorem replaceSuccessor_fewer (h : g.replaceSuccessor b c s = some g') : FewerSuccs g g' := by
  simp only [replaceSuccessor, Option.bind_eq_bind, ASSERT_bind, Option.pure_def, Option.some.injEq] at h
  obtain ⟨-, rfl⟩ := h
  exact .modifyBlock fun _ => List.length_replace.le

theorem removeBranch_sameEdges (h : g.removeBranch p = some g') : SameEdges g g' := by
  simp only [removeBranch, Option.bind_eq_bind, Option.bind_eq_some_iff, ASSERT_eq_some, exists_const] at h
  obtain ⟨jcmp, -, -, cmp, -, -, g₁, h₁, h₂⟩ := h
  exact (unlinkInstruction_instrsOnly h₁).sameEdges.trans (unlinkInstruction_instrsOnly h₂).sameEdges

theorem passOnPredecessor_none (h : passOnPredecessor b none g p = some g') :
    FewerSuccs g g' ∧ (g.block p).succs.length ≤ 2 ∧ (g'.block p).succs.length ≤ 1 := by
  simp only [passOnPredecessor, Option.bind_eq_bind, ASSERT_bind] at h
  obtain ⟨⟨-, hlen⟩, h⟩ := h
  obtain ⟨g₁, hsame, hrem⟩ : ∃ g₁, SameEdges g g₁ ∧ g₁.removeSuccessor p b = some g' := by
    split_ifs at h
    · obtain ⟨g₁, hbranch, hrem⟩ := Option.bind_eq_some_iff.mp h
      exact ⟨g₁, removeBranch_sameEdges hbranch, hrem⟩
    · exact ⟨g, .refl g, h⟩
  refine ⟨(FewerSuccs.of_sameEdges hsame).trans (removeSuccessor_fewer hrem), hlen, ?_⟩
  simp only [removeSuccessor, Option.bind_eq_bind, ASSERT_bind, Option.pure_def, Option.some.injEq] at hrem
  obtain ⟨hmem, rfl⟩ := hrem
  rw [modifyBlock_block_self]
  dsimp only
  rw [List.length_erase_of_mem hmem, (hsame p).1]
  omega

theorem passOnPredecessor_some (h : passOnPredecessor b (some s) g p = some g') :
    FewerSuccs g g' ∧ p ∉ (g.block s).preds ∧ (g.block s).preds ⊆ (g'.block s).preds := by
  simp only [passOnPredecessor, Option.bind_eq_bind, ASSERT_bind] at h
  obtain ⟨-, h⟩ := h
  obtain ⟨g₁, hadd, hrep⟩ := Option.bind_eq_some_iff.mp h
  refine ⟨(addPredecessor_fewer hadd).trans (replaceSuccessor_fewer hrep), ?_⟩
  simp only [addPredecessor, Option.bind_eq_bind, ASSERT_bind, Option.pure_def, Option.some.injEq] at hadd
  simp only [replaceSuccessor, Option.bind_eq_bind, ASSERT_bind, Option.pure_def, Option.some.injEq] at hrep
  obtain ⟨hnew, rfl⟩ := hadd
  obtain ⟨-, rfl⟩ := hrep
  refine ⟨hnew, fun q hq => ?_⟩
  rw [modifyBlock_preds (by exact fun _ => rfl), modifyBlock_block_self]
  exact List.mem_append_left _ hq

theorem passOnPredecessor_fewer {o : Option Nat} (h : passOnPredecessor b o g p = some g') : FewerSuccs g g' := by
  cases o with
  | none => exact (passOnPredecessor_none h).1
  | some s => exact (passOnPredecessor_some h).1

/-- What the part before the loop has done. -/
theorem leaveForSuccessor_cases {o : Option Nat} (h : g.leaveForSuccessor b = some (g₁, o)) :
    ((g.block b).succs = [] ∧ o = none ∧ g₁ = g) ∨ ∃ s, (g.block b).succs = [s] ∧ o = some s ∧
      (∀ c, (g₁.block c).succs = (g.block c).succs ∧
        (g₁.block c).preds = if c = s then swapErase (g.block c).preds b else (g.block c).preds) ∧
      ((g.block s).firstPhi ≠ none → (g₁.block b).preds.length = 1) := by
  rw [leaveForSuccessor] at h
  split_ifs at h with hnil
  · cases h
    exact .inl ⟨hnil, rfl, rfl⟩
  · simp only [Option.bind_eq_bind, Option.bind_eq_some_iff, ASSERT_eq_some, exists_const] at h
    obtain ⟨hlen, s, hs, g₀, hrem, h⟩ := h
    obtain ⟨s', hs'⟩ := List.length_eq_one_iff.mp hlen
    rw [hs'] at hs
    obtain rfl : s' = s := Option.some.inj hs
    simp only [removePredecessor, Option.bind_eq_bind, ASSERT_bind, Option.pure_def, Option.some.injEq] at hrem
    obtain ⟨-, rfl⟩ := hrem
    have hedges : ∀ c, ((g.modifyBlock s' fun x => { x with preds := swapErase x.preds b }).block c).succs = (g.block c).succs ∧
        ((g.modifyBlock s' fun x => { x with preds := swapErase x.preds b }).block c).preds =
          if c = s' then swapErase (g.block c).preds b else (g.block c).preds := by
      intro c
      rw [modifyBlock_block]
      split_ifs with hc
      · rw [hc]
        exact ⟨rfl, rfl⟩
      · exact ⟨rfl, rfl⟩
    have hfirst : ((g.modifyBlock s' fun x => { x with preds := swapErase x.preds b }).block s').firstPhi =
        (g.block s').firstPhi := by
      rw [modifyBlock_block_self]
    rw [hfirst] at h
    cases hphi : (g.block s').firstPhi with
    | none =>
        rw [hphi] at h
        cases h
        exact .inr ⟨s', hs', rfl, hedges, fun hne => absurd hphi hne⟩
    | some phi =>
        rw [hphi] at h
        simp only [Option.bind_eq_some_iff, ASSERT_eq_some, exists_const] at h
        obtain ⟨hone, q, -, g₂, hfor, h⟩ := h
        cases h
        have honly := (forPhi_instrsOnly (fun g i g' h => by
          obtain ⟨-, rfl⟩ := replaceSourceBasicBlock_eq_some.mp h
          exact InstrsOnly.modifyInstr g i _) hfor).sameEdges
        refine .inr ⟨s', hs', rfl, fun c => ?_, fun _ => ?_⟩
        · rw [(honly c).1, (honly c).2]
          exact hedges c
        · rw [(honly b).2]
          exact hone

theorem leaveForSuccessor_fewer {o : Option Nat} (h : g.leaveForSuccessor b = some (g₁, o)) : FewerSuccs g g₁ := by
  rcases leaveForSuccessor_cases h with ⟨-, -, rfl⟩ | ⟨s, -, -, hedges, -⟩
  · exact .refl _
  · exact fun c => (congrArg List.length (hedges c).1).le

theorem leaveSuccessor_fewer (h : leaveSuccessor b g c = some g') : FewerSuccs g g' := by
  simp only [leaveSuccessor, Option.bind_eq_bind, Option.bind_eq_some_iff] at h
  obtain ⟨g₁, hfix, hrem⟩ := h
  exact (FewerSuccs.of_sameEdges (fixPHIAfterDisconnect_instrsOnly hfix).sameEdges).trans (removePredecessor_fewer hrem)

theorem unlinkBasicBlock_fewer (h : g.unlinkBasicBlock b = some g') : FewerSuccs g g' := by
  rw [unlinkBasicBlock] at h
  simp only [Option.bind_eq_bind, Option.bind_eq_some_iff] at h
  obtain ⟨g₁, hraw, h⟩ := h
  have hfewer : FewerSuccs g g₁ := fun c => (congrArg List.length (unlinkBasicBlockRaw_block hraw c).1).le
  split_ifs at h
  · simp only [Option.bind_eq_some_iff] at h
    obtain ⟨g₂, hpreds, hsuccs⟩ := h
    simp only [removePredecessors, Option.bind_eq_bind, Option.bind_eq_some_iff, Option.pure_def, Option.some.injEq] at hpreds
    simp only [removeSuccessors, Option.bind_eq_bind, Option.bind_eq_some_iff, Option.pure_def, Option.some.injEq] at hsuccs
    obtain ⟨g₃, hloop, rfl⟩ := hpreds
    obtain ⟨g₄, hloop', rfl⟩ := hsuccs
    have hin : FewerSuccs g₁ g₃ := foldlM_rel .refl .trans (fun _ _ _ _ hs => removeSuccessor_fewer hs) hloop
    have hcleared : FewerSuccs g₃ (g₃.modifyBlock b fun x => { x with preds := [] }) := .modifyBlock fun _ => le_rfl
    have hout : FewerSuccs (g₃.modifyBlock b fun x => { x with preds := [] }) g₄ :=
      foldlM_rel .refl .trans (fun _ _ _ _ hs => leaveSuccessor_fewer hs) hloop'
    exact hfewer.trans (hin.trans (hcleared.trans (hout.trans (.modifyBlock fun _ => Nat.zero_le _))))
  · simp only [ASSERT_bind, Option.pure_def, Option.some.injEq] at h
    obtain ⟨-, -, rfl⟩ := h
    exact hfewer.trans (.modifyBlock fun _ => Nat.zero_le _)

/-- The parts of a step that removes a block. -/
theorem removeIfEmpty_parts {r : Bool} (hrem : g.isRemovable b = true) (h : g.removeIfEmpty b = some (g', r)) :
    ∃ g₁ o g₂, g.leaveForSuccessor b = some (g₁, o) ∧ (g₁.block b).preds.foldlM (passOnPredecessor b o) g₁ = some g₂ ∧
      FewerSuccs g₂ g' := by
  simp only [removeIfEmpty, hrem, Bool.true_eq_false, if_false, Option.bind_eq_bind, Option.bind_eq_some_iff, Option.pure_def,
    Option.some.injEq] at h
  obtain ⟨⟨g₁, o⟩, hleave, g₂, hloop, g₃, hunlink, hout⟩ := h
  cases hout
  exact ⟨g₁, o, g₂, hleave, hloop, .trans (.modifyBlock fun _ => Nat.zero_le _) (unlinkBasicBlock_fewer hunlink)⟩

theorem passOn_fewer {o : Option Nat} {l : List Nat} (h : l.foldlM (passOnPredecessor b o) g = some g') : FewerSuccs g g' :=
  foldlM_rel .refl .trans (fun _ _ _ _ hs => passOnPredecessor_fewer hs) h

theorem removeCallback_fewer {r r' : Bool} (h : removeCallback (g, r) b = some (g', r')) : FewerSuccs g g' := by
  cases hrem : g.isRemovable b with
  | false =>
      rw [removeCallback_skip hrem] at h
      cases h
      exact .refl _
  | true =>
      simp only [removeCallback, Option.bind_eq_bind, Option.bind_eq_some_iff, Option.pure_def, Option.some.injEq] at h
      obtain ⟨⟨g₃, r₃⟩, hrun, hout⟩ := h
      cases hout
      obtain ⟨g₁, o, g₂, hleave, hloop, hfewer⟩ := removeIfEmpty_parts hrem hrun
      exact (leaveForSuccessor_fewer hleave).trans ((passOn_fewer hloop).trans hfewer)

/-- A block that cannot be removed and is removed takes a successor from a branch. -/
theorem removeIfEmpty_cannot {r : Bool} (h : g.Regular) (hb : g.Empty b) (hrem : g.isRemovable b = true)
    (hcan : ¬ g.CanRemove b) (hrun : g.removeIfEmpty b = some (g', r)) :
    ∃ p, (g.block p).succs.length = 2 ∧ (g'.block p).succs.length ≤ 1 := by
  have hg := h.connected
  obtain ⟨g₁, o, g₂, hleave, hloop, hfewer⟩ := removeIfEmpty_parts hrem hrun
  rcases leaveForSuccessor_cases hleave with ⟨hnil, rfl, rfl⟩ | ⟨s, hs, rfl, hedges, hphi⟩
  · have hbranch : ∃ p ∈ (g₁.block b).preds, (g₁.block p).succs ≠ [b] := by
      by_contra hall
      push Not at hall
      exact hcan (.inr ⟨hnil, hall⟩)
    obtain ⟨p, hp, hne⟩ := hbranch
    have hbp : b ∈ (g₁.block p).succs := (hg.edges p b).mpr hp
    have hlen : (g₁.block p).succs.length = 2 := by
      have hle := hg.succs_le p
      by_contra hlen
      exact hne (eq_singleton_of_mem hbp (by omega))
    obtain ⟨l₁, l₂, heq⟩ := List.append_of_mem hp
    rw [heq, List.foldlM_append] at hloop
    simp only [List.foldlM_cons, Option.bind_eq_bind, Option.bind_eq_some_iff] at hloop
    obtain ⟨g₃, -, g₄, hstep, hrest⟩ := hloop
    exact ⟨p, hlen, (hfewer p).trans ((passOn_fewer hrest p).trans (passOnPredecessor_none hstep).2.2)⟩
  · exfalso
    have hphis : g.phis s ≠ [] → (g.block b).preds.length = 1 := by
      intro hne
      obtain ⟨phis, rest, hl⟩ := h.lists.listed s
      have hsb : b ≠ s := by
        rintro rfl
        exact hne hb.phis
      have hone := hphi (by
        rw [hl.firstPhi, ← hl.phis_eq]
        exact fun hhead => hne (List.head?_eq_none_iff.mp hhead))
      rw [(hedges b).2, if_neg hsb] at hone
      exact hone
    have hshare : ∃ p ∈ (g.block b).preds, p ≠ b ∧ p ∈ (g.block s).preds := by
      by_contra hall
      push Not at hall
      exact hcan (.inl ⟨s, hs, hall, hphis⟩)
    obtain ⟨p, hpb, hne, hps⟩ := hshare
    have hkept : ∀ c, p ∈ (g.block c).preds → p ∈ (g₁.block c).preds := by
      intro c hc
      rw [(hedges c).2]
      split_ifs with hcs
      · by_cases hbc : b ∈ (g.block c).preds
        · exact (swapErase_perm hbc).mem_iff.mpr ((List.mem_erase_of_ne hne).mpr hc)
        · rw [hcs, ← hg.edges, hs] at hbc
          exact absurd (List.mem_singleton_self s) hbc
      · exact hc
    obtain ⟨l₁, l₂, heq⟩ := List.append_of_mem (hkept b hpb)
    rw [heq, List.foldlM_append] at hloop
    simp only [List.foldlM_cons, Option.bind_eq_bind, Option.bind_eq_some_iff] at hloop
    obtain ⟨g₃, hfirst, g₄, hstep, -⟩ := hloop
    have hmem : p ∈ (g₃.block s).preds := foldlM_invariant (P := fun k : Graph => p ∈ (k.block s).preds)
      (fun _ _ _ _ hk hs => (passOnPredecessor_some hs).2.2 hk) (hkept s hps) hfirst
    exact (passOnPredecessor_some hstep).2.1 hmem

/-! ## The pass -/

theorem runEmptyBlocksRemoval_shortens (h : g.Regular) (hcan : EachCanRemove g g.blocks) :
    ∃ g' r, g.runEmptyBlocksRemoval = some (g', r) ∧ Shortens g g' := by
  obtain ⟨g₁, r, hrun, hshort, -⟩ := removeCallback_run h h.nodup_blocks (fun _ hc => hc) hcan
  refine ⟨if r then g₁.postRemoval else g₁, r, ?_, ?_⟩
  · rw [runEmptyBlocksRemoval, hrun]
    rfl
  · refine hshort.trans ?_
    cases r with
    | false => exact shortens_of_same hshort.regular rfl rfl rfl rfl rfl rfl
    | true => exact shortens_of_same hshort.regular rfl rfl rfl rfl rfl rfl

/-- The pass stopped, or a branch lost a successor for good. -/
theorem eachCanRemove_of_keepsFlow {r : Bool} (h : g.Regular) (hrun : g.blocks.foldlM removeCallback (g, false) = some (g', r))
    (hremoved : ∀ b ∈ Removed g g', g.instrs b = [])
    (hbranches : ∀ c, c ∉ Removed g g' → (g.block c).succs.length = 2 → (g'.block c).succs.length = 2) :
    ∀ l rest, g.blocks = l ++ rest → EachCanRemove g l := by
  intro l
  induction l using List.reverseRecOn with
  | nil => exact fun rest _ done b l heq => by simp at heq
  | append_singleton l b ih =>
      intro rest heq
      rw [List.append_assoc] at heq
      have hcan := ih _ heq
      refine eachCanRemove_concat.mpr ⟨hcan, fun g₁ r₁ hpart hrem => ?_⟩
      have hnodup := h.nodup_blocks
      rw [heq] at hnodup
      have hb : b ∉ l := fun hmem => List.disjoint_of_nodup_append hnodup hmem List.mem_cons_self
      obtain ⟨g₂, r₂, hpart', hshort, hleft⟩ := removeCallback_run h hnodup.of_append_left
        (fun c hc => by rw [heq]; exact List.mem_append_left _ hc) hcan
      rw [hpart, Option.some.injEq, Prod.mk.injEq] at hpart'
      obtain ⟨rfl, rfl⟩ := hpart'
      by_contra hcannot
      rw [heq, List.foldlM_append, hpart] at hrun
      simp only [Option.bind_eq_bind, Option.bind_some, List.singleton_append, List.foldlM_cons, Option.bind_eq_some_iff] at hrun
      obtain ⟨⟨g₃, r₃⟩, hstep, hrest⟩ := hrun
      have hstep' := hstep
      simp only [removeCallback, Option.bind_eq_bind, Option.bind_eq_some_iff, Option.pure_def, Option.some.injEq] at hstep'
      obtain ⟨⟨g₄, r₄⟩, hone, hout⟩ := hstep'
      cases hout
      have hbb : b ∈ g₁.blocks := hleft b (by simp [heq]) hb
      obtain ⟨p, hlen, hlost⟩ := removeIfEmpty_cannot hshort.regular (hshort.regular.empty hbb hrem) hrem hcannot hone
      have hfewer : ∀ {m s s'}, List.foldlM removeCallback s m = some s' → FewerSuccs s.1 s'.1 := fun hf =>
        foldlM_rel (R := fun s s' : Graph × Bool => FewerSuccs s.1 s'.1) (fun s => .refl s.1) FewerSuccs.trans
          (fun _ _ _ _ hs => removeCallback_fewer hs) hf
      have hbefore : (g.block p).succs.length = 2 :=
        Nat.le_antisymm (h.connected.succs_le p) (hlen ▸ hfewer hpart p)
      have hafter : (g'.block p).succs.length ≤ 1 := (hfewer hrest p).trans hlost
      have hstays : p ∉ Removed g g' := fun hmem => h.branches p hbefore (hremoved p hmem)
      have htwo := hbranches p hstays hbefore
      omega

/-- `EmptyBlocksRemoval` keeps the control flow exactly when every block it removes can be removed. -/
theorem empty_blocks_removal_iff (h : g.Regular) :
    (∃ g' r, g.runEmptyBlocksRemoval = some (g', r) ∧ KeepsFlow g g') ↔ EachCanRemove g g.blocks := by
  constructor
  · rintro ⟨g', r, hrun, hflow⟩
    simp only [runEmptyBlocksRemoval, Option.bind_eq_bind, Option.bind_eq_some_iff, Option.pure_def, Option.some.injEq] at hrun
    obtain ⟨⟨g₁, r₁⟩, hfold, hout⟩ := hrun
    obtain ⟨rfl, rfl⟩ := Prod.mk.inj hout
    have hblock : (if r₁ = true then g₁.postRemoval else g₁).block = g₁.block := by
      cases r₁ <;> rfl
    have hblocks : (if r₁ = true then g₁.postRemoval else g₁).blocks = g₁.blocks := by
      cases r₁ <;> rfl
    refine eachCanRemove_of_keepsFlow h hfold (fun b hb => hflow.removed b ?_) (fun c hc hlen => ?_) _ []
      (List.append_nil _).symm
    · rw [Removed, hblocks]
      exact hb
    · obtain ⟨x, y, hxy⟩ := List.length_eq_two.mp hlen
      obtain ⟨x', y', hxy', -, -⟩ := hflow.branches c (by rw [Removed, hblocks]; exact hc) x y hxy
      rw [← hblock, hxy']
      rfl
  · intro hcan
    obtain ⟨g', r, hrun, hshort⟩ := runEmptyBlocksRemoval_shortens h hcan
    exact ⟨g', r, hrun, hshort.keepsFlow⟩

/-- `if (x < y) { }` -/
def emptyArm : Graph := ofLists
  [{ opcode := .ARG, type := .I32, next := some 1, parent := some 0, users := [2] },
   { opcode := .ARG, type := .I32, prev := some 0, parent := some 0, users := [2] },
   { opcode := .CMP, type := .I32, ccode := .LT, next := some 3, parent := some 1,
     properties := INPUT_SIDE_EFFECTS, inputs := [some 0, some 1] },
   { opcode := .JCMP, type := .I64, prev := some 2, parent := some 1, properties := CF_SIDE_EFFECTS },
   { opcode := .RETVOID, type := .VOID, parent := some 3, properties := CF_SIDE_EFFECTS }]
  [{ id := 0, succs := [1], instrsCount := 2, firstInst := some 0, lastInst := some 1 },
   { id := 1, preds := [0], succs := [2, 3], instrsCount := 2, firstInst := some 2, lastInst := some 3 },
   { id := 2, preds := [1], succs := [3] },
   { id := 3, preds := [1, 2], instrsCount := 1, firstInst := some 4, lastInst := some 4 }] []

/-- `{ } return;` -/
def emptyBody : Graph := ofLists
  [{ opcode := .RETVOID, type := .VOID, parent := some 2, properties := CF_SIDE_EFFECTS }]
  [{ id := 0, succs := [1] },
   { id := 1, preds := [0], succs := [2] },
   { id := 2, preds := [1], instrsCount := 1, firstInst := some 0, lastInst := some 0 }] []

theorem Regular.ofLists {instrs : List Instruction} {blocks : List BasicBlock}
    (hlists : (Graph.ofLists instrs blocks []).Lists) (hconn : (Graph.ofLists instrs blocks []).Connected)
    (hphis : ∀ x ∈ blocks, x.firstPhi = none)
    (hbranches : ∀ b < blocks.length, ((Graph.ofLists instrs blocks []).block b).succs.length = 2 →
      (Graph.ofLists instrs blocks []).instrs b ≠ [])
    (hnum : ∀ b < blocks.length, ((Graph.ofLists instrs blocks []).block b).id = b ∧
      ((Graph.ofLists instrs blocks []).block b).inGraph = true) : (Graph.ofLists instrs blocks []).Regular where
  lists := hlists
  connected := hconn
  inStep b := by
    obtain ⟨phis, rest, hl⟩ := hlists.listed b
    have hfirst : ((Graph.ofLists instrs blocks []).block b).firstPhi = none := by
      rcases Nat.lt_or_ge b blocks.length with hb | hb
      · have hblock : (Graph.ofLists instrs blocks []).block b = blocks[b] := List.getD_eq_getElem _ _ hb
        rw [hblock]
        exact hphis _ (List.getElem_mem hb)
      · rw [ofLists_block_ge hb]
    have hnil : phis = [] := by
      rw [← List.head?_eq_none_iff, ← hl.firstPhi]
      exact hfirst
    rw [hl.phis_eq, hnil]
    exact ⟨List.forall_mem_nil _, List.forall_mem_nil _⟩
  branches b hlen := by
    rcases Nat.lt_or_ge b blocks.length with hb | hb
    · exact hbranches b hb hlen
    · rw [ofLists_block_ge hb] at hlen
      cases hlen
  numbered i b hi := by
    have hmap : ((List.range blocks.length).map some)[i]? = some (some b) := hi
    rw [List.getElem?_map, Option.map_eq_some_iff] at hmap
    obtain ⟨j, hj, hjb⟩ := hmap
    obtain rfl := Option.some.inj hjb
    obtain ⟨hlt, hij⟩ := List.getElem?_eq_some_iff.mp hj
    rw [List.getElem_range] at hij
    rw [List.length_range] at hlt
    subst hij
    exact hnum i hlt

theorem emptyArm_regular : emptyArm.Regular :=
  .ofLists (Lists.ofLists (fun b => ([], if b = 0 then [0, 1] else if b = 1 then [2, 3] else if b = 3 then [4] else []))
    (by decide) (by decide)) (.ofLists (by decide) (by decide) (by decide)) (by decide) (by decide) (by decide)

theorem emptyBody_regular : emptyBody.Regular :=
  .ofLists (Lists.ofLists (fun b => ([], if b = 2 then [0] else [])) (by decide) (by decide))
    (.ofLists (by decide) (by decide) (by decide)) (by decide) (by decide) (by decide)

theorem empty_blocks_removal_iff_body :
    ∃ g' r, emptyBody.runEmptyBlocksRemoval = some (g', r) ∧ KeepsFlow emptyBody g' := by
  refine (empty_blocks_removal_iff emptyBody_regular).mpr ?_
  have hcan : emptyBody.CanRemove 1 := .inl ⟨2, by decide, by decide, fun h => absurd (by decide) h⟩
  have hblocks : emptyBody.blocks = [] ++ [0] ++ [1] ++ [2] := rfl
  have hlast : (List.foldlM removeCallback (emptyBody, false) ([] ++ [0] ++ [1])).map (fun s => s.1.isRemovable 2) = some false := by
    decide
  rw [hblocks, eachCanRemove_concat, eachCanRemove_concat, eachCanRemove_concat]
  refine ⟨⟨⟨fun done b l heq => by simp at heq, fun g₁ r hrun hrem => ?_⟩, fun g₁ r hrun _ => ?_⟩, fun g₁ r hrun hrem => ?_⟩
  · cases hrun
    cases hrem
  · obtain rfl : emptyBody = g₁ := congrArg Prod.fst (Option.some.inj hrun)
    exact hcan
  · rw [hrun] at hlast
    rw [Option.map_some, Option.some.injEq] at hlast
    rw [hlast] at hrem
    cases hrem

/-- The block before the empty arm would be a predecessor of the join twice. -/
theorem emptyArm_wrong : emptyArm.Regular ∧
    ¬ ∃ g' r, emptyArm.runEmptyBlocksRemoval = some (g', r) ∧ KeepsFlow emptyArm g' := by
  refine ⟨emptyArm_regular, ?_⟩
  rintro ⟨g', r, hrun, -⟩
  have hnone : emptyArm.runEmptyBlocksRemoval.isSome = false := by decide
  rw [hrun] at hnone
  cases hnone

end CompilerLab.Jit.Graph
