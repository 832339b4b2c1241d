import CompilerLab.Jit.Lemmas.CriticalEdge
import CompilerLab.Lib.ParallelMove

/-!
# The moves that resolve phis

The state of `fixPhis` is described by the moves made so far, one for a phi and a predecessor, and the blocks put on
critical edges. Each step of the pass adds to them and keeps the description true.
-/

namespace CompilerLab.Jit.LinearScan

open CompilerLab.Lib CompilerLab.Jit.Graph

/-! ## Graphs whose phis can be resolved -/

/-- References stay in bounds, edges are recorded at both ends, and every phi has one input with a location for each
predecessor and is registered with it. -/
structure Resolvable (g : Graph) (loc : Nat → Option ValueLocation) : Prop where
  layout : ∀ b ∈ g.blocks, g.Layout b (g.phis b) (g.insts b)
  blocks_lt : ∀ b ∈ g.blocks, b < g.blockCount
  blocks_nodup : g.blocks.Nodup
  preds : ∀ b ∈ g.blocks, ∀ p ∈ (g.block b).preds, p ∈ g.blocks ∧ b ∈ (g.block p).succs
  succs : ∀ p ∈ g.blocks, ∀ b ∈ (g.block p).succs, b ∈ g.blocks ∧ p ∈ (g.block b).preds
  preds_nodup : ∀ b ∈ g.blocks, (g.block b).preds.Nodup
  succs_nodup : ∀ b ∈ g.blocks, (g.block b).succs.Nodup
  loop : ∀ b ∈ g.blocks, (g.block b).loop.isSome
  loops : ∀ l, ∀ c ∈ (g.loop l).basicBlocks, c < g.blockCount
  sources : ∀ b ∈ g.blocks, ∀ phi ∈ g.phis b, (g.instr phi).sourceBBlocks.Perm (g.block b).preds
  inputs : ∀ b ∈ g.blocks, ∀ phi ∈ g.phis b, (g.instr phi).inputs.length = (g.instr phi).sourceBBlocks.length
  input : ∀ b ∈ g.blocks, ∀ phi ∈ g.phis b, ∀ x ∈ (g.instr phi).inputs,
    ∃ i, x = some i ∧ i < g.instrCount ∧ (loc i).isSome
  location : ∀ b ∈ g.blocks, ∀ phi ∈ g.phis b, (loc phi).isSome
  users : ∀ b ∈ g.blocks, ∀ phi ∈ g.phis b, ∀ i,
    (g.instr phi).inputs.count (some i) ≤ (g.instr i).users.count phi

/-- The moves made so far: the one for a phi on the edge from a predecessor, and the new block on an edge to a block
from a predecessor. -/
structure Moves where
  move : Nat → Nat → Option Nat := fun _ _ => none
  via : Nat → Nat → Option Nat := fun _ _ => none

namespace Moves

variable (m : Moves) (g : Graph)

/-- The moves on the edge from `p` to `b`, in the order of the phis. -/
def code (b p : Nat) : List Nat := (g.phis b).filterMap fun phi => m.move phi p

/-- The moves at the end of block `p`. -/
def tail (p : Nat) : List Nat := (g.block p).succs.flatMap fun b => if (m.via b p).isSome then [] else m.code g b p

/-- Where the edge from `p` to `b` leads first. -/
def head (b p : Nat) : Nat := (m.via b p).getD b

/-- Where the edge from `p` to `b` comes from last. -/
def last (b p : Nat) : Nat := (m.via b p).getD p

def addMove (phi p i : Nat) : Moves :=
  { m with move := fun phi' p' => if phi' = phi ∧ p' = p then some i else m.move phi' p' }

def addVia (b p n : Nat) : Moves :=
  { m with via := fun b' p' => if b' = b ∧ p' = p then some n else m.via b' p' }

variable {m g} {b c p i n phi : Nat} {done l : List Nat}

theorem code_addVia : (m.addVia b p n).code g c = m.code g c := rfl

theorem code_addMove (heq : g.phis b = done ++ phi :: l) (hnodup : (g.phis b).Nodup)
    (hnone : ∀ phi' ∈ phi :: l, m.move phi' p = none) :
    (m.addMove phi p i).code g b p = m.code g b p ++ [i] := by
  have other (phi' : Nat) (h : phi' ≠ phi) : (m.addMove phi p i).move phi' p = m.move phi' p := by
    simp [addMove, h]
  rw [heq] at hnodup
  have hdone : ∀ phi' ∈ done, phi' ≠ phi := fun phi' h heq' =>
    List.disjoint_of_nodup_append hnodup h (heq' ▸ List.mem_cons_self)
  have hl : ∀ phi' ∈ l, phi' ≠ phi := fun phi' h heq' =>
    (List.nodup_cons.1 hnodup.of_append_right).1 (heq' ▸ h)
  have done_eq : done.filterMap (fun phi' => (m.addMove phi p i).move phi' p) =
      done.filterMap fun phi' => m.move phi' p :=
    List.filterMap_congr fun phi' h => other phi' (hdone phi' h)
  have l_eq : l.filterMap (fun phi' => (m.addMove phi p i).move phi' p) = [] :=
    List.filterMap_eq_nil_iff.2 fun phi' h => (other phi' (hl phi' h)).trans (hnone phi' (List.mem_cons_of_mem _ h))
  have l_eq' : l.filterMap (fun phi' => m.move phi' p) = [] :=
    List.filterMap_eq_nil_iff.2 fun phi' h => hnone phi' (List.mem_cons_of_mem _ h)
  have this : (m.addMove phi p i).move phi p = some i := by simp [addMove]
  simp only [code, heq, List.filterMap_append, List.filterMap_cons, this, hnone phi List.mem_cons_self, done_eq, l_eq,
    l_eq', List.append_nil]

theorem code_addMove_of_ne {q : Nat} (h : phi ∉ g.phis c ∨ q ≠ p) :
    (m.addMove phi p i).code g c q = m.code g c q := by
  refine List.filterMap_congr fun phi' hphi' => ?_
  simp only [addMove]
  rw [if_neg]
  rintro ⟨rfl, rfl⟩
  exact h.elim (fun h => h hphi') fun h => h rfl

theorem tail_addVia (hcode : m.code g b p = []) : (m.addVia b p n).tail g c = m.tail g c := by
  refine List.flatMap_congr fun d hd => ?_
  rw [code_addVia]
  by_cases h : d = b ∧ c = p
  · obtain ⟨rfl, rfl⟩ := h
    simp [addVia, hcode]
  · simp [addVia, h]

theorem tail_addMove_of_ne
    (h : ∀ d ∈ (g.block c).succs, (m.via d c).isSome ∨ phi ∉ g.phis d ∨ c ≠ p) :
    (m.addMove phi p i).tail g c = m.tail g c := by
  refine List.flatMap_congr fun d hd => ?_
  have via : (m.addMove phi p i).via = m.via := rfl
  rw [via]
  rcases h d hd with hv | hne
  · rw [if_pos hv, if_pos hv]
  · rw [code_addMove_of_ne hne]

end Moves

/-! ## The invariant -/

/-- The state after the moves `m` have been made for the graph `g`. -/
structure Resolved (g : Graph) (loc : Nat → Option ValueLocation) (m : Moves) (s : PhiState) : Prop where
  instrCount : g.instrCount ≤ s.graph.instrCount
  blockCount : g.blockCount ≤ s.graph.blockCount
  layout : ∀ c ∈ g.blocks, s.graph.Layout c (g.phis c) (g.insts c ++ m.tail g c)
  via_block : ∀ b p n, m.via b p = some n → b ∈ g.blocks
  via : ∀ b p n, m.via b p = some n → g.blockCount ≤ n ∧ n < s.graph.blockCount ∧
    s.graph.Layout n [] (m.code g b p) ∧ (s.graph.block n).succs = [b] ∧ (s.graph.block n).preds = [p]
  succs : ∀ c ∈ g.blocks, (s.graph.block c).succs = (g.block c).succs.map fun b => m.head b c
  preds : ∀ c ∈ g.blocks, (s.graph.block c).preds = (g.block c).preds.map fun p => m.last c p
  loop : ∀ c ∈ g.blocks, (s.graph.block c).loop = (g.block c).loop
  loops : ∀ l, ∀ c ∈ (s.graph.loop l).basicBlocks, c < s.graph.blockCount
  sources : ∀ b ∈ g.blocks, ∀ phi ∈ g.phis b,
    (s.graph.instr phi).sourceBBlocks = (g.instr phi).sourceBBlocks.map (m.last b)
  inputs_length : ∀ b ∈ g.blocks, ∀ phi ∈ g.phis b,
    (s.graph.instr phi).inputs.length = (g.instr phi).inputs.length
  input : ∀ b ∈ g.blocks, ∀ phi ∈ g.phis b, ∀ p ∈ (g.block b).preds,
    s.graph.getInput phi (g.indexOf phi p) = (m.move phi p <|> g.resolveInput phi p)
  move : ∀ phi p i, m.move phi p = some i → g.instrCount ≤ i ∧ i < s.graph.instrCount ∧
    (s.graph.instr i).opcode = .MOVE ∧ s.graph.getInput i 0 = g.resolveInput phi p ∧ s.location i = loc phi
  opcode : ∀ i < g.instrCount, (s.graph.instr i).opcode = (g.instr i).opcode
  location : ∀ i < g.instrCount, s.location i = loc i
  users : ∀ b ∈ g.blocks, ∀ phi ∈ g.phis b, ∀ i, some i ∈ (s.graph.instr phi).inputs → i < s.graph.instrCount ∧
    (s.graph.instr phi).inputs.count (some i) ≤ (s.graph.instr i).users.count phi

namespace Resolved

variable {g : Graph} {loc : Nat → Option ValueLocation} {m : Moves} {s : PhiState} {b p i phi input : Nat}

theorem start (h : Resolvable g loc) : Resolved g loc {} { graph := g, location := loc } where
  instrCount := le_rfl
  blockCount := le_rfl
  layout c hc := by
    have : Moves.tail {} g c = [] := by simp [Moves.tail, Moves.code]
    rw [this, List.append_nil]
    exact h.layout c hc
  via_block b p n hv := by cases hv
  via b p n hv := by cases hv
  succs c hc := by simp [Moves.head]
  preds c hc := by simp [Moves.last]
  loop c hc := rfl
  loops := h.loops
  sources b hb phi hphi := (List.map_id _).symm
  inputs_length b hb phi hphi := rfl
  input b hb phi hphi p hp := by simp [resolveInput]
  move phi p i hm := by cases hm
  opcode i hi := rfl
  location i hi := rfl
  users b hb phi hphi i hi := by
    obtain ⟨j, hj, hlt, -⟩ := h.input b hb phi hphi _ hi
    cases hj
    exact ⟨hlt, h.users b hb phi hphi i⟩

theorem createMOVE_instr (hi : input < g.instrCount) (j : Nat) : (g.createMOVE input).1.instr j =
    if j = g.instrCount then
      { opcode := .MOVE, type := (g.instr input).type, properties := .INPUT, inputs := [some input] }
    else if j = input then { g.instr j with users := (g.instr j).users ++ [g.instrCount] }
    else g.instr j := by
  simp only [Graph.createMOVE, createInst, List.foldl_cons, List.foldl_nil, addUserOf, addUser, modifyInstr_instr,
    Function.update_apply]
  split_ifs <;> simp_all

/-- Making a move changes the users of its input only. -/
theorem createMOVE (h : Resolved g loc m s) (hg : Resolvable g loc) (hi : input < s.graph.instrCount) :
    Resolved g loc m { s with graph := (s.graph.createMOVE input).1 } := by
  have instr := createMOVE_instr hi
  have old j (hj : j < s.graph.instrCount) : ∃ us, (s.graph.createMOVE input).1.instr j =
      { s.graph.instr j with users := (s.graph.instr j).users ++ us } := by
    rw [instr, if_neg hj.ne]
    split
    · exact ⟨_, rfl⟩
    · exact ⟨[], by simp⟩
  have layout {c phis rest} (h : s.graph.Layout c phis rest) : (s.graph.createMOVE input).1.Layout c phis rest := by
    refine h.congr ⟨rfl, rfl, rfl, rfl⟩ (fun j hj => ?_) (Nat.le_succ _)
    obtain ⟨us, hus⟩ := old j (h.lt j hj)
    rw [hus]
    exact ⟨rfl, rfl, rfl, rfl⟩
  have phi_lt b (hb : b ∈ g.blocks) phi (hphi : phi ∈ g.phis b) : phi < s.graph.instrCount :=
    ((hg.layout b hb).lt phi (List.mem_append_left _ hphi)).trans_le h.instrCount
  exact
    { instrCount := h.instrCount.trans (Nat.le_succ _)
      blockCount := h.blockCount
      layout := fun c hc => layout (h.layout c hc)
      via_block := h.via_block
      via := fun b p n hv => by
        obtain ⟨h₁, h₂, h₃, h₄⟩ := h.via b p n hv
        exact ⟨h₁, h₂, layout h₃, h₄⟩
      succs := h.succs
      preds := h.preds
      loop := h.loop
      loops := h.loops
      sources := fun b hb phi hphi => by
        obtain ⟨us, hus⟩ := old phi (phi_lt b hb phi hphi)
        rw [hus]
        exact h.sources b hb phi hphi
      inputs_length := fun b hb phi hphi => by
        obtain ⟨us, hus⟩ := old phi (phi_lt b hb phi hphi)
        rw [hus]
        exact h.inputs_length b hb phi hphi
      input := fun b hb phi hphi p hp => by
        obtain ⟨us, hus⟩ := old phi (phi_lt b hb phi hphi)
        rw [getInput, hus]
        exact h.input b hb phi hphi p hp
      move := fun phi p i hm => by
        obtain ⟨h₁, h₂, h₃, h₄, h₅⟩ := h.move phi p i hm
        obtain ⟨us, hus⟩ := old i h₂
        refine ⟨h₁, Nat.lt_succ_of_lt h₂, ?_, ?_, h₅⟩
        · rw [hus]
          exact h₃
        · rw [getInput, hus]
          exact h₄
      opcode := fun i hi => by
        obtain ⟨us, hus⟩ := old i (hi.trans_le h.instrCount)
        rw [hus]
        exact h.opcode i hi
      location := h.location
      users := fun b hb phi hphi i hi => by
        obtain ⟨us, hus⟩ := old phi (phi_lt b hb phi hphi)
        rw [hus] at hi ⊢
        obtain ⟨hlt, hc⟩ := h.users b hb phi hphi i hi
        obtain ⟨us', hus'⟩ := old i hlt
        refine ⟨Nat.lt_succ_of_lt hlt, ?_⟩
        rw [hus', List.count_append]
        exact hc.trans (Nat.le_add_right _ _) }

theorem blocks_lt (h : Resolved g loc m s) (hg : Resolvable g loc) (hb : b ∈ g.blocks) : b < s.graph.blockCount :=
  (hg.blocks_lt b hb).trans_le h.blockCount

/-- Breaking a critical edge for its first move. -/
theorem breakCriticalEdge (h : Resolved g loc m s) (hg : Resolvable g loc) (hb : b ∈ g.blocks)
    (hp : p ∈ (g.block b).preds) (hphis : g.phis b ≠ []) (hlen : 1 < (g.block b).preds.length)
    (hvia : m.via b p = none) (hmove : ∀ phi ∈ g.phis b, m.move phi p = none) :
    ∃ g', breakCriticalEdge s.graph b p = some (g', s.graph.blockCount) ∧
      (∀ j, ∃ sources, g'.instr j = { s.graph.instr j with sourceBBlocks := sources }) ∧
      g'.instrCount = s.graph.instrCount ∧
      Resolved g loc (m.addVia b p s.graph.blockCount)
        { s with graph := g', insertInto := some s.graph.blockCount, insertedNew := true } := by
  obtain ⟨hpb, hbp⟩ := hg.preds b hb p hp
  have hb' := h.blocks_lt hg hb
  have hp' := h.blocks_lt hg hpb
  have hlast : m.last b p = p := by rw [Moves.last, hvia, Option.getD_none]
  have hhead : m.head b p = b := by rw [Moves.head, hvia, Option.getD_none]
  have hcode : m.code g b p = [] := List.filterMap_eq_nil_iff.2 fun phi hphi => hmove phi hphi
  -- an edge is on its way to `b`, or from `p`, only before it is broken
  have last_ne q (hq : q ∈ (g.block b).preds) (hne : q ≠ p) : m.last b q ≠ p := by
    rw [Moves.last]
    cases hv : m.via b q with
    | none => exact hne
    | some n =>
        have := (h.via b q n hv).1
        have := hg.blocks_lt p hpb
        simp only [Option.getD_some]
        omega
  have head_ne c (hc : c ∈ (g.block p).succs) (hne : c ≠ b) : m.head c p ≠ b := by
    rw [Moves.head]
    cases hv : m.via c p with
    | none => exact hne
    | some n =>
        have := (h.via c p n hv).1
        have := hg.blocks_lt b hb
        simp only [Option.getD_some]
        omega
  obtain ⟨l, hl⟩ := Option.isSome_iff_exists.1 (hg.loop p hpb)
  obtain ⟨g', heq, hbreak⟩ := breakCriticalEdge_eq (h.layout b hb) hphis hb' hp'
    (by rw [h.preds b hb]; exact List.mem_map.2 ⟨p, hp, hlast⟩)
    (by rw [h.succs p hpb]; exact List.mem_map.2 ⟨b, hbp, hhead⟩)
    (by rw [h.preds b hb, List.length_map]; exact hlen) ((h.loop p hpb).trans hl)
    (fun hmem => (h.loops l _ hmem).false)
    (fun phi hphi => by
      rw [h.sources b hb phi hphi]
      exact List.mem_map.2 ⟨p, (hg.sources b hb phi hphi).mem_iff.2 hp, hlast⟩)
  have layout {c phis rest} (hc : c ≠ s.graph.blockCount) (h : s.graph.Layout c phis rest) :
      g'.Layout c phis rest := by
    obtain ⟨h₁, h₂, h₃, h₄, -⟩ := hbreak.ends c hc
    refine h.congr ⟨h₁, h₂, h₃, h₄⟩ (fun j hj => ?_) hbreak.instrCount.ge
    rw [hbreak.instr]
    split <;> exact ⟨rfl, rfl, rfl, rfl⟩
  have inputs j : (g'.instr j).inputs = (s.graph.instr j).inputs ∧ (g'.instr j).users = (s.graph.instr j).users := by
    rw [hbreak.instr]
    split <;> exact ⟨rfl, rfl⟩
  have opcode j : (g'.instr j).opcode = (s.graph.instr j).opcode := by
    rw [hbreak.instr]
    split <;> rfl
  refine ⟨g', heq, fun j => ?_, hbreak.instrCount, ?_⟩
  · rw [hbreak.instr]
    split
    · exact ⟨_, rfl⟩
    · exact ⟨_, rfl⟩
  exact
    { instrCount := h.instrCount.trans hbreak.instrCount.ge
      blockCount := h.blockCount.trans (hbreak.blockCount ▸ Nat.le_succ _)
      layout := fun c hc => by
        rw [Moves.tail_addVia hcode]
        exact layout (h.blocks_lt hg hc).ne (h.layout c hc)
      via_block := fun b' p' n hv => by
        simp only [Moves.addVia] at hv
        split at hv
        · next heq => exact heq.1 ▸ hb
        · exact h.via_block b' p' n hv
      via := fun b' p' n hv => by
        simp only [Moves.addVia] at hv
        split at hv
        · next heq =>
            obtain ⟨rfl, rfl⟩ := heq
            cases hv
            refine ⟨h.blockCount, hbreak.blockCount ▸ Nat.lt_succ_self _, ?_, hbreak.new_succs, hbreak.new_preds⟩
            obtain ⟨h₁, h₂, h₃, h₄⟩ := hbreak.new_ends
            rw [Moves.code_addVia, hcode]
            exact ⟨h₁, h₂, h₃, h₄, .nil, by simp, by simp, by simp, by simp⟩
        · obtain ⟨h₁, h₂, h₃, h₄, h₅⟩ := h.via b' p' n hv
          have hnb := hg.blocks_lt b hb
          have hnp := hg.blocks_lt p hpb
          refine ⟨h₁, hbreak.blockCount ▸ Nat.lt_succ_of_lt h₂, layout h₂.ne h₃, ?_, ?_⟩
          · rw [hbreak.succs n h₂.ne, if_neg (by omega), h₄]
          · rw [hbreak.preds n h₂.ne, if_neg (by omega), h₅]
      succs := fun c hc => by
        rw [hbreak.succs c (h.blocks_lt hg hc).ne]
        split
        · next hcp =>
            subst c
            rw [h.succs p hc, map_replace (hg.succs_nodup p hc) hbp head_ne hhead]
            refine List.map_congr_left fun d hd => ?_
            simp only [Moves.head, Moves.addVia]
            split <;> simp_all
        · next hcp =>
            rw [h.succs c hc]
            refine List.map_congr_left fun d hd => ?_
            simp [Moves.head, Moves.addVia, hcp]
      preds := fun c hc => by
        rw [hbreak.preds c (h.blocks_lt hg hc).ne]
        split
        · next hcb =>
            subst c
            rw [h.preds b hc, map_replace (hg.preds_nodup b hc) hp last_ne hlast]
            refine List.map_congr_left fun d hd => ?_
            simp only [Moves.last, Moves.addVia]
            split <;> simp_all
        · next hcb =>
            rw [h.preds c hc]
            refine List.map_congr_left fun d hd => ?_
            simp [Moves.last, Moves.addVia, hcb]
      loop := fun c hc => (hbreak.ends c (h.blocks_lt hg hc).ne).2.2.2.2.trans (h.loop c hc)
      loops := fun l c hc => by
        rw [hbreak.blockCount]
        rcases hbreak.loops l c hc with hc | rfl
        · exact Nat.lt_succ_of_lt (h.loops l c hc)
        · exact Nat.lt_succ_self _
      sources := fun b' hb' phi hphi => by
        rw [hbreak.instr]
        split
        · next hmem =>
            have : b' = b := by
              by_contra hne
              exact (hg.layout b' hb').disjoint (hg.layout b hb) hne (List.mem_append_left _ hphi)
                (List.mem_append_left _ hmem)
            subst b'
            have perm := hg.sources b hb phi hphi
            simp only [h.sources b hb phi hphi]
            rw [map_replace (perm.nodup_iff.2 (hg.preds_nodup b hb)) (perm.mem_iff.2 hp)
              (fun q hq => last_ne q (perm.mem_iff.1 hq)) hlast]
            refine List.map_congr_left fun d hd => ?_
            simp only [Moves.last, Moves.addVia]
            split <;> simp_all
        · next hmem =>
            have : b' ≠ b := by rintro rfl; exact hmem hphi
            rw [h.sources b' hb' phi hphi]
            refine List.map_congr_left fun d hd => ?_
            simp [Moves.last, Moves.addVia, this]
      inputs_length := fun b hb phi hphi => by
        rw [(inputs phi).1]
        exact h.inputs_length b hb phi hphi
      input := fun b hb phi hphi p hp => by
        rw [getInput, (inputs phi).1]
        exact h.input b hb phi hphi p hp
      move := fun phi p i hm => by
        obtain ⟨h₁, h₂, h₃, h₄, h₅⟩ := h.move phi p i hm
        refine ⟨h₁, h₂.trans_le hbreak.instrCount.ge, (opcode i).trans h₃, ?_, h₅⟩
        rw [getInput, (inputs i).1]
        exact h₄
      opcode := fun i hi => (opcode i).trans (h.opcode i hi)
      location := h.location
      users := fun b hb phi hphi i hi => by
        rw [(inputs phi).1] at hi ⊢
        rw [(inputs i).2, hbreak.instrCount]
        exact h.users b hb phi hphi i hi }

/-- What putting the move `i` for a phi into block `t` changes. -/
structure PutsMove (g : Graph) (t phi input i idx : Nat) (g₁ g' : Graph) : Prop where
  block : g'.block = g₁.block
  loop : g'.loop = g₁.loop
  counts : g'.instrCount = g₁.instrCount ∧ g'.blockCount = g₁.blockCount
  links : ∀ j, (g'.instr j).next = (g₁.instr j).next ∧ (g'.instr j).prev = (g₁.instr j).prev ∧
    (g'.instr j).parent = (g₁.instr j).parent ∧ (g'.instr j).opcode = (g₁.instr j).opcode
  sources : ∀ j, (g'.instr j).sourceBBlocks = (g.instr j).sourceBBlocks
  inputs : ∀ j, (g'.instr j).inputs =
    if j = phi then (g.instr phi).inputs.set idx (some i) else (g.instr j).inputs
  users : ∀ j x, (g'.instr j).users.count x + (if j = input ∧ phi = x then 1 else 0) =
    (g.instr j).users.count x + (if j = i ∧ phi = x then 1 else 0)

theorem putsMove {g g₁ : Graph} {t phi input i idx : Nat} (hframe : Layout.Frame g t i g₁)
    (hidx : idx < (g.instr phi).inputs.length) (huser : phi ∈ (g.instr input).users) (hne : input ≠ i) :
    ∃ g₂ g₃, g₁.setInput phi (some i) idx = some g₂ ∧ g₂.removeUser input phi = some g₃ ∧
      PutsMove g t phi input i idx g₁ g₃ := by
  have same j : (g₁.instr j).inputs = (g.instr j).inputs ∧ (g₁.instr j).users = (g.instr j).users ∧
      (g₁.instr j).sourceBBlocks = (g.instr j).sourceBBlocks := by
    obtain ⟨_, _, _, heq⟩ := hframe.links j
    rw [heq]
    exact ⟨rfl, rfl, rfl⟩
  let g₂ := (g₁.modifyInstr phi fun x => { x with inputs := x.inputs.set idx (some i) }).addUser i phi
  have inputs₂ j : (g₂.instr j).inputs =
      if j = phi then (g.instr phi).inputs.set idx (some i) else (g.instr j).inputs := by
    simp only [g₂, addUser, modifyInstr_instr]
    split_ifs <;> simp_all
  have users₂ j : (g₂.instr j).users = if j = i then (g.instr i).users ++ [phi] else (g.instr j).users := by
    simp only [g₂, addUser, modifyInstr_instr]
    split_ifs <;> simp_all
  have huser₂ : phi ∈ (g₂.instr input).users := by rw [users₂, if_neg hne]; exact huser
  refine ⟨g₂, _, setInput_eq_some.2 ⟨by rwa [(same phi).1], rfl⟩, removeUser_eq_some.2 ⟨huser₂, rfl⟩, ?_⟩
  constructor
  · rfl
  · rfl
  · exact ⟨rfl, rfl⟩
  · intro j
    simp only [g₂, addUser, modifyInstr_instr]
    split_ifs <;> simp_all
  · intro j
    simp only [g₂, addUser, modifyInstr_instr]
    split_ifs <;> simp_all
  · intro j
    rw [← inputs₂, modifyInstr_instr]
    split_ifs <;> simp_all
  · intro j x
    rw [modifyInstr_instr]
    by_cases hj : j = input
    · subst hj
      have := count_swapErase huser₂ x
      simp only [users₂, if_neg hne] at this
      simp only [if_true, users₂, hne, true_and, false_and, if_false, ← this, Nat.add_zero]
    · by_cases hji : j = i
      · subst hji
        simp [hj, users₂, List.count_append, List.count_singleton]
      · simp [hj, hji, users₂]

/-- The block the moves of an edge go to. -/
def IsTarget (g : Graph) (m : Moves) (b p t : Nat) : Prop :=
  m.via b p = some t ∨ m.via b p = none ∧ t = p ∧ (g.block p).succs = [b]

variable {done l : List Nat} {t : Nat}

theorem layout_target (h : Resolved g loc m s) (hp : p ∈ g.blocks) (ht : IsTarget g m b p t) :
    ∃ phis rest, s.graph.Layout t phis rest := by
  rcases ht with hv | ⟨-, rfl, -⟩
  · exact ⟨_, _, (h.via b p t hv).2.2.1⟩
  · exact ⟨_, _, h.layout t hp⟩

/-- The instruction lists after the move `i` for `phi` has been pushed to the target of its edge. -/
theorem layouts_pushed (h : Resolved g loc m s) (hg : Resolvable g loc) (hb : b ∈ g.blocks)
    (hp : p ∈ (g.block b).preds) (heq : g.phis b = done ++ phi :: l)
    (hnone : ∀ phi' ∈ phi :: l, m.move phi' p = none) (ht : IsTarget g m b p t) {g₁ : Graph}
    (hi : (s.graph.instr i).parent = none)
    (hlay : ∀ phis rest, s.graph.Layout t phis rest → g₁.Layout t phis (rest ++ [i]))
    (hframe : Layout.Frame s.graph t i g₁) :
    (∀ c ∈ g.blocks, g₁.Layout c (g.phis c) (g.insts c ++ (m.addMove phi p i).tail g c)) ∧
      ∀ b' p' n, m.via b' p' = some n → g₁.Layout n [] ((m.addMove phi p i).code g b' p') := by
  have hphi : phi ∈ g.phis b := by simp [heq]
  have hcode := Moves.code_addMove (i := i) heq (hg.layout b hb).nodup.of_append_left hnone
  have other {c phis rest} (hc : c ≠ t) (h : s.graph.Layout c phis rest) : g₁.Layout c phis rest := by
    refine h.congr_of_eq (hframe.block c hc) (fun j hj => hframe.instr j ?_ ?_) hframe.instrCount.ge
    · rintro rfl
      simp [h.parent j hj] at hi
    · rw [h.parent j hj]
      simpa using hc
  have phi_ne {c} (hc : c ∈ g.blocks) (hne : c ≠ b) : phi ∉ g.phis c := fun hmem =>
    (hg.layout c hc).disjoint (hg.layout b hb) hne (List.mem_append_left _ hmem) (List.mem_append_left _ hphi)
  have code_ne {c q} (hc : c ∈ g.blocks) (hne : ¬ (c = b ∧ q = p)) :
      (m.addMove phi p i).code g c q = m.code g c q := by
    refine Moves.code_addMove_of_ne ?_
    by_cases hcb : c = b
    · exact .inr fun hq => hne ⟨hcb, hq⟩
    · exact .inl (phi_ne hc hcb)
  refine ⟨fun c hc => ?_, fun b' p' n hv => ?_⟩
  · by_cases hct : c = t
    · -- the move goes to the end of the predecessor, whose only successor is `b`
      subst hct
      rcases ht with hv | ⟨hv, rfl, hsucc⟩
      · exact absurd (hg.blocks_lt c hc) (h.via b p c hv).1.not_gt
      · have tail (m' : Moves) (hm' : m'.via = m.via) : m'.tail g c = m'.code g b c := by
          simp [Moves.tail, hsucc, hm', hv]
        have := hlay _ _ (h.layout c hc)
        rw [List.append_assoc, tail m rfl, ← hcode] at this
        rwa [tail (m.addMove phi c i) rfl]
    · have same : (m.addMove phi p i).tail g c = m.tail g c := by
        refine Moves.tail_addMove_of_ne fun d hd => ?_
        by_cases hdb : d = b
        · subst hdb
          by_cases hcp : c = p
          · subst hcp
            rcases ht with hv | ⟨-, rfl, -⟩
            · exact .inl (hv ▸ rfl)
            · exact absurd rfl hct
          · exact .inr (.inr hcp)
        · exact .inr (.inl (phi_ne (hg.succs c hc d hd).1 hdb))
      rw [same]
      exact other hct (h.layout c hc)
  · have hb' := h.via_block b' p' n hv
    obtain ⟨hn, -, hlay', hsucc, hpred⟩ := h.via b' p' n hv
    by_cases hnt : n = t
    · subst hnt
      rcases ht with hv' | ⟨-, rfl, -⟩
      · obtain ⟨-, -, -, hsucc', hpred'⟩ := h.via b p n hv'
        obtain rfl : b' = b := List.singleton_inj.1 (hsucc.symm.trans hsucc')
        obtain rfl : p' = p := List.singleton_inj.1 (hpred.symm.trans hpred')
        rw [hcode]
        exact hlay _ _ hlay'
      · exact absurd (hg.blocks_lt n (hg.preds b hb n hp).1) hn.not_gt
    · rw [code_ne hb']
      · exact other hnt hlay'
      · rintro ⟨rfl, rfl⟩
        rcases ht with hv' | ⟨hv', -, -⟩
        · exact hnt (Option.some.inj (hv.symm.trans hv'))
        · simp [hv] at hv'

theorem getInput_eq {g : Graph} {i : Nat} {k : Nat} (h : (g.instr i).inputs[k]? = some (some input)) :
    g.getInput i k = some input := by
  rw [getInput, h]
  rfl

theorem getInput_eq_some {g : Graph} {i : Nat} {k : Nat} : g.getInput i k = some input ↔
    (g.instr i).inputs[k]? = some (some input) := by
  rw [getInput, Option.join_eq_some_iff]

/-- Making the move `i` for `phi` on the edge from `p` to `b`. -/
theorem pushMove (h : Resolved g loc m s) (hg : Resolvable g loc) (hb : b ∈ g.blocks)
    (hp : p ∈ (g.block b).preds) (heq : g.phis b = done ++ phi :: l)
    (hnone : ∀ phi' ∈ phi :: l, m.move phi' p = none) (hinput : g.resolveInput phi p = some input)
    (ht : IsTarget g m b p t) (hlt : g.instrCount ≤ i ∧ i < s.graph.instrCount)
    (hfresh : ∀ phi' p', m.move phi' p' ≠ some i) (hne : input ≠ i)
    (hinputs : (s.graph.instr i).inputs = [some input]) (hmove : (s.graph.instr i).opcode = .MOVE)
    (hlinks : (s.graph.instr i).parent = none ∧ (s.graph.instr i).prev = none ∧ (s.graph.instr i).next = none) :
    ∃ g₁ g₂ g₃, s.graph.pushBackInstruction t i = some g₁ ∧
      g₁.setInput phi (some i) (g.indexOf phi p) = some g₂ ∧ g₂.removeUser input phi = some g₃ ∧
      Resolved g loc (m.addMove phi p i)
        { s with graph := g₃, location := Function.update s.location i (loc phi) } := by
  obtain ⟨hpb, -⟩ := hg.preds b hb p hp
  have hphi : (s.graph.instr i).isPhi = false := by rw [Instruction.isPhi, hmove]; rfl
  obtain ⟨phis, rest, lay⟩ := h.layout_target hpb ht
  obtain ⟨g₁, hpush, -, hframe⟩ := lay.pushBackInstruction_eq hphi hlinks.1 hlinks.2.1 hlinks.2.2 hlt.2
  have hmem : phi ∈ g.phis b := by simp [heq]
  have hslot := h.input b hb phi hmem p hp
  rw [hnone phi List.mem_cons_self, hinput] at hslot
  have hslot' := getInput_eq_some.1 hslot
  obtain ⟨hidx, -⟩ := List.getElem?_eq_some_iff.1 hslot'
  have huser : phi ∈ (s.graph.instr input).users := by
    have := (h.users b hb phi hmem input (List.mem_of_getElem? hslot')).2
    have := List.count_pos_iff.2 (List.mem_of_getElem? hslot')
    exact List.count_pos_iff.1 (by omega)
  obtain ⟨g₂, g₃, hset, hremove, hput⟩ := putsMove hframe hidx huser hne
  refine ⟨g₁, g₂, g₃, hpush, hset, hremove, ?_⟩
  obtain ⟨lays, vias⟩ := h.layouts_pushed hg hb hp heq hnone ht hlinks.1 (fun phis rest lay => by
    obtain ⟨g₁', hpush', lay', -⟩ := lay.pushBackInstruction_eq hphi hlinks.1 hlinks.2.1 hlinks.2.2 hlt.2
    exact Option.some.inj (hpush'.symm.trans hpush) ▸ lay') hframe
  have layout {c phis rest} (h : g₁.Layout c phis rest) : g₃.Layout c phis rest :=
    h.congr (by rw [hput.block]; exact ⟨rfl, rfl, rfl, rfl⟩) (fun j _ => hput.links j) hput.counts.1.ge
  have edges c : (g₃.block c).succs = (s.graph.block c).succs ∧ (g₃.block c).preds = (s.graph.block c).preds ∧
      (g₃.block c).loop = (s.graph.block c).loop := by
    rw [hput.block]
    by_cases hct : c = t
    · subst hct
      exact ⟨hframe.succs, hframe.preds, hframe.loop_of⟩
    · rw [hframe.block c hct]
      exact ⟨rfl, rfl, rfl⟩
  have hic : g₃.instrCount = s.graph.instrCount := hput.counts.1.trans hframe.instrCount
  have hbc : g₃.blockCount = s.graph.blockCount := hput.counts.2.trans hframe.blockCount
  have opcode j : (g₃.instr j).opcode = (s.graph.instr j).opcode := by
    obtain ⟨_, _, _, heq⟩ := hframe.links j
    rw [(hput.links j).2.2.2, heq]
  have phi_lt c (hc : c ∈ g.blocks) x (hx : x ∈ g.phis c) : x < g.instrCount :=
    (hg.layout c hc).lt x (List.mem_append_left _ hx)
  exact
    { instrCount := h.instrCount.trans hic.ge
      blockCount := h.blockCount.trans hbc.ge
      layout := fun c hc => layout (lays c hc)
      via_block := h.via_block
      via := fun b' p' n hv => by
        obtain ⟨h₁, h₂, -, h₄, h₅⟩ := h.via b' p' n hv
        exact ⟨h₁, hbc ▸ h₂, layout (vias b' p' n hv), (edges n).1.trans h₄, (edges n).2.1.trans h₅⟩
      succs := fun c hc => (edges c).1.trans (h.succs c hc)
      preds := fun c hc => (edges c).2.1.trans (h.preds c hc)
      loop := fun c hc => (edges c).2.2.trans (h.loop c hc)
      loops := fun k c hc => by
        rw [hput.loop, hframe.loop] at hc
        exact hbc ▸ h.loops k c hc
      sources := fun c hc x hx => (hput.sources x).trans (h.sources c hc x hx)
      inputs_length := fun c hc x hx => by
        rw [← h.inputs_length c hc x hx, hput.inputs]
        split
        · next heq => rw [List.length_set, heq]
        · rfl
      input := fun c hc x hx q hq => by
        have old := h.input c hc x hx q hq
        rw [getInput] at old ⊢
        rw [hput.inputs]
        by_cases hxphi : x = phi
        · subst hxphi
          by_cases hqp : q = p
          · subst hqp
            simp [Moves.addMove, hidx]
          · have hidx_ne : g.indexOf x p ≠ g.indexOf x q := fun h => hqp
              ((List.idxOf_inj ((hg.sources c hc x hx).mem_iff.2 hq)).1 h.symm)
            simp only [if_true, List.getElem?_set_ne hidx_ne]
            simpa [Moves.addMove, hqp] using old
        · simpa [Moves.addMove, hxphi] using old
      move := fun x q j hm => by
        have hphi_lt := phi_lt b hb phi hmem
        simp only [Moves.addMove] at hm
        split at hm
        · next heq' =>
            obtain ⟨rfl, rfl⟩ := heq'
            cases hm
            refine ⟨hlt.1, hic ▸ hlt.2, (opcode _).trans hmove, ?_, by simp⟩
            rw [getInput, hput.inputs, if_neg (by omega), hinputs, hinput]
            rfl
        · obtain ⟨h₁, h₂, h₃, h₄, h₅⟩ := h.move x q j hm
          have hji : j ≠ i := fun hji => hfresh x q (hji ▸ hm)
          refine ⟨h₁, hic ▸ h₂, (opcode j).trans h₃, ?_, by simpa [hji] using h₅⟩
          rw [getInput, hput.inputs, if_neg (by omega)]
          exact h₄
      opcode := fun j hj => (opcode j).trans (h.opcode j hj)
      location := fun j hj => by
        have : j ≠ i := by omega
        simpa [this] using h.location j hj
      users := fun c hc x hx j hj => by
        have husers := hput.users j x
        rw [hput.inputs] at hj ⊢
        rw [hic]
        by_cases hxphi : x = phi
        · subst hxphi
          obtain ⟨hidx', hslot''⟩ := List.getElem?_eq_some_iff.1 hslot'
          rw [if_pos rfl] at hj ⊢
          rw [List.count_set hidx', hslot'']
          simp only [and_true, beq_iff_eq, Option.some.injEq] at husers ⊢
          by_cases hold : some j ∈ (s.graph.instr x).inputs
          · obtain ⟨hjlt, hcount⟩ := h.users c hc x hx j hold
            refine ⟨hjlt, ?_⟩
            have := List.count_pos_iff.2 hold
            split_ifs at husers ⊢ <;> omega
          · have hji : j = i := by
              rcases List.mem_or_eq_of_mem_set hj with hj | hj
              · exact absurd hj hold
              · exact Option.some.inj hj
            subst hji
            rw [List.count_eq_zero_of_not_mem hold]
            refine ⟨hlt.2, ?_⟩
            split_ifs at husers ⊢ <;> omega
        · rw [if_neg hxphi] at hj ⊢
          obtain ⟨hjlt, hcount⟩ := h.users c hc x hx j hj
          simp only [Ne.symm hxphi, and_false, if_false, Nat.add_zero] at husers
          exact ⟨hjlt, husers ▸ hcount⟩ }

end Resolved

end CompilerLab.Jit.LinearScan
