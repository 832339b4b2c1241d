import CompilerLab.Jit.Lemmas.Joins

/-!
# Splitting edges

`InsertBetween` puts a block on one edge, `AddBasicBlockBefore` on all edges into a block. The branches and the phis are kept by
the first one, and by the second one when the block has no phis and is no true successor of a branch.
-/

namespace CompilerLab.Jit.Graph

open CompilerLab.Lib

variable {g g' : Graph} {b c n p : Nat} {phis rest ps : List Nat}

/-- The edges from `ps` to `b` lead through `n`; every branch reaches the block it reached before, and every phi of `b` has one
source for each predecessor, with the input of the edge. -/
structure LeadsThrough (g : Graph) (n b : Nat) (ps : List Nat) (g' : Graph) : Prop where
  new_succs : (g'.block n).succs = [b]
  new_preds : (g'.block n).preds.Perm ps
  preds : ∀ q, q ∈ (g'.block b).preds ↔ q = n ∨ q ∈ (g.block b).preds ∧ q ∉ ps
  redirected : ∀ p ∈ ps, n ∈ (g'.block p).succs
  outcomes : ∀ c, c ≠ n → ∀ r, (g'.destination c r).map (fun d => if d = n then b else d) = g.destination c r
  instrs : g'.instrs b = g.instrs b
  sources : ∀ phi ∈ g'.phis b, (g'.instr phi).sourceBBlocks.Perm (g'.block b).preds
  inputs : ∀ phi ∈ g'.phis b, (∀ p ∈ ps, g'.resolveInput phi n = g.resolveInput phi p) ∧
    ∀ p ∈ (g.block b).preds, p ∉ ps → g'.resolveInput phi p = g.resolveInput phi p

theorem map_through {l : List Nat} (h : n ∉ l) : l.map (fun d => if d = n then b else d) = l := by
  have hid : l.map (fun d => if d = n then b else d) = l.map id := by
    refine List.map_congr_left fun d hd => ?_
    have hdn : d ≠ n := fun he => h (he ▸ hd)
    rw [if_neg hdn, id]
  rw [hid, List.map_id]

/-! ## One edge -/

theorem OnEdge.leadsThrough (h : OnEdge g n p b g') (hg : g.Connected) (hl : g.Layout b phis rest) (hs : g.InStep b phis)
    (hn : g.Loose n) (hp : p ∈ (g.block b).preds) (hcount : g'.instrCount = g.instrCount)
    (hinstr : ∀ i, g'.instr i = if i ∈ phis then
      { g.instr i with sourceBBlocks := (g.instr i).sourceBBlocks.replace p n } else g.instr i) :
    LeadsThrough g n b [p] g' := by
  have hb : b ∈ (g.block p).succs := (hg.edges p b).mpr hp
  have hpn : p ≠ n := hn.ne_of_succ hb
  have hbn : b ≠ n := hn.ne_of_pred hp
  have hl' : g'.Layout b phis rest := by
    refine hl.congr ?_ (fun i _ => ?_) hcount.ge
    · rw [h.block b hbn]
      exact ⟨rfl, rfl, rfl, rfl⟩
    · rw [hinstr]
      split_ifs
      · exact ⟨rfl, rfl, rfl, rfl⟩
      · exact ⟨rfl, rfl, rfl, rfl⟩
  have hpreds : (g'.block b).preds = (g.block b).preds.replace p n := by rw [h.block b hbn, if_pos rfl]
  have hnew : ∀ phi ∈ phis, n ∉ (g.instr phi).sourceBBlocks := fun phi hphi hmem =>
    hn.not_pred hg b ((hs.sources phi hphi).mem_iff.mp hmem)
  refine ⟨by rw [h.new], by rw [h.new], fun q => ?_, fun q hq => ?_, fun c hc r => ?_, ?_, fun phi hphi => ?_, fun phi hphi => ?_⟩
  · rw [hpreds, (replace_perm hp).mem_iff, List.mem_cons, (hg.preds_nodup b).mem_erase_iff, List.mem_singleton, and_comm]
  · rw [List.mem_singleton.mp hq, h.block p hpn, if_pos rfl]
    exact (replace_perm hb).mem_iff.mpr List.mem_cons_self
  · have hthrough : (g'.block c).succs.map (fun d => if d = n then b else d) = (g.block c).succs := by
      rw [h.block c hc]
      dsimp only
      split_ifs with hcp
      · rw [hcp, map_replace_of_eq (by simp), map_through (hn.not_succ hg p)]
      · exact map_through (hn.not_succ hg c)
    rw [destination, destination, ← List.getElem?_map, hthrough]
  · rw [hl'.instrs_eq, hl.instrs_eq]
  · rw [hl'.phis_eq] at hphi
    rw [hinstr, if_pos hphi, hpreds]
    have hmem : p ∈ (g.instr phi).sourceBBlocks := (hs.sources phi hphi).mem_iff.mpr hp
    exact (replace_perm hmem).trans ((((hs.sources phi hphi).erase p).cons n).trans (replace_perm hp).symm)
  · rw [hl'.phis_eq] at hphi
    have hsource := hnew phi hphi
    refine ⟨fun q hq => ?_, fun q hq hne => ?_⟩
    · rw [List.mem_singleton.mp hq, resolveInput, resolveInput, getInput, getInput, indexOf, indexOf, hinstr, if_pos hphi]
      rw [idxOf_replace_new hsource]
    · have hqp : q ≠ p := fun h => hne (h ▸ List.mem_singleton_self _)
      have hqn : q ≠ n := fun h => hn.not_pred hg b (h ▸ hq)
      rw [resolveInput, resolveInput, getInput, getInput, indexOf, indexOf, hinstr, if_pos hphi]
      rw [idxOf_replace_ne hqp hqn]

theorem insertBetween_iff (hg : g.Connected) (hl : g.Layout b phis rest) (hs : g.InStep b phis) (hn : g.Loose n)
    (hp : p ∈ (g.block b).preds) :
    (∃ g', g.insertBetween n p b = some g' ∧ LeadsThrough g n b [p] g') ↔ phis = [] ∨ 1 < (g.block b).preds.length := by
  constructor
  · rintro ⟨g', hrun, -⟩
    obtain ⟨g₁, hstart, hedge, -, -⟩ := insertBetween_start hg hn hp
    have hblock := hedge.block b (hn.ne_of_pred hp)
    have hfirst : (g₁.block b).firstPhi = phis.head? := by
      rw [hblock]
      exact hl.firstPhi
    rw [hrun, hfirst] at hstart
    cases phis with
    | nil => exact .inl rfl
    | cons phi phis =>
        have hlen := (ASSERT_bind.mp hstart.symm).1
        rw [hblock, if_pos rfl, List.length_replace] at hlen
        exact .inr hlen
  · intro hfit
    obtain ⟨g', hrun, hedge, hcount, hinstr⟩ := insertBetween_eq hg hl hs hn hp hfit
    exact ⟨g', hrun, hedge.leadsThrough hg hl hs hn hp hcount hinstr⟩

/-! ## All edges into a block -/

/-- The edges after those from `done` to `b` have been redirected to `n`. -/
structure Redirected (g : Graph) (n b : Nat) (done : List Nat) (g' : Graph) : Prop where
  new_preds : (g'.block n).preds = done
  new_succs : (g'.block n).succs = []
  block : ∀ c, c ≠ n → g'.block c = { g.block c with
    succs := if c ∈ done then (g.block c).succs.erase b ++ [n] else (g.block c).succs }
  instr : g'.instr = g.instr
  instrCount : g'.instrCount = g.instrCount

theorem redirectInto_eq {done : List Nat} {s : Graph} (hg : g.Connected) (hn : g.Loose n) (hp : p ∈ (g.block b).preds)
    (hdone : p ∉ done) (hs : Redirected g n b done s) :
    ∃ s', redirectInto b n s p = some s' ∧ Redirected g n b (done ++ [p]) s' := by
  have hb : b ∈ (g.block p).succs := (hg.edges p b).mpr hp
  have hpn : p ≠ n := hn.ne_of_succ hb
  have hsuccs : (s.block p).succs = (g.block p).succs := by rw [hs.block p hpn, if_neg hdone]
  have hnot : n ∉ (g.block p).succs := hn.not_succ hg p
  have hlen : ((g.block p).succs.erase b).length < 2 := by
    have hle := hg.succs_le p
    have hpos := List.length_pos_of_mem hb
    rw [List.length_erase_of_mem hb]
    omega
  have hnot' : n ∉ (g.block p).succs.erase b := fun hmem => hnot (List.mem_of_mem_erase hmem)
  have hdone' : p ∉ (s.block n).preds := by
    rw [hs.new_preds]
    exact hdone
  refine ⟨((s.modifyBlock p fun x => { x with succs := x.succs.erase b }).modifyBlock p fun x =>
    { x with succs := x.succs ++ [n] }).modifyBlock n fun x => { x with preds := x.preds ++ [p] }, ?_, ?_⟩
  · rw [redirectInto, removeSuccessor_eq (by rw [hsuccs]; exact hb)]
    simp only [Option.bind_eq_bind, Option.bind_some]
    rw [addSuccessor_eq (by simpa [hsuccs] using hlen) (by simpa [hsuccs] using hnot'), Option.bind_some,
      addPredecessor_eq (by simpa [hpn.symm] using hdone')]
  · refine ⟨?_, ?_, fun c hc => ?_, hs.instr, hs.instrCount⟩
    · simp [hpn.symm, hs.new_preds]
    · simp [hpn.symm, hs.new_succs]
    · by_cases hcp : c = p
      · subst hcp
        simp [hc, hs.block c hc, hdone]
      · simp [hc, hcp, hs.block c hc]

/-- The edges after `n` has been put before `b`. -/
structure PutBefore (g : Graph) (n b : Nat) (g' : Graph) : Prop where
  new_preds : (g'.block n).preds = (g.block b).preds
  new_succs : (g'.block n).succs = [b]
  block : ∀ c, c ≠ n → g'.block c = { g.block c with
    preds := if c = b then [n] else (g.block c).preds
    succs := if c ∈ (g.block b).preds then (g.block c).succs.erase b ++ [n] else (g.block c).succs }
  instr : g'.instr = g.instr
  instrCount : g'.instrCount = g.instrCount

theorem addBasicBlockBefore_eq (hg : g.Connected) (hn : g.Loose n) (hne : b ≠ n) (hin : (g.block b).inGraph = true) :
    ∃ g', g.addBasicBlockBefore b n = some g' ∧ PutBefore g n b g' := by
  let g₀ := g.modifyBlock n fun x => { x with inGraph := true }
  have hstart : Redirected g n b [] g₀ := by
    refine ⟨?_, ?_, fun c hc => ?_, rfl, rfl⟩
    · simp [g₀, hn.preds]
    · simp [g₀, hn.succs]
    · simp [g₀, hc]
  have hpreds₀ : (g₀.block b).preds = (g.block b).preds := modifyBlock_preds fun _ => rfl
  obtain ⟨s, hloop, hs⟩ : ∃ s, (g.block b).preds.foldlM (redirectInto b n) g₀ = some s ∧
      Redirected g n b (g.block b).preds s := by
    refine foldlM_completes (fun done p rest s heq hs => ?_) hstart
    have hnodup := hg.preds_nodup b
    rw [heq] at hnodup
    have hdone : p ∉ done := fun hmem => List.disjoint_of_nodup_append hnodup hmem List.mem_cons_self
    exact redirectInto_eq hg hn (by simp [heq]) hdone hs
  refine ⟨((s.modifyBlock b fun x => { x with preds := [] }).modifyBlock b fun x =>
    { x with preds := x.preds ++ [n] }).modifyBlock n (fun x => { x with succs := x.succs ++ [b] })
      |>.invalidateAfterChangedCFG, ?_, ?_⟩
  · rw [addBasicBlockBefore, ASSERT_of hin, ASSERT_of hn.preds, ASSERT_of hn.succs]
    simp only [Option.bind_eq_bind, Option.bind_some]
    rw [hpreds₀, hloop, Option.bind_some, addPredecessor_eq (by simp), Option.bind_some,
      addSuccessor_eq (by simp [hne.symm, hs.new_succs]) (by simp [hne.symm, hs.new_succs])]
    rfl
  · refine ⟨?_, ?_, fun c hc => ?_, hs.instr, hs.instrCount⟩
    · simp [invalidateAfterChangedCFG, hne.symm, hs.new_preds]
    · simp [invalidateAfterChangedCFG, hne.symm, hs.new_succs]
    · by_cases hcb : c = b
      · subst hcb
        simp [invalidateAfterChangedCFG, hc, hs.block c hc]
      · simp [invalidateAfterChangedCFG, hc, hcb, hs.block c hc]

/-- A successor that is replaced by taking it out and adding the new one keeps its place when it is the last one. -/
theorem map_erase_append_iff {l : List Nat} (hb : b ∈ l) (hn : n ∉ l) (hnodup : l.Nodup) (hlen : l.length ≤ 2) :
    (l.erase b ++ [n]).map (fun d => if d = n then b else d) = l ↔ ∀ x, l ≠ [b, x] := by
  match l with
  | [x] =>
      obtain rfl := List.mem_singleton.mp hb
      simp
  | [x, y] =>
      have hxn : x ≠ n := fun h => hn (h ▸ List.mem_cons_self)
      have hyn : y ≠ n := fun h => hn (by simp [h])
      have hxy : x ≠ y := by simpa using hnodup
      by_cases hx : x = b
      · subst hx
        simp [hyn, hxy.symm]
      · have hy : y = b := by simpa [Ne.symm hx, eq_comm] using hb
        subst hy
        simp [hx, hxn]

theorem PutBefore.outcomes_iff (h : PutBefore g n b g') (hg : g.Connected) (hn : g.Loose n) :
    (∀ c, c ≠ n → ∀ r, (g'.destination c r).map (fun d => if d = n then b else d) = g.destination c r) ↔
      ∀ p x, (g.block p).succs ≠ [b, x] := by
  have hpred : ∀ {c}, c ∈ (g.block b).preds → b ∈ (g.block c).succs ∧ c ≠ n := fun hc =>
    ⟨(hg.edges _ b).mpr hc, hn.ne_of_succ ((hg.edges _ b).mpr hc)⟩
  constructor
  · intro hout p x hsuccs
    have hp : p ∈ (g.block b).preds := by
      rw [← hg.edges, hsuccs]
      exact List.mem_cons_self
    have hnodup := hg.succs_nodup p
    have hdest := hout p (hpred hp).2 true
    rw [hsuccs] at hnodup
    have hx : x ≠ n := by
      rintro rfl
      exact hn.not_succ hg p (by simp [hsuccs])
    have hxb : b ≠ x := by simpa using hnodup
    simp [destination, h.block p (hpred hp).2, hp, hsuccs, hx, hxb.symm] at hdest
  · intro hlast c hc r
    have hthrough : (g'.block c).succs.map (fun d => if d = n then b else d) = (g.block c).succs := by
      rw [h.block c hc]
      dsimp only
      split_ifs with hmem
      · exact (map_erase_append_iff (hpred hmem).1 (hn.not_succ hg c) (hg.succs_nodup c) (hg.succs_le c)).mpr (hlast c)
      · exact map_through (hn.not_succ hg c)
    rw [destination, destination, ← List.getElem?_map, hthrough]

theorem PutBefore.leadsThrough (h : PutBefore g n b g') (hg : g.Connected) (hl : g.Layout b [] rest) (hn : g.Loose n)
    (hne : b ≠ n) (hlast : ∀ p x, (g.block p).succs ≠ [b, x]) : LeadsThrough g n b (g.block b).preds g' := by
  have hl' : g'.Layout b [] rest := by
    refine hl.congr ?_ (fun i _ => ?_) h.instrCount.ge
    · rw [h.block b hne]
      exact ⟨rfl, rfl, rfl, rfl⟩
    · rw [h.instr]
      exact ⟨rfl, rfl, rfl, rfl⟩
  refine ⟨h.new_succs, by rw [h.new_preds], fun q => ?_, fun p hp => ?_, (h.outcomes_iff hg hn).mpr hlast, ?_, ?_, ?_⟩
  · rw [h.block b hne, if_pos rfl, List.mem_singleton]
    tauto
  · rw [h.block p (hn.ne_of_succ ((hg.edges p b).mpr hp)), if_pos hp]
    exact List.mem_append_right _ (List.mem_singleton_self n)
  · rw [hl'.instrs_eq, hl.instrs_eq]
  · rw [hl'.phis_eq]
    exact fun phi hphi => absurd hphi List.not_mem_nil
  · rw [hl'.phis_eq]
    exact fun phi hphi => absurd hphi List.not_mem_nil

theorem addBasicBlockBefore_iff (hg : g.Connected) (hl : g.Layout b phis rest) (hs : g.InStep b phis) (hn : g.Loose n)
    (hne : b ≠ n) (hin : (g.block b).inGraph = true) :
    (∃ g', g.addBasicBlockBefore b n = some g' ∧ LeadsThrough g n b (g.block b).preds g') ↔
      phis = [] ∧ ∀ p x, (g.block p).succs ≠ [b, x] := by
  obtain ⟨g₁, hrun, hbefore⟩ := addBasicBlockBefore_eq hg hn hne hin
  constructor
  · rintro ⟨g', hrun', h⟩
    obtain rfl : g₁ = g' := Option.some.inj (hrun.symm.trans hrun')
    refine ⟨?_, (hbefore.outcomes_iff hg hn).mp h.outcomes⟩
    have hl' : g₁.Layout b phis rest := by
      refine hl.congr ?_ (fun i _ => ?_) hbefore.instrCount.ge
      · rw [hbefore.block b hne]
        exact ⟨rfl, rfl, rfl, rfl⟩
      · rw [hbefore.instr]
        exact ⟨rfl, rfl, rfl, rfl⟩
    cases phis with
    | nil => rfl
    | cons phi phis =>
        -- the sources are the predecessors `b` had
        have hphi : phi ∈ g₁.phis b := by
          rw [hl'.phis_eq]
          exact List.mem_cons_self
        have hsources := h.sources phi hphi
        rw [hbefore.instr, hbefore.block b hne, if_pos rfl] at hsources
        have hmem : n ∈ (g.instr phi).sourceBBlocks := hsources.mem_iff.mpr (List.mem_singleton_self n)
        exact absurd ((hs.sources phi List.mem_cons_self).mem_iff.mp hmem) (hn.not_pred hg b)
  · rintro ⟨rfl, hlast⟩
    exact ⟨g₁, hrun, hbefore.leadsThrough hg hl hn hne hlast⟩

/-- `InsertBetween` keeps branches and phis unless a block with phis has one predecessor, `AddBasicBlockBefore` exactly when the
block has no phis and is not the true successor of a branch. -/
theorem edge_splitting_iff (hg : g.Connected) (hl : g.Layout b phis rest) (hs : g.InStep b phis) (hn : g.Loose n)
    (hne : b ≠ n) (hin : (g.block b).inGraph = true) :
    (∀ p ∈ (g.block b).preds, (∃ g', g.insertBetween n p b = some g' ∧ LeadsThrough g n b [p] g') ↔
      phis = [] ∨ 1 < (g.block b).preds.length) ∧
    ((∃ g', g.addBasicBlockBefore b n = some g' ∧ LeadsThrough g n b (g.block b).preds g') ↔
      phis = [] ∧ ∀ p x, (g.block p).succs ≠ [b, x]) :=
  ⟨fun _ hp => insertBetween_iff hg hl hs hn hp, addBasicBlockBefore_iff hg hl hs hn hne hin⟩

/-! ## A branch with two returns -/

/-- `if (x < y) { return; } return;` for arguments `x` and `y`, with a block 4 that is not linked yet. -/
def twoReturns : Graph := ofLists
  [{ opcode := .ARG, type := .I32, next := some 1, parent := some 0, users := [2] },
   { opcode := .ARG, type := .I32, prev := some 0, parent := some 0, users := [2] },
   { opcode := .CMP, type := .I32, ccode := .LT, next := some 3, parent := some 1,
     properties := INPUT_SIDE_EFFECTS, inputs := [some 0, some 1] },
   { opcode := .JCMP, type := .I64, prev := some 2, parent := some 1, properties := CF_SIDE_EFFECTS },
   { opcode := .RETVOID, type := .VOID, parent := some 2, properties := CF_SIDE_EFFECTS },
   { opcode := .RETVOID, type := .VOID, parent := some 3, properties := CF_SIDE_EFFECTS }]
  [{ id := 0, succs := [1], instrsCount := 2, firstInst := some 0, lastInst := some 1 },
   { id := 1, preds := [0], succs := [2, 3], instrsCount := 2, firstInst := some 2, lastInst := some 3 },
   { id := 2, preds := [1], instrsCount := 1, firstInst := some 4, lastInst := some 4 },
   { id := 3, preds := [1], instrsCount := 1, firstInst := some 5, lastInst := some 5 },
   { id := 4 }] []

theorem twoReturns_connected : twoReturns.Connected := Connected.ofLists (by decide) (by decide) (by decide)

theorem twoReturns_loose : twoReturns.Loose 4 := ⟨rfl, rfl⟩

theorem edge_splitting_iff_false : ∃ g', twoReturns.addBasicBlockBefore 3 4 = some g' ∧
    LeadsThrough twoReturns 4 3 [1] g' := by
  have hl : twoReturns.Layout 3 [] [5] := by decide
  have hlast : ∀ p x, (twoReturns.block p).succs ≠ [3, x] := by
    intro p x h
    have hp : p ∈ (twoReturns.block 3).preds := by
      rw [← twoReturns_connected.edges, h]
      exact List.mem_cons_self
    obtain rfl : p = 1 := List.mem_singleton.mp hp
    cases h
  exact (edge_splitting_iff twoReturns_connected hl ⟨nofun, nofun⟩ twoReturns_loose (by decide) rfl).2.mpr ⟨rfl, hlast⟩

/-- Put before the true successor, the block becomes the false one. -/
theorem addBasicBlockBefore_true_wrong : twoReturns.Connected ∧ twoReturns.Layout 2 [] [4] ∧ twoReturns.InStep 2 [] ∧
    twoReturns.Loose 4 ∧ ¬ ∃ g', twoReturns.addBasicBlockBefore 2 4 = some g' ∧ LeadsThrough twoReturns 4 2 [1] g' := by
  have hl : twoReturns.Layout 2 [] [4] := by decide
  have hs : twoReturns.InStep 2 [] := ⟨nofun, nofun⟩
  refine ⟨twoReturns_connected, hl, hs, twoReturns_loose, fun h => ?_⟩
  have hlast := ((addBasicBlockBefore_iff twoReturns_connected hl hs twoReturns_loose (by decide) rfl).mp h).2
  exact hlast 1 3 rfl

end CompilerLab.Jit.Graph
