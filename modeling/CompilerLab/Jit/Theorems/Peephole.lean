import CompilerLab.Jit.Lemmas.Peephole
import CompilerLab.Jit.Lemmas.Traversals

/-!
# Results on what the peephole pass visits

A rule that applies unlinks the instruction the loop over its block stands at, and an unlinked instruction has no next one.
-/

namespace CompilerLab.Jit

open CompilerLab.Lib

namespace Graph

variable {g g' : Graph} {b c i : Nat} {phis rest : List Nat} {T B : Nat → Prop}

/-- The list of a block that has not been edited. -/
theorem Edits.listed (h : Edits T B g g') (hl : g.Listed c phis rest) (hc : ¬B c) : g'.Listed c phis rest where
  toLayout := by
    refine hl.toLayout.congr (by simp [h.block c hc]) (fun i hi => ?_) h.count
    obtain ⟨hnext, hprev, hparent⟩ := h.links i (hl.lt i hi) c hc (hl.parent i hi)
    exact ⟨hnext, hprev, hparent, h.opcode i (hl.lt i hi)⟩
  count := by
    rw [h.block c hc]
    exact hl.count
  complete i hi := hl.complete i (h.only i c hc hi)

theorem Listed.mem_instrs (hl : g.Listed b phis rest) : i ∈ g.instrs b ↔ (g.instr i).parent = some b := by
  rw [hl.instrs_eq]
  exact ⟨hl.parent i, hl.complete i⟩

end Graph

namespace Peephole

open Graph

/-- The instructions the pass looks for. -/
def rewritable (opcode : Opcode) : Bool := opcode == .AND || opcode == .SRA || opcode == .SUB

/-- The instructions the loop of `processFrom` is run on, each with the graph at that time. -/
def visitsFrom : Nat → Graph → Option Nat → List (Graph × Nat)
  | _, _, none => []
  | 0, _, some _ => []
  | n + 1, g, some instr =>
      (g, instr) :: match processInstr g instr with
        | some g' => visitsFrom n g' (g'.instr instr).next
        | none => []

/-- The instructions visited in the given blocks. -/
def visitsOf : List Nat → Graph → List (Graph × Nat)
  | [], _ => []
  | bblock :: bblocks, g =>
      visitsFrom g.instrCount g (g.beginInstr bblock) ++ match processFrom g.instrCount g (g.beginInstr bblock) with
        | some g' => visitsOf bblocks g'
        | none => []

/-- The instructions the pass visits. -/
def visits (g : Graph) : List (Graph × Nat) := visitsOf g.rpoBlocks g

/-- A rule applies to the visited instruction. -/
def Applies (v : Graph × Nat) : Prop := ∃ g', tried v.1 v.2 = some (some g')

/-- Every instruction the pass looks for is visited, unless it has been taken out. -/
def VisitsAll (g g' : Graph) : Prop :=
  ∀ b ∈ g.blocks, ∀ i ∈ g.instrs b, rewritable (g.instr i).opcode = true →
    i ∈ (visits g).map Prod.snd ∨ (g'.instr i).parent = none

/-- Nothing the pass looks for stands behind the instruction in its block. -/
def LastOfKind (v : Graph × Nat) : Prop :=
  ∀ b, (v.1.instr v.2).parent = some b → ∀ l₁ l₂, v.1.instrs b = l₁ ++ v.2 :: l₂ →
    ∀ j ∈ l₂, rewritable (v.1.instr j).opcode = false

/-! ## A block -/

variable {g g' : Graph} {b i : Nat} {phis rest : List Nat}

theorem tried_rewritable (h : tried g i = some (some g')) : rewritable (g.instr i).opcode = true := by
  unfold tried at h
  split at h
  case h_4 => cases h
  all_goals simp_all [rewritable]

/-- The edits of a rule that applies. -/
theorem removed_of_tried (hl : g.Listed b phis rest) (hi : i ∈ phis ++ rest) (he : ∀ c, g.EndsIn c)
    (h : tried g i = some (some g')) :
    UnlinksInstr (fun j => j = i ∨ (g.instr j).opcode = .NOT) (fun c => c = b ∨ g.firstBlock = some c) i g g' := by
  have hphi : (g.instr i).isPhi = false := by
    have := tried_rewritable h
    rw [Instruction.isPhi]
    cases hop : (g.instr i).opcode <;> simp_all [rewritable]
  refine takes_tried (b := b) ⟨⟨phis, rest, hl, hi⟩, hphi, he⟩ (.inl rfl) (.inl rfl) (fun c hc => .inr hc) ?_ g' h
  intro j _ hj
  exact .inr hj

/-- The loop over a block comes to its end without a change, or it ends at the first rule that applies. -/
theorem processFrom_cases {n : Nat} {l₁ l : List Nat} (hl : g.Listed b phis rest) (he : ∀ c, g.EndsIn c)
    (heq : phis ++ rest = l₁ ++ l) (h : processFrom n g l.head? = some g') :
    (∀ i ∈ l, tried g i = some none) ∧ g' = g ∧ visitsFrom n g l.head? = l.map (g, ·) ∨
    ∃ l₂ i l₃, l = l₂ ++ i :: l₃ ∧ (∀ j ∈ l₂, tried g j = some none) ∧ tried g i = some (some g') ∧
      visitsFrom n g l.head? = (l₂ ++ [i]).map (g, ·) := by
  induction l generalizing n l₁ with
  | nil =>
      left
      cases n <;> · cases h; simp [visitsFrom]
  | cons i l ih =>
      cases n with
      | zero => cases h
      | succ n =>
          obtain ⟨g₁, hproc, h⟩ := Option.bind_eq_some_iff.1 h
          rw [List.head?_cons, visitsFrom, hproc]
          rw [processInstr_eq] at hproc
          obtain ⟨applied, htried, rfl⟩ := Option.map_eq_some_iff.1 hproc
          cases applied with
          | none =>
              have hnext : (g.instr i).next = l.head? := hl.next_eq heq
              simp only [Option.getD_none] at h ⊢
              rw [hnext] at h ⊢
              have heq' : phis ++ rest = (l₁ ++ [i]) ++ l := by simpa using heq
              rcases ih heq' h with ⟨hnone, hg, hvisits⟩ | ⟨l₂, j, l₃, rfl, hnone, hj, hvisits⟩
              · left
                refine ⟨?_, hg, ?_⟩
                · simp only [List.mem_cons, forall_eq_or_imp]
                  exact ⟨htried, hnone⟩
                · rw [hvisits, List.map_cons]
              · right
                refine ⟨i :: l₂, j, l₃, rfl, ?_, hj, ?_⟩
                · simp only [List.mem_cons, forall_eq_or_imp]
                  exact ⟨htried, hnone⟩
                · rw [hvisits]
                  rfl
          | some g₁ =>
              right
              have hremoved := removed_of_tried hl (by simp [heq]) he htried
              simp only [Option.getD_some] at h ⊢
              rw [hremoved.next] at h ⊢
              have hg : g₁ = g' := by
                cases n <;> · cases h; rfl
              subst hg
              refine ⟨[], i, l, rfl, by simp, htried, ?_⟩
              cases n <;> rfl

/-! ## A run -/

/-- Of block `b` the instructions `pre` have been visited, at a time at which it was as it is in `g`. Only the last one of them has
been taken out by a rule, and it has if instructions are left. -/
structure Visited (g : Graph) (vs : List (Graph × Nat)) (b : Nat) (h : Graph) (pre post : List Nat) : Prop where
  instrs : g.instrs b = pre ++ post
  same : h.instrs b = g.instrs b
  instr : ∀ i ∈ g.instrs b, (h.instr i).parent = some b ∧ (h.instr i).opcode = (g.instr i).opcode
  mem : ∀ i ∈ pre, (h, i) ∈ vs
  only : ∀ v ∈ vs, v.2 ∈ g.instrs b → v.1 = h ∧ v.2 ∈ pre
  last : ∀ i ∈ pre, Applies (h, i) → pre.getLast? = some i
  left : post ≠ [] → ∃ i, pre.getLast? = some i ∧ Applies (h, i)

/-- The visits of a block are those of its list. -/
theorem Visited.block (hl : g.Listed b phis rest) (he : ∀ c, g.EndsIn c)
    (h : processFrom g.instrCount g (g.beginInstr b) = some g') :
    (∃ pre post, Visited g (visitsFrom g.instrCount g (g.beginInstr b)) b g pre post) ∧
      (∀ v ∈ visitsFrom g.instrCount g (g.beginInstr b), v.2 ∈ g.instrs b) ∧
      (g' = g ∨ ∃ i ∈ phis ++ rest, (g, i) ∈ visitsFrom g.instrCount g (g.beginInstr b) ∧ tried g i = some (some g')) := by
  have hbegin : g.beginInstr b = (phis ++ rest).head? := by
    rw [beginInstr, hl.firstPhi, hl.firstInst, List.head?_append]
    cases phis <;> rfl
  have hinstrs : g.instrs b = phis ++ rest := hl.instrs_eq
  have hinstr : ∀ i ∈ g.instrs b, (g.instr i).parent = some b ∧ (g.instr i).opcode = (g.instr i).opcode := fun i hi =>
    ⟨hl.mem_instrs.1 hi, rfl⟩
  rw [hbegin] at h ⊢
  rcases processFrom_cases hl he (List.nil_append (phis ++ rest)).symm h with ⟨hnone, rfl, hvisits⟩ | ⟨l₂, i, l₃, heq, hnone, hi, hvisits⟩
  · rw [hvisits]
    refine ⟨⟨phis ++ rest, [], ⟨by simpa using hinstrs, rfl, hinstr, ?_, ?_, ?_, by simp⟩⟩, ?_, .inl rfl⟩
    · intro i hi
      exact List.mem_map_of_mem hi
    · intro v hv hmem
      obtain ⟨i, hi, rfl⟩ := List.mem_map.1 hv
      exact ⟨rfl, hi⟩
    · rintro i hi ⟨g₁, htried⟩
      have := (hnone i hi).symm.trans htried
      cases this
    · intro v hv
      obtain ⟨i, hi, rfl⟩ := List.mem_map.1 hv
      exact hinstrs ▸ hi
  · rw [hvisits]
    have hlast : (l₂ ++ [i]).getLast? = some i := by
      rw [List.getLast?_append, List.getLast?_singleton]
      rfl
    refine ⟨⟨l₂ ++ [i], l₃, ⟨?_, rfl, hinstr, ?_, ?_, ?_, ?_⟩⟩, ?_, .inr ⟨i, ?_, ?_, hi⟩⟩
    · rw [hinstrs, heq]
      simp
    · intro j hj
      exact List.mem_map_of_mem hj
    · intro v hv hmem
      obtain ⟨j, hj, rfl⟩ := List.mem_map.1 hv
      exact ⟨rfl, hj⟩
    · rintro j hj ⟨g₁, htried⟩
      rcases List.mem_append.1 hj with hj | hj
      · have := (hnone j hj).symm.trans htried
        cases this
      · rw [hlast, List.mem_singleton.1 hj]
    · intro _
      exact ⟨i, hlast, g', hi⟩
    · intro v hv
      obtain ⟨j, hj, rfl⟩ := List.mem_map.1 hv
      rw [hinstrs, heq]
      simp only [List.mem_append, List.mem_cons, List.not_mem_nil, or_false] at hj ⊢
      tauto
    · simp [heq]
    · simp

/-- The blocks that are still to be visited are as they were at the start. -/
structure Unvisited (g : Graph) (bs : List Nat) : Prop where
  nodup : bs.Nodup
  listed : ∀ b ∈ bs, ∃ phis rest, g.Listed b phis rest
  ends : ∀ b, g.EndsIn b
  first : ∀ b, g.firstBlock = some b → b ∉ bs.tail

/-- What a run over blocks has visited, and what it has left in the graph. -/
theorem run_visits {bs : List Nat} (h : Unvisited g bs)
    (hs : bs.foldlM (fun g bblock => processFrom g.instrCount g (g.beginInstr bblock)) g = some g') :
    (∀ b ∈ bs, ∃ k pre post, Visited g (visitsOf bs g) b k pre post) ∧
      (∀ v ∈ visitsOf bs g, ∃ b ∈ bs, v.2 ∈ g.instrs b) ∧
      ∀ i < g.instrCount, rewritable (g.instr i).opcode = true → (g.instr i).parent ≠ none →
        i ∉ (visitsOf bs g).map Prod.snd → (g'.instr i).parent ≠ none := by
  induction bs generalizing g with
  | nil =>
      cases hs
      exact ⟨by simp, by simp [visitsOf], fun _ _ _ hp _ => hp⟩
  | cons b bs ih =>
      rw [List.foldlM_cons] at hs
      obtain ⟨g₁, hb, hs⟩ := Option.bind_eq_some_iff.1 hs
      obtain ⟨phis, rest, hl⟩ := h.listed b (by simp)
      obtain ⟨⟨pre, post, hvisited⟩, hof, hg₁⟩ := Visited.block hl h.ends hb
      obtain ⟨hnot, hnodup⟩ := List.nodup_cons.1 h.nodup
      -- the edits do not reach the blocks that are left
      have hedits : Edits (fun j => (g, j) ∈ visitsFrom g.instrCount g (g.beginInstr b) ∨ (g.instr j).opcode = .NOT)
          (fun c => c ∉ bs) g g₁ ∧ ∀ c, g₁.EndsIn c := by
        rcases hg₁ with rfl | ⟨i, hi, hmem, htried⟩
        · exact ⟨(Quiet.refl g₁).edits, h.ends⟩
        · have hremoved := removed_of_tried hl hi h.ends htried
          refine ⟨hremoved.edits.mono ?_ ?_, hremoved.ends⟩
          · rintro j - (rfl | hj)
            · exact .inl hmem
            · exact .inr hj
          · rintro c (rfl | hc)
            · exact hnot
            · exact h.first c hc
      obtain ⟨hedits, hends⟩ := hedits
      have hlisted : ∀ c ∈ bs, ∃ phis rest, g.Listed c phis rest ∧ g₁.Listed c phis rest := by
        intro c hc
        obtain ⟨phis', rest', hlc⟩ := h.listed c (List.mem_cons_of_mem _ hc)
        exact ⟨phis', rest', hlc, hedits.listed hlc (not_not.2 hc)⟩
      have hinstrs : ∀ c ∈ bs, g₁.instrs c = g.instrs c := by
        intro c hc
        obtain ⟨phis', rest', hlc, hlc'⟩ := hlisted c hc
        rw [hlc.instrs_eq, hlc'.instrs_eq]
      have hdisjoint : ∀ c ∈ bs, ∀ i ∈ g.instrs c, i ∉ g.instrs b := by
        intro c hc i hi hib
        obtain ⟨phis', rest', hlc, -⟩ := hlisted c hc
        have hpar := (hlc.mem_instrs.1 hi).symm.trans (hl.mem_instrs.1 hib)
        exact hnot (Option.some.inj hpar ▸ hc)
      have hrest : Unvisited g₁ bs := by
        refine ⟨hnodup, ?_, hends, ?_⟩
        · intro c hc
          obtain ⟨phis', rest', -, hlc'⟩ := hlisted c hc
          exact ⟨phis', rest', hlc'⟩
        · intro c hc hmem
          exact h.first c (hedits.firstBlock.symm.trans hc) (List.mem_of_mem_tail hmem)
      obtain ⟨hblocks, hof', hstays⟩ := ih hrest hs
      have happend : visitsOf (b :: bs) g = visitsFrom g.instrCount g (g.beginInstr b) ++ visitsOf bs g₁ := by
        rw [visitsOf, hb]
      rw [happend]
      refine ⟨?_, ?_, ?_⟩
      · intro c hc
        rcases List.mem_cons.1 hc with rfl | hc
        · refine ⟨g, pre, post, { hvisited with mem := ?_, only := ?_ }⟩
          · intro i hi
            exact List.mem_append_left _ (hvisited.mem i hi)
          · intro v hv hmem
            rcases List.mem_append.1 hv with hv | hv
            · exact hvisited.only v hv hmem
            · obtain ⟨d, hd, hmem'⟩ := hof' v hv
              exact absurd hmem (hdisjoint d hd _ (hinstrs d hd ▸ hmem'))
        · obtain ⟨k, pre', post', hvis⟩ := hblocks c hc
          obtain ⟨phis', rest', hlc, -⟩ := hlisted c hc
          have hsame := hinstrs c hc
          refine ⟨k, pre', post', ⟨hsame ▸ hvis.instrs, hvis.same.trans hsame, ?_, ?_, ?_, hvis.last, hvis.left⟩⟩
          · intro i hi
            obtain ⟨hp, hop⟩ := hvis.instr i (hsame.symm ▸ hi)
            have hlt : i < g.instrCount := hlc.lt i (hlc.instrs_eq ▸ hi)
            exact ⟨hp, hop.trans (hedits.opcode i hlt)⟩
          · intro i hi
            exact List.mem_append_right _ (hvis.mem i hi)
          · intro v hv hmem
            rcases List.mem_append.1 hv with hv | hv
            · exact absurd (hof v hv) (hdisjoint c hc _ hmem)
            · exact hvis.only v hv (hsame.symm ▸ hmem)
      · intro v hv
        rcases List.mem_append.1 hv with hv | hv
        · exact ⟨b, by simp, hof v hv⟩
        · obtain ⟨c, hc, hmem⟩ := hof' v hv
          exact ⟨c, List.mem_cons_of_mem _ hc, hinstrs c hc ▸ hmem⟩
      · intro i hi hop hp hvisit
        rw [List.map_append, List.mem_append, not_or] at hvisit
        have hp₁ : (g₁.instr i).parent = (g.instr i).parent := by
          refine hedits.stays i hi ?_ hp
          rintro (hmem | hnotop)
          · exact hvisit.1 (List.mem_map_of_mem hmem)
          · rw [hnotop] at hop
            cases hop
        refine hstays i (hi.trans_le hedits.count) ?_ (hp₁ ▸ hp) hvisit.2
        rw [hedits.opcode i hi]
        exact hop

/-- A graph the pass is run on: its blocks list their instructions, and a stored reverse post order is the one of the graph. -/
structure Input (g : Graph) (first : Nat) : Prop where
  connected : g.WellConnected first
  lists : g.Lists
  rpo : g.valid .RPO = true → g.doRPO = some g.rpoBlocks

theorem Input.runRPO {g₀ : Graph} {first : Nat} (hg : Input g₀ first) (h : g₀.runRPO = some g) :
    g.instr = g₀.instr ∧ g.block = g₀.block ∧ g.instrCount = g₀.instrCount ∧ g.firstBlock = g₀.firstBlock ∧ g.blocks = g₀.blocks ∧
      g₀.doRPO = some g.rpoBlocks := by
  rw [Graph.runRPO] at h
  split at h
  · rename_i hvalid
    cases h
    exact ⟨rfl, rfl, rfl, rfl, rfl, hg.rpo hvalid⟩
  · simp only [Option.bind_eq_bind, Option.bind_eq_some_iff, Option.pure_def, Option.some.injEq] at h
    obtain ⟨l, hl, rfl⟩ := h
    exact ⟨rfl, rfl, rfl, rfl, rfl, hl⟩

/-- Two conjunctions with zero in one block. -/
def twoConjunctions : Graph :=
  .ofLists
    [{ opcode := .ARG, type := .I32, next := some 1, parent := some 0, users := [2, 3] },
      { opcode := .CONST, type := .I32, prev := some 0, parent := some 0, users := [2, 3] },
      { opcode := .AND, type := .I32, properties := ARITHM ||| .COMMUTABLE, next := some 3, parent := some 1,
        inputs := [some 0, some 1] },
      { opcode := .AND, type := .I32, properties := ARITHM ||| .COMMUTABLE, prev := some 2, parent := some 1,
        inputs := [some 0, some 1] }]
    [{ id := 0, succs := [1], instrsCount := 2, firstInst := some 0, lastInst := some 1 },
      { id := 1, preds := [0], instrsCount := 2, firstInst := some 2, lastInst := some 3 }] []

theorem twoConjunctions_input : Input twoConjunctions 0 where
  connected := by
    refine ⟨rfl, ?_, ?_, rfl, ?_, ?_, ?_, ?_⟩ <;> decide
  lists := Lists.ofLists (fun b => ([], if b = 0 then [0, 1] else if b = 1 then [2, 3] else [])) (by decide) (by decide)
  rpo := by decide

end Peephole

end CompilerLab.Jit
