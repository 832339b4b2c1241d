import CompilerLab.Jit.Lemmas.PhiMoves

/-!
# When resolved phis are a parallel copy

The moves of an edge run one after another in the order of the phis. They are the copy that is meant exactly when no
move overwrites what a later one reads, when control gets to run them, and when only the last phi of a broken edge
needs one: after the edge is broken its old predecessor is no source of the phis any more.
-/

namespace CompilerLab.Jit

/-! ## What control runs on an edge -/

/-- The instructions after which control leaves the block. -/
def Opcode.isJump : Opcode → Bool
  | .JMP | .JCMP | .RET | .RETVOID => true
  | _ => false

namespace Graph

/-- The instructions up to the first jump. -/
def uptoJump (g : Graph) : List Nat → List Nat
  | [] => []
  | i :: l => i :: if (g.instr i).opcode.isJump then [] else uptoJump g l

/-- The instructions of a block that control runs. -/
def executed (g : Graph) (b : Nat) : List Nat := g.uptoJump (g.instrs b)

/-- Block `b` has a jump. -/
def hasJump (g : Graph) (b : Nat) : Bool := (g.instrs b).any fun i => (g.instr i).opcode.isJump

/-- The edge from `pred` to `b` of the graph `g` leads through the new blocks `ns` of `g'`. -/
def EdgePath (g g' : Graph) (b pred : Nat) (ns : List Nat) : Prop :=
  ∃ k : Nat, (g.block pred).succs[k]? = some b ∧
    ((g'.block pred).succs[k]? = some b ∧ ns = [] ∨
      ∃ n, g.blockCount ≤ n ∧ (g'.block pred).succs[k]? = some n ∧ (g'.block n).succs = [b] ∧ ns = [n])

theorem uptoJump_append_of_any {g : Graph} {l₁ l₂ : List Nat} (h : l₁.any fun i => (g.instr i).opcode.isJump) :
    g.uptoJump (l₁ ++ l₂) = g.uptoJump l₁ := by
  induction l₁ with
  | nil => cases h
  | cons i l₁ ih =>
      rw [List.cons_append, uptoJump, uptoJump]
      split
      · rfl
      · next hi => rw [ih (by simpa [hi] using h)]

theorem uptoJump_append_of_not_any {g : Graph} {l₁ l₂ : List Nat}
    (h : (l₁.any fun i => (g.instr i).opcode.isJump) = false) : g.uptoJump (l₁ ++ l₂) = l₁ ++ g.uptoJump l₂ := by
  induction l₁ with
  | nil => rfl
  | cons i l₁ ih =>
      rw [List.any_cons, Bool.or_eq_false_iff] at h
      rw [List.cons_append, uptoJump, h.1, if_neg Bool.false_ne_true, ih h.2, List.cons_append]

theorem uptoJump_sublist {g : Graph} (l : List Nat) : (g.uptoJump l).Sublist l := by
  induction l with
  | nil => exact .slnil
  | cons i l ih =>
      rw [uptoJump]
      split
      · exact (List.nil_sublist l).cons_cons i
      · exact ih.cons_cons i

end Graph

namespace LinearScan

open CompilerLab.Lib CompilerLab.Jit.Graph

/-- What executing a move does: the location written and the location read. -/
def PhiState.moveAt (s : PhiState) (i : Nat) : Option (ValueLocation × ValueLocation) := do
  let dest ← s.location i
  let input ← s.graph.getInput i 0
  let src ← s.location input
  return (dest, src)

/-- The instructions that are not in `g` and run in the given blocks. -/
def PhiState.newCode (s : PhiState) (g : Graph) (blocks : List Nat) : List Nat :=
  (blocks.flatMap s.graph.executed).filter (g.instrCount ≤ ·)

/-- On the edge from `pred` to `b`, everything inserted is executed and gives every phi the value its input has. -/
def CopiesOn (g : Graph) (s : PhiState) (b pred : Nat) : Prop :=
  ∃ ns, g.EdgePath s.graph b pred ns ∧
    (∀ c ∈ pred :: ns, ∀ i ∈ s.graph.instrs c, g.instrCount ≤ i → i ∈ s.graph.executed c) ∧
    ∀ σ : ValueLocation → Word, ∀ phi ∈ g.phis b, ∀ input dest src, g.resolveInput phi pred = some input →
      s.location phi = some dest → s.location input = some src →
      runMoves ((s.newCode g (pred :: ns)).filterMap s.moveAt) σ dest = σ src

/-! ## When it works -/

section
variable (g : Graph) (loc : Nat → Option ValueLocation)

/-- The input of the phi is not where the phi is. -/
def needsMove (phi pred : Nat) : Bool :=
  match g.resolveInput phi pred with
  | some input => loc input ≠ loc phi
  | none => false

/-- The copy meant on an edge, phi by phi. -/
def edgeMoves (b pred : Nat) : List (ValueLocation × ValueLocation) :=
  (g.phis b).filterMap fun phi => do
    let dest ← loc phi
    let input ← g.resolveInput phi pred
    let src ← loc input
    return (dest, src)

/-- Only the last phi needs a move. -/
def OnlyLastNeedsMove (b pred : Nat) : Prop := ∀ phi ∈ (g.phis b).dropLast, needsMove g loc phi pred = false

/-- The edge from `pred` to `b` is resolved by the moves in the order of the phis. -/
structure EdgeResolvable (b pred : Nat) : Prop where
  sequential : IsSequential (edgeMoves g loc b pred)
  critical : isCriticalEdge g b pred = true → OnlyLastNeedsMove g loc b pred
  jump : isCriticalEdge g b pred = false → g.hasJump pred = true → ∀ phi ∈ g.phis b, needsMove g loc phi pred = false

end

/-! ## The loops of the pass -/

/-- The phis of `b` in `reached b p` have been resolved on the edge from `p`. -/
def Progress (g : Graph) (loc : Nat → Option ValueLocation) (m : Moves) (reached : Nat → Nat → List Nat) : Prop :=
  ∀ b ∈ g.blocks, ∀ p ∈ (g.block b).preds,
    (∀ phi ∈ g.phis b, (m.move phi p).isSome = true ↔ phi ∈ reached b p ∧ needsMove g loc phi p = true) ∧
    ((m.via b p).isSome = true ↔
      isCriticalEdge g b p = true ∧ ∃ phi ∈ reached b p, needsMove g loc phi p = true)

/-- One edge gets further. -/
def reach (reached : Nat → Nat → List Nat) (b p : Nat) (phis : List Nat) (b' p' : Nat) : List Nat :=
  if b' = b ∧ p' = p then phis else reached b' p'

/-- The state inside the loop over the phis of `b`, with `done` of them resolved on the edge from `p`. -/
def OnEdge (g : Graph) (loc : Nat → Option ValueLocation) (reached : Nat → Nat → List Nat) (b p : Nat)
    (done : List Nat) (m : Moves) (s : PhiState) : Prop :=
  Resolved g loc m s ∧ Progress g loc m (reach reached b p done) ∧
    s.insertInto = if isCriticalEdge g b p then m.via b p else some p

section
variable {g : Graph} {loc : Nat → Option ValueLocation} {reached : Nat → Nat → List Nat} {m : Moves}
  {s s' : PhiState} {b p phi : Nat} {done l : List Nat}

theorem indexOf_open (h : Resolved g loc m s) (hg : Resolvable g loc) (hb : b ∈ g.blocks)
    (hp : p ∈ (g.block b).preds) (hphi : phi ∈ g.phis b) (hvia : m.via b p = none) :
    s.graph.indexOf phi p = g.indexOf phi p := by
  rw [indexOf, h.sources b hb phi hphi]
  refine idxOf_map (fun q hq hne => ?_) (by rw [Moves.last, hvia, Option.getD_none])
  rw [Moves.last]
  cases hv : m.via b q with
  | none => exact hne
  | some n =>
      have := (h.via b q n hv).1
      have := hg.blocks_lt p (hg.preds b hb p hp).1
      simp only [Option.getD_some]
      omega

/-- Once the edge is broken its old predecessor is no source of the phis. -/
theorem indexOf_broken (h : Resolved g loc m s) (hg : Resolvable g loc) (hb : b ∈ g.blocks)
    (hp : p ∈ (g.block b).preds) (hphi : phi ∈ g.phis b) (hvia : m.via b p ≠ none) :
    s.graph.getInput phi (s.graph.indexOf phi p) = none := by
  have absent : p ∉ (s.graph.instr phi).sourceBBlocks := by
    rw [h.sources b hb phi hphi, List.mem_map]
    rintro ⟨q, hq, heq⟩
    rw [Moves.last] at heq
    cases hv : m.via b q with
    | none =>
        rw [hv] at heq
        exact hvia (heq ▸ hv)
    | some n =>
        have := (h.via b q n hv).1
        have := hg.blocks_lt p (hg.preds b hb p hp).1
        simp only [hv, Option.getD_some] at heq
        omega
  rw [getInput, indexOf, List.idxOf_eq_length_iff.2 absent, h.sources b hb phi hphi, List.length_map,
    ← hg.inputs b hb phi hphi, ← h.inputs_length b hb phi hphi, List.getElem?_eq_none le_rfl]
  rfl

theorem exists_input (hg : Resolvable g loc) (hb : b ∈ g.blocks) (hp : p ∈ (g.block b).preds)
    (hphi : phi ∈ g.phis b) :
    ∃ input dest src, g.resolveInput phi p = some input ∧ input < g.instrCount ∧ loc phi = some dest ∧
      loc input = some src := by
  have hlt : g.indexOf phi p < (g.instr phi).inputs.length := by
    rw [hg.inputs b hb phi hphi]
    exact List.idxOf_lt_length_iff.2 ((hg.sources b hb phi hphi).mem_iff.2 hp)
  obtain ⟨input, heq, hin, hsrc⟩ := hg.input b hb phi hphi _ (List.getElem_mem hlt)
  obtain ⟨dest, hdest⟩ := Option.isSome_iff_exists.1 (hg.location b hb phi hphi)
  obtain ⟨src, hsrc⟩ := Option.isSome_iff_exists.1 hsrc
  exact ⟨input, dest, src, Resolved.getInput_eq (List.getElem?_eq_some_iff.2 ⟨hlt, heq⟩), hin, hdest, hsrc⟩

theorem needsMove_eq {input : Nat} {dest src : ValueLocation} (hinput : g.resolveInput phi p = some input)
    (hdest : loc phi = some dest) (hsrc : loc input = some src) : needsMove g loc phi p = decide (src ≠ dest) := by
  simp [needsMove, hinput, hdest, hsrc]

theorem Progress.skip (h : Progress g loc m (reach reached b p done)) (hphi : needsMove g loc phi p = false) :
    Progress g loc m (reach reached b p (done ++ [phi])) := by
  intro b' hb' p' hp'
  obtain ⟨hmove, hvia⟩ := h b' hb' p' hp'
  unfold reach at hmove hvia ⊢
  split at hmove
  · next heq =>
      obtain ⟨rfl, rfl⟩ := heq
      rw [if_pos ⟨rfl, rfl⟩] at hvia
      refine ⟨fun phi' hphi' => ?_, ?_⟩
      · rw [hmove phi' hphi', if_pos ⟨rfl, rfl⟩]
        grind
      · rw [hvia, if_pos ⟨rfl, rfl⟩]
        grind
  · next heq =>
      rw [if_neg heq] at hvia ⊢
      exact ⟨hmove, hvia⟩

theorem Progress.add (h : Progress g loc m (reach reached b p done)) (hg : Resolvable g loc) (hb : b ∈ g.blocks)
    (hphi : phi ∈ g.phis b) (hneeds : needsMove g loc phi p = true) {m₁ : Moves} (hmove : m₁.move = m.move)
    (hthis : (m₁.via b p).isSome = isCriticalEdge g b p)
    (hother : ∀ b' p', ¬ (b' = b ∧ p' = p) → m₁.via b' p' = m.via b' p') (i : Nat) :
    Progress g loc (m₁.addMove phi p i) (reach reached b p (done ++ [phi])) := by
  intro b' hb' p' hp'
  obtain ⟨hm, hv⟩ := h b' hb' p' hp'
  have only (hb'b : phi ∈ g.phis b') : b' = b := by
    by_contra hne
    exact (hg.layout b' hb').disjoint (hg.layout b hb) hne (List.mem_append_left _ hb'b) (List.mem_append_left _ hphi)
  unfold reach at hm hv ⊢
  by_cases heq : b' = b ∧ p' = p
  · obtain ⟨rfl, rfl⟩ := heq
    simp only [and_self, if_true] at hm hv ⊢
    refine ⟨fun phi' hphi' => ?_, ?_⟩
    · simp only [Moves.addMove, and_true]
      split
      · next heq => subst heq; simp [hneeds]
      · next heq => rw [hmove, hm phi' hphi']; simp [heq]
    · have via : (m₁.addMove phi p' i).via = m₁.via := rfl
      rw [via, hthis]
      constructor
      · intro hc
        exact ⟨hc, phi, by simp, hneeds⟩
      · exact fun hc => hc.1
  · simp only [if_neg heq] at hm hv ⊢
    refine ⟨fun phi' hphi' => ?_, ?_⟩
    · simp only [Moves.addMove]
      rw [if_neg, hmove, hm phi' hphi']
      rintro ⟨rfl, rfl⟩
      exact heq ⟨only hphi', rfl⟩
    · have via : (m₁.addMove phi p i).via = m₁.via := rfl
      rw [via, hother b' p' heq, hv]

/-- The block for the first move of an edge, or the one the moves before it went to. -/
theorem target_open (hg : Resolvable g loc) (hb : b ∈ g.blocks) (hp : p ∈ (g.block b).preds)
    (hlen : 1 < (g.block b).preds.length) (hphis : g.phis b ≠ []) (h : Resolved g loc m s) (hvia : m.via b p = none)
    (hmove : isCriticalEdge g b p = true → ∀ phi ∈ g.phis b, m.move phi p = none)
    (hinto : s.insertInto = if isCriticalEdge g b p then m.via b p else some p) :
    ∃ m₁ s₁ t, s.target b p = some (s₁, t) ∧ Resolved g loc m₁ s₁ ∧ Resolved.IsTarget g m₁ b p t ∧
      m₁.move = m.move ∧ (m₁.via b p).isSome = isCriticalEdge g b p ∧
      (∀ b' p', ¬ (b' = b ∧ p' = p) → m₁.via b' p' = m.via b' p') ∧
      (∀ j, ∃ sources, s₁.graph.instr j = { s.graph.instr j with sourceBBlocks := sources }) ∧
      s₁.graph.instrCount = s.graph.instrCount ∧ s₁.location = s.location ∧
      s₁.insertInto = if isCriticalEdge g b p then m₁.via b p else some p := by
  obtain ⟨hpb, hbp⟩ := hg.preds b hb p hp
  cases hc : isCriticalEdge g b p with
  | true =>
      rw [hc, if_pos rfl, hvia] at hinto
      obtain ⟨g', hbreak, hinstr, hic, hres⟩ := h.breakCriticalEdge hg hb hp hphis hlen hvia (hmove hc)
      refine ⟨_, _, s.graph.blockCount, ?_, hres, .inl (by simp [Moves.addVia]), rfl, by simp [Moves.addVia], ?_, hinstr,
        hic, rfl, by simp [Moves.addVia]⟩
      · simp [PhiState.target, hinto, hbreak]
      · intro b' p' hne
        simp [Moves.addVia, hne]
  | false =>
      rw [hc, if_neg Bool.false_ne_true] at hinto
      have hsucc : (g.block p).succs = [b] := by
        simp only [isCriticalEdge, hlen, decide_true, Bool.true_and, decide_eq_false_iff_not, not_lt] at hc
        exact eq_singleton_of_mem hbp hc
      exact ⟨m, s, p, by simp [PhiState.target, hinto], h, .inr ⟨hvia, rfl, hsucc⟩, rfl, by simp [hvia],
        fun _ _ _ => rfl, fun j => ⟨_, rfl⟩, rfl, rfl, by simp [hinto]⟩

/-- Resolving a phi on an edge that is not broken yet. -/
theorem resolvePhi_open (hg : Resolvable g loc) (hb : b ∈ g.blocks) (hp : p ∈ (g.block b).preds)
    (hlen : 1 < (g.block b).preds.length) (heq : g.phis b = done ++ phi :: l)
    (h : OnEdge g loc reached b p done m s) (hvia : m.via b p = none) :
    ∃ m' s', resolvePhi b p s phi = some s' ∧ OnEdge g loc reached b p (done ++ [phi]) m' s' := by
  obtain ⟨hres, hprog, hinto⟩ := h
  have hphi : phi ∈ g.phis b := by simp [heq]
  have hnodup : (g.phis b).Nodup := (hg.layout b hb).nodup.of_append_left
  have hphi_lt : phi < g.instrCount := (hg.layout b hb).lt phi (List.mem_append_left _ hphi)
  obtain ⟨input, dest, src, hinput, hin, hdest, hsrc⟩ := exists_input hg hb hp hphi
  have hneeds := needsMove_eq hinput hdest hsrc
  obtain ⟨hmoves, hvias⟩ := hprog b hb p hp
  simp only [reach, and_self, if_true] at hmoves hvias
  have hnone : ∀ phi' ∈ phi :: l, m.move phi' p = none := by
    intro phi' hphi'
    by_contra hsome
    have hmem : phi' ∈ done := ((hmoves phi' (by rw [heq]; exact List.mem_append_right _ hphi')).1
      (Option.isSome_iff_ne_none.2 hsome)).1
    rw [heq] at hnodup
    exact List.disjoint_of_nodup_append hnodup hmem hphi'
  have hget : s.graph.getInput phi (s.graph.indexOf phi p) = some input := by
    rw [indexOf_open hres hg hb hp hphi hvia, hres.input b hb phi hphi p hp, hnone phi List.mem_cons_self, hinput]
    rfl
  have hdest' : s.location phi = some dest := (hres.location phi hphi_lt).trans hdest
  have hsrc' : s.location input = some src := (hres.location input hin).trans hsrc
  simp only [resolvePhi, hdest', hget, hsrc', Option.bind_eq_bind, Option.bind_some]
  by_cases hsd : src = dest
  · rw [if_pos hsd]
    exact ⟨m, s, rfl, hres, hprog.skip (by simp [hneeds, hsd]), hinto⟩
  · rw [if_neg hsd]
    have h₀ := hres.createMOVE hg (hin.trans_le hres.instrCount)
    have hinstr := Resolved.createMOVE_instr (hin.trans_le hres.instrCount) s.graph.instrCount
    rw [if_pos rfl] at hinstr
    have hphis : g.phis b ≠ [] := List.ne_nil_of_mem hphi
    obtain ⟨m₁, s₁, t, htarget, h₁, ht, hmove₁, hthis, hother, hsame, hic, hloc, hinto₁⟩ :=
      target_open hg hb hp hlen hphis h₀ hvia (fun hc phi' hphi' => by
        by_contra hsome
        obtain ⟨hdone, hn⟩ := (hmoves phi' hphi').1 (Option.isSome_iff_ne_none.2 hsome)
        have := hvias.2 ⟨hc, phi', hdone, hn⟩
        rw [hvia] at this
        cases this) hinto
    obtain ⟨sources, hi⟩ := hsame s.graph.instrCount
    rw [hinstr] at hi
    obtain ⟨g₁, g₂, g₃, hpush, hset, hremove, hdone⟩ := h₁.pushMove (i := s.graph.instrCount) hg hb hp heq
      (hmove₁ ▸ hnone) hinput ht ⟨hres.instrCount, hic ▸ Nat.lt_succ_self _⟩
      (fun phi' p' hm => ((hres.move phi' p' _ (hmove₁ ▸ hm)).2.1).false) (hin.trans_le hres.instrCount).ne
      (by rw [hi]) (by rw [hi]) (by rw [hi]; exact ⟨rfl, rfl, rfl⟩)
    refine ⟨_, _, ?_, hdone, hprog.add hg hb hphi (by simp [hneeds, hsd]) hmove₁ hthis hother _, ?_⟩
    · have hmake : s.graph.createMOVE input = ((s.graph.createMOVE input).1, s.graph.instrCount) := rfl
      rw [indexOf_open hres hg hb hp hphi hvia, hmake]
      simp only [htarget, hpush, hset, hremove, hdest, Option.bind_some, Option.pure_def]
    · exact hinto₁

/-- Resolving a phi on an edge that has been broken reads past the end of its inputs. -/
theorem resolvePhi_broken (hg : Resolvable g loc) (hb : b ∈ g.blocks) (hp : p ∈ (g.block b).preds)
    (hphi : phi ∈ g.phis b) (h : Resolved g loc m s) (hvia : m.via b p ≠ none) : resolvePhi b p s phi = none := by
  simp only [resolvePhi, indexOf_broken h hg hb hp hphi hvia, Option.bind_eq_bind, Option.bind_none,
    Option.bind_eq_none_iff]
  exact fun _ _ => trivial

theorem isCriticalEdge_eq (hg : Resolvable g loc) (hb : b ∈ g.blocks) (hp : p ∈ (g.block b).preds)
    (h : Resolved g loc m s) : isCriticalEdge s.graph b p = isCriticalEdge g b p := by
  rw [isCriticalEdge, isCriticalEdge, h.preds b hb, h.succs p (hg.preds b hb p hp).1, List.length_map, List.length_map]

theorem reach_of_eq {phis : List Nat} (h : reached b p = phis) : reach reached b p phis = reached := by
  funext b' p'
  unfold reach
  split
  · next heq => rw [heq.1, heq.2, h]
  · rfl

/-- While the edge is not broken, no phi passed on a critical edge has needed a move. -/
theorem via_eq_none_iff (hb : b ∈ g.blocks) (hp : p ∈ (g.block b).preds)
    (h : Progress g loc m (reach reached b p done)) :
    m.via b p = none ↔ (isCriticalEdge g b p = true → ∀ phi ∈ done, needsMove g loc phi p = false) := by
  have := (h b hb p hp).2
  rw [reach, if_pos ⟨rfl, rfl⟩] at this
  rw [← not_iff_not, ← ne_eq, ← Option.isSome_iff_ne_none, this]
  simp

theorem resolvePhi_step (hg : Resolvable g loc) (hb : b ∈ g.blocks) (hp : p ∈ (g.block b).preds)
    (hlen : 1 < (g.block b).preds.length) (heq : g.phis b = done ++ phi :: l)
    (h : ∃ m, OnEdge g loc reached b p done m s) (hs : resolvePhi b p s phi = some s') :
    (isCriticalEdge g b p = true → ∀ phi ∈ done, needsMove g loc phi p = false) ∧
      ∃ m, OnEdge g loc reached b p (done ++ [phi]) m s' := by
  obtain ⟨m, hm⟩ := h
  have hvia : m.via b p = none := by
    by_contra hvia
    rw [resolvePhi_broken hg hb hp (by simp [heq]) hm.1 hvia] at hs
    cases hs
  refine ⟨(via_eq_none_iff hb hp hm.2.1).1 hvia, ?_⟩
  obtain ⟨m', s'', hs', hm'⟩ := resolvePhi_open hg hb hp hlen heq hm hvia
  exact ⟨m', Option.some.inj (hs'.symm.trans hs) ▸ hm'⟩

/-- The loop over the phis of an edge. -/
theorem resolveEdge_eq (hg : Resolvable g loc) (hb : b ∈ g.blocks) (hp : p ∈ (g.block b).preds)
    (hlen : 1 < (g.block b).preds.length) (hstart : reached b p = []) (h : Resolved g loc m s)
    (hprog : Progress g loc m reached) :
    ∃ s₀, resolveEdge b s p = (g.phis b).foldlM (resolvePhi b p) s₀ ∧ OnEdge g loc reached b p [] m s₀ := by
  have hprog' : Progress g loc m (reach reached b p []) := by rwa [reach_of_eq hstart]
  have hvia : m.via b p = none := (via_eq_none_iff hb hp hprog').2 (by simp)
  have hinto : OnEdge g loc reached b p [] m
      { s with insertInto := if isCriticalEdge s.graph b p then none else some p } := by
    refine ⟨{ h with }, hprog', ?_⟩
    rw [isCriticalEdge_eq hg hb hp h, hvia]
  refine ⟨_, ?_, hinto⟩
  have fuel : (g.phis b).length ≤ s.graph.instrCount := by
    have := (h.layout b hb).length_le
    rw [List.length_append] at this
    omega
  rw [resolveEdge, (h.layout b hb).firstPhi]
  exact Layout.forPhi_eq (P := fun done s => ∃ m, OnEdge g loc reached b p done m s)
    (fun done s ⟨m, hm⟩ => ⟨_, hm.1.layout b hb⟩)
    (fun done phi l s s' heq hP hs => (resolvePhi_step hg hb hp hlen heq hP hs).2) ⟨m, hinto⟩ fuel

/-- The loop over the phis completes when only the last phi of a critical edge needs a move. -/
theorem resolveEdge_completes (hg : Resolvable g loc) (hb : b ∈ g.blocks) (hp : p ∈ (g.block b).preds)
    (hlen : 1 < (g.block b).preds.length) (hstart : reached b p = []) (h : Resolved g loc m s)
    (hprog : Progress g loc m reached) (hlast : isCriticalEdge g b p = true → OnlyLastNeedsMove g loc b p) :
    ∃ s', resolveEdge b s p = some s' := by
  obtain ⟨s₀, heq, h₀⟩ := resolveEdge_eq hg hb hp hlen hstart h hprog
  obtain ⟨s', hs', -⟩ := foldlM_completes (P := fun done s => ∃ m, OnEdge g loc reached b p done m s)
    (f := resolvePhi b p) (l := g.phis b) (fun done phi l s hphis ⟨m, hm⟩ => by
      have hvia : m.via b p = none := (via_eq_none_iff hb hp hm.2.1).2 fun hc phi' hphi' =>
        hlast hc phi' (by rw [hphis, List.dropLast_append_cons]; exact List.mem_append_left _ hphi')
      obtain ⟨m', s', hs', hm'⟩ := resolvePhi_open hg hb hp hlen hphis hm hvia
      exact ⟨s', hs', m', hm'⟩) ⟨m, h₀⟩
  exact ⟨s', heq.trans hs'⟩

/-- What the loop over the phis leaves when it completes. -/
theorem resolveEdge_resolved (hg : Resolvable g loc) (hb : b ∈ g.blocks) (hp : p ∈ (g.block b).preds)
    (hlen : 1 < (g.block b).preds.length) (hstart : reached b p = []) (h : Resolved g loc m s)
    (hprog : Progress g loc m reached) (hs : resolveEdge b s p = some s') :
    (isCriticalEdge g b p = true → OnlyLastNeedsMove g loc b p) ∧
      ∃ m', Resolved g loc m' s' ∧ Progress g loc m' (reach reached b p (g.phis b)) := by
  obtain ⟨s₀, heq, h₀⟩ := resolveEdge_eq hg hb hp hlen hstart h hprog
  rw [heq] at hs
  obtain ⟨hlast, m', hm'⟩ := foldlM_passed
    (P := fun done s => (isCriticalEdge g b p = true → ∀ phi ∈ done.dropLast, needsMove g loc phi p = false) ∧
      ∃ m, OnEdge g loc reached b p done m s)
    (fun done phi l s s' hphis hP hs => by
      rw [List.dropLast_concat]
      exact resolvePhi_step hg hb hp hlen hphis hP.2 hs) ⟨by simp, m, h₀⟩ hs
  exact ⟨hlast, m', hm'.1, hm'.2.1⟩

/-- The edges into block `b` from `preds` get to the last phi. -/
def reachBlock (g : Graph) (reached : Nat → Nat → List Nat) (b : Nat) (preds : List Nat) (b' p' : Nat) : List Nat :=
  if b' = b ∧ p' ∈ preds then g.phis b else reached b' p'

theorem reach_reachBlock {preds : List Nat} :
    reach (reachBlock g reached b preds) b p (g.phis b) = reachBlock g reached b (preds ++ [p]) := by
  funext b' p'
  unfold reach reachBlock
  grind

/-- What a block with phis needs for `resolvePhis` to complete. -/
def BlockResolvable (g : Graph) (loc : Nat → Option ValueLocation) (b : Nat) : Prop :=
  1 < (g.block b).preds.length ∧
    ∀ p ∈ (g.block b).preds, isCriticalEdge g b p = true → OnlyLastNeedsMove g loc b p

theorem preds_eq (h : Resolved g loc m s) (hb : b ∈ g.blocks)
    (hvia : ∀ p ∈ (g.block b).preds, m.via b p = none) : (s.graph.block b).preds = (g.block b).preds := by
  rw [h.preds b hb]
  refine (List.map_congr_left fun p hp => ?_).trans (List.map_id _)
  rw [Moves.last, hvia p hp, Option.getD_none]
  rfl

theorem reachBlock_nil : reachBlock g reached b [] = reached := by
  funext b' p'
  simp [reachBlock]

theorem resolvePhis_eq (hb : b ∈ g.blocks) (hstart : ∀ p ∈ (g.block b).preds, reached b p = [])
    (h : Resolved g loc m s) (hprog : Progress g loc m reached) : resolvePhis s b =
    if 1 < (g.block b).preds.length then (g.block b).preds.foldlM (resolveEdge b) s else none := by
  have hpreds : (s.graph.block b).preds = (g.block b).preds := preds_eq h hb fun p hp =>
    have hprog' : Progress g loc m (reach reached b p []) := by rwa [reach_of_eq (hstart p hp)]
    (via_eq_none_iff hb hp hprog').2 (by simp)
  rw [resolvePhis, hpreds]
  unfold ASSERT
  split <;> rfl

theorem reachBlock_start (hg : Resolvable g loc) (hb : b ∈ g.blocks)
    (hstart : ∀ p ∈ (g.block b).preds, reached b p = []) {preds rest : List Nat}
    (heq : (g.block b).preds = preds ++ p :: rest) :
    p ∈ (g.block b).preds ∧ reachBlock g reached b preds b p = [] := by
  have hp : p ∈ (g.block b).preds := by simp [heq]
  have hnodup := hg.preds_nodup b hb
  rw [heq] at hnodup
  refine ⟨hp, ?_⟩
  rw [reachBlock, if_neg, hstart p hp]
  exact fun hmem => List.disjoint_of_nodup_append hnodup hmem.2 List.mem_cons_self

theorem resolvePhis_completes (hg : Resolvable g loc) (hb : b ∈ g.blocks)
    (hstart : ∀ p ∈ (g.block b).preds, reached b p = []) (h : Resolved g loc m s) (hprog : Progress g loc m reached)
    (hok : BlockResolvable g loc b) : ∃ s', resolvePhis s b = some s' := by
  rw [resolvePhis_eq hb hstart h hprog, if_pos hok.1]
  obtain ⟨s', hs', -⟩ := foldlM_completes
    (P := fun preds s => ∃ m, Resolved g loc m s ∧ Progress g loc m (reachBlock g reached b preds))
    (f := resolveEdge b) (l := (g.block b).preds) (fun preds p rest s heq ⟨m, hm, hprog'⟩ => by
      obtain ⟨hp, hnil⟩ := reachBlock_start hg hb hstart heq
      obtain ⟨s', hs'⟩ := resolveEdge_completes hg hb hp hok.1 hnil hm hprog' (hok.2 p hp)
      obtain ⟨-, m', hm', hprog''⟩ := resolveEdge_resolved hg hb hp hok.1 hnil hm hprog' hs'
      exact ⟨s', hs', m', hm', reach_reachBlock ▸ hprog''⟩)
    ⟨m, h, by rwa [reachBlock_nil]⟩
  exact ⟨s', hs'⟩

theorem resolvePhis_resolved (hg : Resolvable g loc) (hb : b ∈ g.blocks)
    (hstart : ∀ p ∈ (g.block b).preds, reached b p = []) (h : Resolved g loc m s) (hprog : Progress g loc m reached)
    (hs : resolvePhis s b = some s') : BlockResolvable g loc b ∧
    ∃ m', Resolved g loc m' s' ∧ Progress g loc m' (reachBlock g reached b (g.block b).preds) := by
  rw [resolvePhis_eq hb hstart h hprog] at hs
  split at hs
  · next hlen =>
      obtain ⟨hlast, hm'⟩ := foldlM_passed
        (P := fun preds s => (∀ p ∈ preds, isCriticalEdge g b p = true → OnlyLastNeedsMove g loc b p) ∧
          ∃ m, Resolved g loc m s ∧ Progress g loc m (reachBlock g reached b preds))
        (fun preds p rest s s' heq ⟨hlast, m, hm, hprog'⟩ hs' => by
          obtain ⟨hp, hnil⟩ := reachBlock_start hg hb hstart heq
          obtain ⟨hlast', m', hm', hprog''⟩ := resolveEdge_resolved hg hb hp hlen hnil hm hprog' hs'
          refine ⟨fun q hq => ?_, m', hm', reach_reachBlock ▸ hprog''⟩
          rcases List.mem_append.1 hq with hq | hq
          · exact hlast q hq
          · exact List.mem_singleton.1 hq ▸ hlast') ⟨by simp, m, h, by rwa [reachBlock_nil]⟩ hs
      exact ⟨⟨hlen, hlast⟩, hm'⟩
  · cases hs

/-! ## The whole pass -/

/-- The edges into the blocks of a list get to the last phi. -/
def reachBlocks (g : Graph) (blocks : List Nat) (b _p : Nat) : List Nat := if b ∈ blocks then g.phis b else []

/-- What `fixPhis` needs to complete. -/
def PhisResolvable (g : Graph) (loc : Nat → Option ValueLocation) (blocks : List Nat) : Prop :=
  ∀ b ∈ blocks, g.phis b ≠ [] → BlockResolvable g loc b

theorem firstPhi_isSome (hb : b ∈ g.blocks) (h : Resolved g loc m s) :
    (s.graph.block b).firstPhi.isSome = true ↔ g.phis b ≠ [] := by
  rw [(h.layout b hb).firstPhi]
  cases g.phis b <;> simp

/-- Where the pass stands after some of the blocks. -/
def Passed (g : Graph) (loc : Nat → Option ValueLocation) (blocks : List Nat) (s : PhiState) : Prop :=
  ∃ m, Resolved g loc m s ∧ Progress g loc m (reachBlocks g blocks)

theorem Progress.block {blocks : List Nat}
    (h : Progress g loc m (reachBlock g (reachBlocks g blocks) b (g.block b).preds)) :
    Progress g loc m (reachBlocks g (blocks ++ [b])) := by
  intro b' hb' p' hp'
  have heq : reachBlocks g (blocks ++ [b]) b' p' = reachBlock g (reachBlocks g blocks) b (g.block b).preds b' p' := by
    unfold reachBlock reachBlocks
    grind
  rw [heq]
  exact h b' hb' p' hp'

/-- The body of the loop over the blocks. -/
theorem fixPhis_step (hg : Resolvable g loc) {blocks rest : List Nat} (heq : g.blocks = blocks ++ b :: rest)
    (h : Passed g loc blocks s) :
    ((∃ s', (if (s.graph.block b).firstPhi.isSome then resolvePhis s b else some s) = some s') ↔
      (g.phis b ≠ [] → BlockResolvable g loc b)) ∧
    ∀ s', (if (s.graph.block b).firstPhi.isSome then resolvePhis s b else some s) = some s' →
      Passed g loc (blocks ++ [b]) s' := by
  obtain ⟨m, hres, hprog⟩ := h
  have hb : b ∈ g.blocks := by simp [heq]
  have hnot : b ∉ blocks := fun hmem => by
    have := hg.blocks_nodup
    rw [heq] at this
    exact List.disjoint_of_nodup_append this hmem List.mem_cons_self
  have hstart : ∀ p ∈ (g.block b).preds, reachBlocks g blocks b p = [] := fun p hp => if_neg hnot
  by_cases hphis : g.phis b = []
  · have hnone : ¬ (s.graph.block b).firstPhi.isSome = true := by
      rw [firstPhi_isSome hb hres]
      exact not_not.2 hphis
    rw [if_neg hnone]
    refine ⟨⟨fun _ hne => absurd hphis hne, fun _ => ⟨s, rfl⟩⟩, fun s' hs => ?_⟩
    cases hs
    refine ⟨m, hres, Progress.block (b := b) ?_⟩
    have : reachBlock g (reachBlocks g blocks) b (g.block b).preds = reachBlocks g blocks := by
      funext b' p'
      unfold reachBlock reachBlocks
      grind
    rwa [this]
  · rw [if_pos ((firstPhi_isSome hb hres).2 hphis)]
    refine ⟨⟨fun ⟨s', hs⟩ _ => (resolvePhis_resolved hg hb hstart hres hprog hs).1, fun hok =>
      resolvePhis_completes hg hb hstart hres hprog (hok hphis)⟩, fun s' hs => ?_⟩
    obtain ⟨-, m', hres', hprog'⟩ := resolvePhis_resolved hg hb hstart hres hprog hs
    exact ⟨m', hres', hprog'.block⟩

theorem fixPhis_passed (hg : Resolvable g loc) (hs : fixPhis { graph := g, location := loc } = some s) :
    PhisResolvable g loc g.blocks ∧ Passed g loc g.blocks s := by
  refine foldlM_passed (P := fun blocks s => PhisResolvable g loc blocks ∧ Passed g loc blocks s)
    (fun blocks b rest s s' heq hP hs => ?_) ⟨by simp [PhisResolvable], {}, .start hg, ?_⟩ hs
  · obtain ⟨hok, hnext⟩ := fixPhis_step hg heq hP.2
    refine ⟨fun c hc => ?_, hnext s' hs⟩
    rcases List.mem_append.1 hc with hc | hc
    · exact hP.1 c hc
    · exact List.mem_singleton.1 hc ▸ hok.1 ⟨s', hs⟩
  · intro b _ p _
    simp [reachBlocks]

theorem fixPhis_completes (hg : Resolvable g loc) (hok : PhisResolvable g loc g.blocks) :
    ∃ s, fixPhis { graph := g, location := loc } = some s := by
  obtain ⟨s, hs, -⟩ := foldlM_completes (P := Passed g loc) (l := g.blocks)
    (f := fun s b => if (s.graph.block b).firstPhi.isSome then resolvePhis s b else some s)
    (fun blocks b rest s heq hP => by
      obtain ⟨hstep, hnext⟩ := fixPhis_step hg heq hP
      obtain ⟨s', hs'⟩ := hstep.2 (hok b (by simp [heq]))
      exact ⟨s', hs', hnext s' hs'⟩) (s := { graph := g, location := loc })
    ⟨{}, .start hg, fun b _ p _ => by simp [reachBlocks]⟩
  exact ⟨s, hs⟩

/-! ## What runs on an edge -/

section
variable (hg : Resolvable g loc) (hres : Resolved g loc m s)

include hg hres in
theorem edgePath_iff (hb : b ∈ g.blocks) (hp : p ∈ (g.block b).preds) {ns : List Nat} :
    g.EdgePath s.graph b p ns ↔ ns = (m.via b p).toList := by
  obtain ⟨hpb, hbp⟩ := hg.preds b hb p hp
  obtain ⟨k, hk, hkb⟩ := List.getElem_of_mem hbp
  have hk' : (g.block p).succs[k]? = some b := List.getElem?_eq_some_iff.2 ⟨hk, hkb⟩
  have at_k {j : Nat} (hj : (g.block p).succs[j]? = some b) : (s.graph.block p).succs[j]? = some (m.head b p) := by
    rw [hres.succs p hpb, List.getElem?_map, hj]
    rfl
  have hlt := hg.blocks_lt b hb
  constructor
  · rintro ⟨j, hj, ⟨hjb, rfl⟩ | ⟨n, hn, hjn, -, rfl⟩⟩
    · rw [at_k hj, Option.some.injEq, Moves.head] at hjb
      cases hv : m.via b p with
      | none => rfl
      | some n =>
          have := (hres.via b p n hv).1
          simp only [hv, Option.getD_some] at hjb
          omega
    · rw [at_k hj, Option.some.injEq, Moves.head] at hjn
      cases hv : m.via b p with
      | none =>
          simp only [hv, Option.getD_none] at hjn
          omega
      | some n' =>
          simp only [hv, Option.getD_some] at hjn
          rw [hjn]
          rfl
  · rintro rfl
    cases hv : m.via b p with
    | none => exact ⟨k, hk', .inl ⟨by rw [at_k hk', Moves.head, hv]; rfl, rfl⟩⟩
    | some n =>
        obtain ⟨hn, -, -, hsucc, -⟩ := hres.via b p n hv
        exact ⟨k, hk', .inr ⟨n, hn, by rw [at_k hk', Moves.head, hv]; rfl, hsucc, rfl⟩⟩

include hres in
theorem mem_code {i : Nat} (hi : i ∈ m.code g b p) : g.instrCount ≤ i ∧ (s.graph.instr i).opcode = .MOVE := by
  obtain ⟨phi, -, hm⟩ := List.mem_filterMap.1 hi
  obtain ⟨h₁, -, h₂, -⟩ := hres.move phi p i hm
  exact ⟨h₁, h₂⟩

include hres in
theorem uptoJump_code : s.graph.uptoJump (m.code g b p) = m.code g b p := by
  have hmoves : ((m.code g b p).any fun i => (s.graph.instr i).opcode.isJump) = false := by
    rw [List.any_eq_false]
    intro i hi
    rw [(mem_code hres hi).2]
    decide
  rw [← List.append_nil (m.code g b p), uptoJump_append_of_not_any hmoves]
  rfl

end

section
variable (hg : Resolvable g loc) (hres : Resolved g loc m s) (hprog : Progress g loc m (reachBlocks g g.blocks))

theorem reachBlocks_all (hb : b ∈ g.blocks) : reachBlocks g g.blocks b p = g.phis b := if_pos hb

include hprog in
theorem code_eq_nil_iff (hb : b ∈ g.blocks) (hp : p ∈ (g.block b).preds) :
    m.code g b p = [] ↔ ∀ phi ∈ g.phis b, needsMove g loc phi p = false := by
  have hmoves := (hprog b hb p hp).1
  rw [reachBlocks_all hb] at hmoves
  rw [Moves.code, List.filterMap_eq_nil_iff]
  refine forall₂_congr fun phi hphi => ?_
  rw [← Option.not_isSome_iff_eq_none, hmoves phi hphi]
  simp [hphi]

include hprog in
theorem via_isSome_iff (hb : b ∈ g.blocks) (hp : p ∈ (g.block b).preds) :
    (m.via b p).isSome = true ↔ isCriticalEdge g b p = true ∧ m.code g b p ≠ [] := by
  rw [(hprog b hb p hp).2, reachBlocks_all hb, Ne, code_eq_nil_iff hprog hb hp]
  simp

include hg hprog in
/-- The moves at the end of a block are those of its only edge. -/
theorem tail_eq (hok : PhisResolvable g loc g.blocks) (hb : b ∈ g.blocks) (hphis : g.phis b ≠ [])
    (hp : p ∈ (g.block b).preds) : m.tail g p = if isCriticalEdge g b p then [] else m.code g b p := by
  obtain ⟨hpb, hbp⟩ := hg.preds b hb p hp
  have hlen := (hok b hb hphis).1
  split
  · next hc =>
      have hsuccs : 1 < (g.block p).succs.length := by
        simp only [isCriticalEdge, Bool.and_eq_true, decide_eq_true_eq] at hc
        exact hc.2
      refine List.flatMap_eq_nil_iff.2 fun d hd => ?_
      obtain ⟨hdb, hpd⟩ := hg.succs p hpb d hd
      split
      · rfl
      · next hvia =>
          by_contra hcode
          have hdphis : g.phis d ≠ [] := fun hnil => hcode (by rw [Moves.code, hnil]; rfl)
          have hdc : isCriticalEdge g d p = true := by simp [isCriticalEdge, (hok d hdb hdphis).1, hsuccs]
          exact hvia ((via_isSome_iff hprog hdb hpd).2 ⟨hdc, hcode⟩)
  · next hc =>
      have hsucc : (g.block p).succs = [b] := by
        simp only [isCriticalEdge, hlen, decide_true, Bool.true_and, decide_eq_true_eq] at hc
        exact eq_singleton_of_mem hbp (not_lt.1 hc)
      have hvia : ¬ (m.via b p).isSome = true := fun hv => hc ((via_isSome_iff hprog hb hp).1 hv).1
      simp [Moves.tail, hsucc, hvia]

include hg hres in
theorem instrs_eq (hpb : p ∈ g.blocks) : s.graph.instrs p = g.instrs p ++ m.tail g p ∧
    (∀ i ∈ g.instrs p, i < g.instrCount) ∧
      ((g.instrs p).any fun i => (s.graph.instr i).opcode.isJump) = g.hasJump p := by
  have lay := hg.layout p hpb
  have hlt : ∀ i ∈ g.instrs p, i < g.instrCount := by rw [lay.instrs_eq]; exact lay.lt
  refine ⟨by rw [(hres.layout p hpb).instrs_eq, lay.instrs_eq, List.append_assoc], hlt, ?_⟩
  rw [hasJump, Bool.eq_iff_iff, List.any_eq_true, List.any_eq_true]
  exact exists_congr fun i => and_congr_right fun hi => by rw [hres.opcode i (hlt i hi)]

include hres in
theorem mem_tail {i : Nat} (hi : i ∈ m.tail g p) : g.instrCount ≤ i ∧ (s.graph.instr i).opcode = .MOVE := by
  obtain ⟨d, -, hi⟩ := List.mem_flatMap.1 hi
  split at hi
  · cases hi
  · exact mem_code hres hi

include hg hres in
/-- A predecessor runs its moves unless it jumps before them. -/
theorem executed_new (hpb : p ∈ g.blocks) :
    (s.graph.executed p).filter (g.instrCount ≤ ·) = if g.hasJump p then [] else m.tail g p := by
  obtain ⟨hinstrs, hlt, hjump⟩ := instrs_eq hg hres hpb
  rw [executed, hinstrs]
  have old : (g.instrs p).filter (g.instrCount ≤ ·) = [] :=
    List.filter_eq_nil_iff.2 fun i hi => by simpa using hlt i hi
  split
  · next hj =>
      rw [uptoJump_append_of_any (hjump.trans hj), List.filter_eq_nil_iff]
      intro i hi
      simpa using hlt i ((uptoJump_sublist _).subset hi)
  · next hj =>
      rw [Bool.not_eq_true] at hj
      have tail : s.graph.uptoJump (m.tail g p) = m.tail g p := by
        have hmoves : ((m.tail g p).any fun i => (s.graph.instr i).opcode.isJump) = false := by
          rw [List.any_eq_false]
          intro i hi
          rw [(mem_tail hres hi).2]
          decide
        rw [← List.append_nil (m.tail g p), uptoJump_append_of_not_any hmoves]
        rfl
      rw [uptoJump_append_of_not_any (hjump.trans hj), tail, List.filter_append, old, List.nil_append,
        List.filter_eq_self]
      exact fun i hi => by simpa using (mem_tail hres hi).1

include hg hres in
theorem executed_pred_iff (hpb : p ∈ g.blocks) :
    (∀ i ∈ s.graph.instrs p, g.instrCount ≤ i → i ∈ s.graph.executed p) ↔
      (g.hasJump p = true → m.tail g p = []) := by
  obtain ⟨hinstrs, hlt, -⟩ := instrs_eq hg hres hpb
  have hnew := executed_new hg hres hpb
  constructor
  · intro h hj
    rw [if_pos hj, List.filter_eq_nil_iff] at hnew
    by_contra hne
    obtain ⟨i, hi⟩ := List.exists_mem_of_ne_nil _ hne
    have hle := (mem_tail hres hi).1
    exact hnew i (h i (by rw [hinstrs]; exact List.mem_append_right _ hi) hle) (by simpa using hle)
  · intro h i hi hle
    rw [hinstrs, List.mem_append] at hi
    have htail : i ∈ m.tail g p := hi.resolve_left fun hold => absurd (hlt i hold) hle.not_gt
    have hj : ¬ g.hasJump p = true := fun hj => by rw [h hj] at htail; cases htail
    rw [if_neg hj] at hnew
    rw [← hnew] at htail
    exact List.mem_of_mem_filter htail

include hres in
theorem executed_via {n : Nat} (hv : m.via b p = some n) :
    s.graph.instrs n = m.code g b p ∧ s.graph.executed n = m.code g b p := by
  have hinstrs : s.graph.instrs n = m.code g b p := (hres.via b p n hv).2.2.1.instrs_eq
  exact ⟨hinstrs, by rw [executed, hinstrs, uptoJump_code hres]⟩

include hg hres hprog in
/-- Everything inserted on the edge is executed, unless the predecessor jumps before its moves. -/
theorem allExecuted_iff (hok : PhisResolvable g loc g.blocks) (hb : b ∈ g.blocks) (hphis : g.phis b ≠ [])
    (hp : p ∈ (g.block b).preds) :
    (∀ c ∈ p :: (m.via b p).toList, ∀ i ∈ s.graph.instrs c, g.instrCount ≤ i → i ∈ s.graph.executed c) ↔
      (isCriticalEdge g b p = false → g.hasJump p = true → m.code g b p = []) := by
  have via : ∀ c ∈ (m.via b p).toList, ∀ i ∈ s.graph.instrs c, g.instrCount ≤ i → i ∈ s.graph.executed c := by
    intro c hc i hi _
    obtain ⟨h₁, h₂⟩ := executed_via hres (Option.mem_toList.1 hc)
    rwa [h₂, ← h₁]
  rw [List.forall_mem_cons, and_iff_left via, executed_pred_iff hg hres (hg.preds b hb p hp).1,
    tail_eq hg hprog hok hb hphis hp]
  cases isCriticalEdge g b p <;> simp

include hg hres hprog in
theorem newCode_eq (hok : PhisResolvable g loc g.blocks) (hb : b ∈ g.blocks) (hphis : g.phis b ≠ [])
    (hp : p ∈ (g.block b).preds) (hjump : isCriticalEdge g b p = false → g.hasJump p = true → m.code g b p = []) :
    s.newCode g (p :: (m.via b p).toList) = m.code g b p := by
  rw [PhiState.newCode, List.flatMap_cons, List.filter_append, executed_new hg hres (hg.preds b hb p hp).1,
    tail_eq hg hprog hok hb hphis hp]
  have new : (m.code g b p).filter (g.instrCount ≤ ·) = m.code g b p :=
    List.filter_eq_self.2 fun i hi => by simpa using (mem_code hres hi).1
  cases hv : m.via b p with
  | none =>
      have hnot := mt (via_isSome_iff hprog hb hp).2 (by simp [hv])
      cases hc : isCriticalEdge g b p with
      | true =>
          have hcode : m.code g b p = [] := by simpa [hc] using hnot
          simp [hcode]
      | false =>
          cases hj : g.hasJump p with
          | true => simp [hjump hc hj]
          | false => simp
  | some n =>
      have hc := ((via_isSome_iff hprog hb hp).1 (by simp [hv])).1
      simp only [hc, Option.toList_some, List.flatMap_cons, List.flatMap_nil, List.append_nil,
        (executed_via hres hv).2, new, if_true]
      split <;> rfl

include hg hres hprog in
/-- The moves that are made are those of the copy that change a location. -/
theorem moves_code (hb : b ∈ g.blocks) (hp : p ∈ (g.block b).preds) :
    (m.code g b p).filterMap s.moveAt = (edgeMoves g loc b p).filter fun mv => mv.1 ≠ mv.2 := by
  rw [Moves.code, edgeMoves, List.filterMap_filterMap, List.filter_filterMap]
  refine List.filterMap_congr fun phi hphi => ?_
  obtain ⟨input, dest, src, hinput, hin, hdest, hsrc⟩ := exists_input hg hb hp hphi
  have hmove := (hprog b hb p hp).1 phi hphi
  rw [reachBlocks_all hb, needsMove_eq hinput hdest hsrc] at hmove
  simp only [hdest, hinput, hsrc, Option.bind_eq_bind, Option.bind_some, Option.pure_def]
  by_cases hsd : src = dest
  · have hnone : m.move phi p = none := by simpa [hsd] using hmove
    simp [hnone, hsd, Option.filter]
  · obtain ⟨i, hi⟩ := Option.isSome_iff_exists.1 (hmove.2 ⟨hphi, by simpa using hsd⟩)
    obtain ⟨-, -, -, hget, hloc⟩ := hres.move phi p i hi
    simp [hi, PhiState.moveAt, hloc, hdest, hget, hinput, hres.location input hin, hsrc, Ne.symm hsd, Option.filter]

include hg hres hprog in
/-- One edge is a parallel copy exactly when its moves are sequential and are executed. -/
theorem copiesOn_iff (hok : PhisResolvable g loc g.blocks) (hb : b ∈ g.blocks) (hphis : g.phis b ≠ [])
    (hp : p ∈ (g.block b).preds) : CopiesOn g s b p ↔ IsSequential (edgeMoves g loc b p) ∧
      (isCriticalEdge g b p = false → g.hasJump p = true → ∀ phi ∈ g.phis b, needsMove g loc phi p = false) := by
  have : Nontrivial Word := ⟨0, 1, by decide⟩
  rw [← code_eq_nil_iff hprog hb hp, ← isParallel_iff_isSequential (V := Word), and_comm, CopiesOn]
  simp only [edgePath_iff hg hres hb hp, exists_eq_left, allExecuted_iff hg hres hprog hok hb hphis hp]
  refine and_congr_right fun hjump => ?_
  rw [newCode_eq hg hres hprog hok hb hphis hp hjump, moves_code hg hres hprog hb hp]
  refine forall_congr' fun σ => ?_
  rw [runMoves_filter]
  have hlocation i (hi : i < g.instrCount) := hres.location i hi
  constructor
  · intro h mv hmv
    obtain ⟨phi, hphi, hmv⟩ := List.mem_filterMap.1 hmv
    obtain ⟨input, dest, src, hinput, hin, hdest, hsrc⟩ := exists_input hg hb hp hphi
    have hphi_lt := (hg.layout b hb).lt phi (List.mem_append_left _ hphi)
    simp only [hdest, hinput, hsrc, Option.bind_eq_bind, Option.bind_some, Option.pure_def, Option.some.injEq] at hmv
    subst hmv
    exact h phi hphi input dest src hinput ((hlocation phi hphi_lt).trans hdest) ((hlocation input hin).trans hsrc)
  · intro h phi hphi input dest src hinput hdest hsrc
    obtain ⟨input', dest', src', hinput', hin', hdest', hsrc'⟩ := exists_input hg hb hp hphi
    have hphi_lt := (hg.layout b hb).lt phi (List.mem_append_left _ hphi)
    obtain rfl : input = input' := Option.some.inj (hinput.symm.trans hinput')
    obtain rfl : dest = dest' := Option.some.inj (hdest.symm.trans ((hlocation phi hphi_lt).trans hdest'))
    obtain rfl : src = src' := Option.some.inj (hsrc.symm.trans ((hlocation input hin').trans hsrc'))
    exact h (dest, src) (List.mem_filterMap.2 ⟨phi, hphi, by simp [hdest', hinput', hsrc']⟩)

end

/-! ## The result -/

/-- The pass makes every edge into a block with phis a parallel copy exactly when the moves of every edge, in the order
of the phis, are sequential and executed, and only the last phi needs one on a critical edge. -/
theorem fix_phis_parallel_iff (h : Resolvable g loc) :
    (∃ s, fixPhis { graph := g, location := loc } = some s ∧
      ∀ b ∈ g.blocks, g.phis b ≠ [] → ∀ pred ∈ (g.block b).preds, CopiesOn g s b pred) ↔
    ∀ b ∈ g.blocks, g.phis b ≠ [] → 1 < (g.block b).preds.length ∧
      ∀ pred ∈ (g.block b).preds, EdgeResolvable g loc b pred := by
  constructor
  · rintro ⟨s, hs, hcopies⟩ b hb hphis
    obtain ⟨hok, m, hres, hprog⟩ := fixPhis_passed h hs
    refine ⟨(hok b hb hphis).1, fun p hp => ?_⟩
    obtain ⟨hseq, hjump⟩ := (copiesOn_iff h hres hprog hok hb hphis hp).1 (hcopies b hb hphis p hp)
    exact ⟨hseq, (hok b hb hphis).2 p hp, hjump⟩
  · intro hedges
    have hok : PhisResolvable g loc g.blocks := fun b hb hphis =>
      ⟨(hedges b hb hphis).1, fun p hp => ((hedges b hb hphis).2 p hp).critical⟩
    obtain ⟨s, hs⟩ := fixPhis_completes h hok
    obtain ⟨-, m, hres, hprog⟩ := fixPhis_passed h hs
    refine ⟨s, hs, fun b hb hphis p hp => ?_⟩
    obtain ⟨hseq, -, hjump⟩ := (hedges b hb hphis).2 p hp
    exact (copiesOn_iff h hres hprog hok hb hphis hp).2 ⟨hseq, hjump⟩

/-! ## A loop that permutes its phis -/

/-- `a = x; b = y; while (..) { (a, b) = (b, next); }`: the phis are 2 and 3, and the loop goes back from block 2. -/
def loopGraph (next : Nat) : Graph := .ofLists
  [{ opcode := .ARG, type := .I32, next := some 1, parent := some 0, users := [2] },
    { opcode := .ARG, type := .I32, prev := some 0, parent := some 0, users := [3] },
    { opcode := .PHI, type := .I32, next := some 3, parent := some 1, users := [2, 3], properties := .INPUT,
      inputs := [some 0, some 3], sourceBBlocks := [0, 2] },
    { opcode := .PHI, type := .I32, prev := some 2, parent := some 1, users := [2, 3], properties := .INPUT,
      inputs := [some 1, some next], sourceBBlocks := [0, 2] }]
  [{ id := 0, succs := [1], instrsCount := 2, firstInst := some 0, lastInst := some 1, loop := some 0 },
    { id := 1, preds := [0, 2], succs := [2, 3], instrsCount := 2, firstPhi := some 2, lastPhi := some 3,
      loop := some 1 },
    { id := 2, preds := [1], succs := [1], loop := some 1 },
    { id := 3, preds := [1], loop := some 0 }]
  [{ header := none, basicBlocks := [0, 3], innerLoops := [1], isIrreducible := false, isRoot := true },
    { header := some 1, backEdges := [2], basicBlocks := [1, 2], outerLoop := some 0, isIrreducible := false }]

/-- The phis live in the registers of the arguments. -/
def loopLocation (i : Nat) : Option ValueLocation := some ⟨.REGISTER, i % 2⟩

theorem loopGraph_resolvable {next : Nat} (hnext : next = 2 ∨ next = 3) :
    Resolvable (loopGraph next) loopLocation := by
  have inputs : ∀ b ∈ (loopGraph next).blocks, ∀ phi ∈ (loopGraph next).phis b,
      ∀ x ∈ ((loopGraph next).instr phi).inputs, ∃ i < 4, x = some i := by
    rcases hnext with rfl | rfl <;> decide
  have users : ∀ b ∈ (loopGraph next).blocks, ∀ phi ∈ (loopGraph next).phis b, ∀ i < 4,
      ((loopGraph next).instr phi).inputs.count (some i) ≤ ((loopGraph next).instr i).users.count phi := by
    rcases hnext with rfl | rfl <;> decide
  exact
    { layout := by rcases hnext with rfl | rfl <;> decide
      blocks_lt := by rcases hnext with rfl | rfl <;> decide
      blocks_nodup := by rcases hnext with rfl | rfl <;> decide
      preds := by rcases hnext with rfl | rfl <;> decide
      succs := by rcases hnext with rfl | rfl <;> decide
      preds_nodup := by rcases hnext with rfl | rfl <;> decide
      succs_nodup := by rcases hnext with rfl | rfl <;> decide
      loop := by rcases hnext with rfl | rfl <;> decide
      loops := fun l c hc => by
        match l with
        | 0 => revert c; rcases hnext with rfl | rfl <;> decide
        | 1 => revert c; rcases hnext with rfl | rfl <;> decide
        | _ + 2 => simp [loopGraph, Graph.ofLists] at hc
      sources := by rcases hnext with rfl | rfl <;> decide
      inputs := by rcases hnext with rfl | rfl <;> decide
      input := fun b hb phi hphi x hx => by
        obtain ⟨i, hi, rfl⟩ := inputs b hb phi hphi x hx
        exact ⟨i, rfl, hi, rfl⟩
      location := fun _ _ _ _ => rfl
      users := fun b hb phi hphi i => by
        by_cases hi : i < 4
        · exact users b hb phi hphi i hi
        · rw [List.count_eq_zero_of_not_mem]
          · exact Nat.zero_le _
          · intro hmem
            obtain ⟨j, hj, heq⟩ := inputs b hb phi hphi _ hmem
            cases heq
            exact hi hj }

theorem fix_phis_parallel_keeping : ∃ s, fixPhis { graph := loopGraph 3, location := loopLocation } = some s ∧
    ∀ b ∈ (loopGraph 3).blocks, (loopGraph 3).phis b ≠ [] → ∀ pred ∈ ((loopGraph 3).block b).preds,
      CopiesOn (loopGraph 3) s b pred :=
  (fix_phis_parallel_iff (loopGraph_resolvable (.inr rfl))).2 (by
    have hedges : ∀ b ∈ (loopGraph 3).blocks, (loopGraph 3).phis b ≠ [] →
        1 < ((loopGraph 3).block b).preds.length ∧ ∀ p ∈ ((loopGraph 3).block b).preds,
          IsSequential (edgeMoves (loopGraph 3) loopLocation b p) ∧ isCriticalEdge (loopGraph 3) b p = false ∧
            (loopGraph 3).hasJump p = false := by decide
    intro b hb hphis
    refine ⟨(hedges b hb hphis).1, fun p hp => ?_⟩
    obtain ⟨hseq, hc, hj⟩ := (hedges b hb hphis).2 p hp
    exact ⟨hseq, fun h => by simp [hc] at h, fun _ h => by simp [hj] at h⟩)

/-- Swapping two phis loses the first. -/
theorem fix_phis_swap_wrong : Resolvable (loopGraph 2) loopLocation ∧
    ¬ ∃ s, fixPhis { graph := loopGraph 2, location := loopLocation } = some s ∧
      ∀ b ∈ (loopGraph 2).blocks, (loopGraph 2).phis b ≠ [] → ∀ pred ∈ ((loopGraph 2).block b).preds,
        CopiesOn (loopGraph 2) s b pred := by
  have hg := loopGraph_resolvable (.inl rfl)
  refine ⟨hg, ?_⟩
  rintro ⟨s, hs, hcopies⟩
  obtain ⟨hok, m, hres, hprog⟩ := fixPhis_passed hg hs
  have hseq := ((copiesOn_iff hg hres hprog hok (b := 1) (p := 2) (by decide) (by decide) (by decide)).1
    (hcopies 1 (by decide) (by decide) 2 (by decide))).1
  exact absurd hseq (by decide)

end

end LinearScan

end CompilerLab.Jit
