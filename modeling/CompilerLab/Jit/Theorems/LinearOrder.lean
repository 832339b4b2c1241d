import CompilerLab.Jit.Lemmas.LinearOrder
import CompilerLab.Jit.Theorems.LinearOrdering

/-!
# Results on the linear order

The search of the loop analysis leaves the blocks in a postorder. A block waits for the sources of forward edges only, so
the last block of that order that were missing would have been queued by the block it was found from: none is missing.
Which block comes after a branch is decided when its successors are queued.
-/

namespace CompilerLab.Jit.LinearOrdering

open CompilerLab.Lib Graph

variable {g g' : Graph} {first b c f n p t x z : Nat} {s s' s₀ : State} {a : Action} {as bs : List Action}
  {order l q : List Nat}

/-- The next block after `b` in the order is `f`. -/
def Next (order : List Nat) (b f : Nat) : Prop := [b, f] <:+: order

/-- `g'` has the blocks of `g` in a linear order: each of them once, the first block first, numbered by their places, and
each branch, unless a jump was made for it, followed by its false successor. -/
structure LinearOrder (g g' : Graph) : Prop where
  nodup : g'.blocks.Nodup
  complete : ∀ b ∈ g.blocks, b ∈ g'.blocks
  jumps : ∀ b ∈ g'.blocks, b ∈ g.blocks ∨ g.blockCount ≤ b ∧ ∃ c, (g'.block b).succs = [c]
  first : g'.blocks.head? = g.firstBlock
  numbered : ∀ i b, g'.blocks[i]? = some b → (g'.block b).id = i
  falls : ∀ b ∈ g'.blocks, ∀ t f, (g'.block b).succs = [t, f] → f ∈ g.blocks → Next g'.blocks b f

/-- When the successors `t` and `f` of `b` are queued, the false one gets to the front of the queue, and the true one not
before it. -/
def State.FalseNext (s : State) (b t f : Nat) : Prop :=
  ((s.graph.block f).loop = (s.graph.block b).loop ∨ s.remainedBlocks.head? = some f ∨
    s.unvisitedForwardEdgesExist f = some false ∧ ∀ x ∈ s.remainedBlocks.head?, s.Deeper f x) ∧
  (s.visited t = true ∨ s.unvisitedForwardEdgesExist t = some true ∨ ¬ s.Deeper t f)

/-! ## The graph -/

/-- A graph before its loops are known. -/
structure Arrangeable (g : Graph) (first : Nat) : Prop where
  connected : g.WellConnected first
  succs : ∀ b ∈ g.blocks, (g.block b).succs.Nodup ∧ (g.block b).succs.length ≤ 2
  loops : ∀ b ∈ g.blocks, (g.block b).loop = none
  unused : ∀ b, g.blockCount ≤ b → (g.block b).dominator = none

/-- A graph with the loops the analysis has found, which left its blocks in this order. -/
structure Arranged (g : Graph) (first : Nat) (order : List Nat) : Prop where
  connected : g.WellConnected first
  succs : ∀ b ∈ g.blocks, (g.block b).succs.Nodup ∧ (g.block b).succs.length ≤ 2
  unused : ∀ b, g.blockCount ≤ b → (g.block b).dominator = none
  mem : ∀ b, b ∈ order ↔ b ∈ g.blocks
  postorder : Postorder g.Edge g.Marked first order

theorem Arrangeable.analyze (hg : Arrangeable g first) (h : LoopAnalyzer.analyze g = some g') :
    ∃ order, Arranged g' first order := by
  obtain ⟨order, ha⟩ := LoopAnalyzer.analyze_analyzed hg.connected hg.loops h
  have hblocks : g'.blocks = g.blocks := ha.only.blocks
  have hcount : g'.blockCount = g.blockCount := ha.only.blockCount
  have hblock : ∀ b, g'.block b = { g.block b with loop := (g'.block b).loop } := ha.only.block
  have hfirst := congrArg Graph.firstBlock ha.only.graph
  have hbblocks := congrArg Graph.bblocks ha.only.graph
  have hunlinked := congrArg Graph.unlinkedInstructionsCounter ha.only.graph
  have hsuccs : ∀ b, (g'.block b).succs = (g.block b).succs := fun b => by rw [hblock]
  have hpreds : ∀ b, (g'.block b).preds = (g.block b).preds := fun b => by rw [hblock]
  have hedge : g'.Edge = g.Edge := by
    funext b c
    rw [Edge, Edge, hsuccs]
  refine ⟨order, ⟨hg.connected.congr hfirst hbblocks hcount hunlinked hsuccs hpreds, ?_, ?_, ?_, ?_⟩⟩
  · simp only [hblocks, hsuccs]
    exact hg.succs
  · intro b hb
    rw [hblock]
    exact hg.unused b (hcount ▸ hb)
  · rw [hblocks]
    exact ha.mem
  · rw [hedge]
    exact ha.postorder

/-- The graph of the ordering has jumps that the graph it started from has not. Blocks that are not visited are as they
were. -/
structure Extended (g : Graph) (s : State) : Prop where
  blockCount : g.blockCount ≤ s.graph.blockCount
  blocks : ∀ b, b ∈ s.graph.blocks ↔ b ∈ g.blocks ∨ g.blockCount ≤ b ∧ b < s.graph.blockCount
  edges : ∀ b ∈ g.blocks, s.visited b = false →
    (s.graph.block b).succs = (g.block b).succs ∧ (s.graph.block b).preds = (g.block b).preds
  pending : ∀ b, s.pending = some b → b ∈ g.blocks ∧ s.visited b = true ∧ (s.graph.block b).succs.Perm (g.block b).succs
  loop : ∀ b ∈ g.blocks, (s.graph.block b).loop = (g.block b).loop
  loops : ∀ l, (s.graph.loop l).header = (g.loop l).header ∧ (s.graph.loop l).isIrreducible = (g.loop l).isIrreducible
  dominator : ∀ b, (s.graph.block b).dominator = (g.block b).dominator
  firstBlock : s.graph.firstBlock = g.firstBlock
  jumps : ∀ b, g.blockCount ≤ b → b < s.graph.blockCount → ∃ c, (s.graph.block b).succs = [c] ∧ s.visited c = true
  listed : ∀ b, g.blockCount ≤ b → b < s.graph.blockCount → s.visited b = true ∨ b ∈ s.remainedBlocks
  queued : ∀ b, s.visited b = true ∨ b ∈ s.remainedBlocks → b ∈ s.graph.blocks

namespace Extended

theorem lt (hg : Arranged g first order) (h : Extended g s) (hb : b ∈ s.graph.blocks) : b < s.graph.blockCount := by
  rcases (h.blocks b).1 hb with hb | ⟨-, hb⟩
  · exact (hg.connected.lt b hb).trans_le h.blockCount
  · exact hb

theorem mem_of_two (h : Extended g s) (hb : b ∈ s.graph.blocks) (hs : (s.graph.block b).succs = [t, f]) : b ∈ g.blocks := by
  refine ((h.blocks b).1 hb).resolve_right fun hj => ?_
  obtain ⟨c, hc, -⟩ := h.jumps b hj.1 hj.2
  rw [hs] at hc
  cases hc

/-- A step that leaves the graph as it is. -/
theorem same (h : Extended g s) (hgraph : s'.graph = s.graph) (hv : ∀ b, s.visited b = true → s'.visited b = true)
    (hp : ∀ b, s'.pending = some b → s.pending = some b ∨
      b ∈ g.blocks ∧ s'.visited b = true ∧ (s.graph.block b).succs.Perm (g.block b).succs)
    (hl : ∀ b ∈ s.remainedBlocks, s'.visited b = true ∨ b ∈ s'.remainedBlocks)
    (hq : ∀ b, s'.visited b = true ∨ b ∈ s'.remainedBlocks → b ∈ s.graph.blocks) : Extended g s' where
  blockCount := hgraph ▸ h.blockCount
  blocks := hgraph ▸ h.blocks
  edges b hb hbv := by
    rw [hgraph]
    exact h.edges b hb (Bool.eq_false_iff.2 fun hbv' => Bool.false_ne_true (hbv.symm.trans (hv b hbv')))
  pending b hb := by
    rw [hgraph]
    rcases hp b hb with hb | hb
    · obtain ⟨h₁, h₂, h₃⟩ := h.pending b hb
      exact ⟨h₁, hv b h₂, h₃⟩
    · exact hb
  loop := hgraph ▸ h.loop
  loops := hgraph ▸ h.loops
  dominator := hgraph ▸ h.dominator
  firstBlock := hgraph ▸ h.firstBlock
  jumps b hb hlt := by
    rw [hgraph] at hlt ⊢
    exact (h.jumps b hb hlt).imp fun c hc => ⟨hc.1, hv c hc.2⟩
  listed b hb hlt := by
    rw [hgraph] at hlt
    rcases h.listed b hb hlt with hb | hb
    · exact .inl (hv b hb)
    · exact hl b hb
  queued b hb := hgraph ▸ hq b hb

theorem visiting {rest : List Nat} {pending : Option Nat} (h : Extended g s) (hq : s.remainedBlocks = b :: rest)
    (hp : ∀ c, pending = some c → c = b ∧ b ∈ g.blocks ∧ (s.graph.block b).succs = (g.block b).succs)
    (hsub : rest ⊆ q) (hnew : ∀ c ∈ q, c ∈ rest ∨ c ∈ s.graph.blocks) : Extended g (s.visiting b q pending) := by
  have hb : b ∈ s.graph.blocks := h.queued b (.inr (by simp [hq]))
  have hrest : ∀ c ∈ rest, c ∈ s.graph.blocks := fun c hc => h.queued c (.inr (by simp [hq, hc]))
  have hvisited : ∀ c, (s.visiting b q pending).visited c = true ↔ c = b ∨ s.visited c = true := by
    intro c
    by_cases hcb : c = b <;> simp [State.visiting, hcb]
  refine h.same rfl (fun c hc => (hvisited c).2 (.inr hc)) (fun c hc => ?_) (fun c hc => ?_) (fun c hc => ?_)
  · obtain ⟨rfl, hc', hs⟩ := hp c hc
    exact .inr ⟨hc', (hvisited c).2 (.inl rfl), by rw [hs]⟩
  · rw [hq, List.mem_cons] at hc
    exact hc.imp (fun hc => (hvisited c).2 (.inl hc)) fun hc => hsub hc
  · rcases hc with hc | hc
    · rcases (hvisited c).1 hc with rfl | hc
      · exact hb
      · exact h.queued c (.inl hc)
    · exact (hnew c hc).elim (hrest c) id

theorem jump (hg : Arranged g first order) (h : Extended g s) (hp : s.pending = some b) (hf : s.visited f = true)
    (hj : State.insertJmpBlock s.graph b f = some (g', n)) :
    n = s.graph.blockCount ∧ PutsJump s.graph b f g' ∧ Extended g
      { s with graph := g', remainedBlocks := n :: s.remainedBlocks, cfgChanged := true, pending := none } := by
  obtain ⟨hb, hbv, -⟩ := h.pending b hp
  have hblt : b < s.graph.blockCount := h.lt hg (h.queued b (.inl hbv))
  have hflt : f < s.graph.blockCount := h.lt hg (h.queued f (.inl hf))
  obtain ⟨rfl, hput⟩ := insertJmpBlock_putsJump hblt hflt hj
  have hold : ∀ c ∈ g.blocks, c ≠ s.graph.blockCount := fun c hc =>
    ((hg.connected.lt c hc).trans_le h.blockCount).ne
  have hblocks : ∀ c, c ∈ g'.blocks ↔ c ∈ s.graph.blocks ∨ c = s.graph.blockCount := by
    intro c
    rw [Graph.blocks, Graph.blocks, hput.bblocks]
    simp
  refine ⟨rfl, hput, ?_, fun c => ?_, fun c hc hcv => ?_, by simp, fun c hc => ?_, fun l => ?_, fun c => ?_, ?_,
    fun c hc hlt => ?_, fun c hc hlt => ?_, fun c hc => ?_⟩
  · exact h.blockCount.trans (by rw [hput.blockCount]; exact Nat.le_succ _)
  · rw [hblocks, h.blocks, hput.blockCount]
    have := h.blockCount
    grind
  · have hcb : c ≠ b := fun hcb => Bool.false_ne_true (hcv.symm.trans (hcb ▸ hbv))
    have hcf : c ≠ f := fun hcf => Bool.false_ne_true (hcv.symm.trans (hcf ▸ hf))
    obtain ⟨hs, hp⟩ := h.edges c hc hcv
    exact ⟨by rw [hput.succs c (hold c hc), if_neg hcb, hs], by rw [hput.preds c (hold c hc), if_neg hcf, hp]⟩
  · rw [hput.loop c (hold c hc)]
    exact h.loop c hc
  · obtain ⟨hh, hi⟩ := hput.loops l
    obtain ⟨hh', hi'⟩ := h.loops l
    exact ⟨hh.trans hh', hi.trans hi'⟩
  · by_cases hcn : c = s.graph.blockCount
    · subst hcn
      rw [hput.new.2.2, hg.unused _ h.blockCount]
    · rw [hput.dominator c hcn]
      exact h.dominator c
  · exact hput.firstBlock.trans h.firstBlock
  · by_cases hcn : c = s.graph.blockCount
    · exact ⟨f, hcn ▸ hput.new.2.1, hf⟩
    · have hcb : c ≠ b := fun hcb => absurd (hg.connected.lt b hb) (by omega)
      obtain ⟨d, hd, hdv⟩ := h.jumps c hc (by rw [hput.blockCount] at hlt; omega)
      exact ⟨d, by rw [hput.succs c hcn, if_neg hcb, hd], hdv⟩
  · by_cases hcn : c = s.graph.blockCount
    · exact .inr (by simp [hcn])
    · rw [hput.blockCount] at hlt
      exact (h.listed c hc (by omega)).imp_right (List.mem_cons_of_mem _)
  · rw [hblocks]
    rcases hc with hc | hc
    · exact .inl (h.queued c (.inl hc))
    · exact (List.mem_cons.1 hc).symm.imp (fun hc => h.queued c (.inr hc)) id

theorem inverse (h : Extended g s) (hp : s.pending = some b) (hs : (s.graph.block b).succs = [t, f])
    (hi : s.graph.inverseConditionalBranch b = some g') :
    (g'.block b).succs = [f, t] ∧ (∀ c, c ≠ b → g'.block c = s.graph.block c) ∧ Extended g { s with graph := g' } := by
  obtain ⟨hblock, hcount, hblocks, hfirst, hloop⟩ := inverseConditionalBranch_frame hs hi
  refine ⟨by rw [hblock, if_pos rfl], fun c hc => by rw [hblock, if_neg hc], hcount ▸ h.blockCount, ?_, fun c hc hcv => ?_,
    fun c hc => ?_, fun c hc => ?_, hloop ▸ h.loops, fun c => ?_, hfirst.trans h.firstBlock, fun c hc hlt => ?_,
    hcount ▸ h.listed, hblocks ▸ h.queued⟩
  · rw [hblocks, hcount]
    exact h.blocks
  · have hcb : c ≠ b := fun hcb => Bool.false_ne_true (hcv.symm.trans (hcb ▸ (h.pending b hp).2.1))
    rw [hblock, if_neg hcb]
    exact h.edges c hc hcv
  · obtain rfl : b = c := Option.some.inj (hp.symm.trans hc)
    obtain ⟨hb, hbv, hperm⟩ := h.pending b hp
    rw [hs] at hperm
    rw [hblock, if_pos rfl]
    exact ⟨hb, hbv, (List.Perm.swap t f []).trans hperm⟩
  · rw [hblock]
    exact h.loop c hc
  · rw [hblock]
    exact h.dominator c
  · rw [hcount] at hlt
    have hcb : c ≠ b := by
      rintro rfl
      obtain ⟨d, hd, -⟩ := h.jumps c hc hlt
      rw [hs] at hd
      cases hd
    rw [hblock, if_neg hcb]
    exact h.jumps c hc hlt

end Extended

/-! ## The order -/

/-- The order lists the visited blocks, the first block first and the block whose successors are to be queued last. -/
structure Ordered (first : Nat) (s : State) : Prop where
  visited : ∀ b, s.visited b = true ↔ b ∈ s.newOrder
  nodup : s.newOrder.Nodup
  pending : ∀ b, s.pending = some b → s.newOrder.getLast? = some b
  first : s.newOrder.head? = some first ∨ s.newOrder = [] ∧ s.remainedBlocks = [first] ∧ s.pending = none

theorem Ordered.visiting {rest : List Nat} {pending : Option Nat} (h : Ordered first s) (hq : s.remainedBlocks = b :: rest)
    (hv : s.visited b = false) (hp : ∀ c, pending = some c → c = b) : Ordered first (s.visiting b q pending) := by
  have hb : b ∉ s.newOrder := fun hb => Bool.false_ne_true (hv.symm.trans ((h.visited b).2 hb))
  refine ⟨fun c => ?_, ?_, fun c hc => ?_, .inl ?_⟩
  · by_cases hcb : c = b <;> simp [State.visiting, hcb, h.visited]
  · exact List.nodup_append.2 ⟨h.nodup, List.nodup_singleton b, fun x hx y hy hxy =>
      hb (List.mem_singleton.1 hy ▸ hxy ▸ hx)⟩
  · simp [State.visiting, hp c hc]
  · rcases h.first with hf | ⟨hnil, hone, -⟩
    · simp [State.visiting, List.head?_append, hf]
    · rw [hq] at hone
      simp [State.visiting, hnil, (List.cons.inj hone).1]

/-! ## Blocks that wait -/

/-- The block `z` waits for a block that is not visited, on an edge that does not lead back. -/
def Waiting (g : Graph) (V : Nat → Bool) (z : Nat) : Prop :=
  ∃ p ∈ g.blocks, g.Edge p z ∧ V p = false ∧ ¬ g.Marked p z

theorem Extended.waiting (hg : Arranged g first order) (h : Extended g s) (hz : z ∈ g.blocks) (hv : s.visited z = false)
    (hu : s.unvisitedForwardEdgesExist z = some true) : Waiting g s.visited z := by
  obtain ⟨-, hpreds⟩ := h.edges z hz hv
  simp only [State.unvisitedForwardEdgesExist, Option.bind_eq_bind, Option.bind_eq_some_iff, Option.pure_def] at hu
  obtain ⟨l, hl, hu⟩ := hu
  rw [h.loop z hz] at hl
  split at hu
  · cases hu
  next hirr =>
    have hsource : ∃ p ∈ (g.block z).preds, s.visited p = false ∧
        ((g.loop l).header = some z → s.graph.dominates z p = false) := by
      have hheader : s.graph.isLoopHeader z = ((g.loop l).header == some z) := by
        rw [Graph.isLoopHeader, h.loop z hz, hl, ← (h.loops l).1]
      rw [hpreds, hheader] at hu
      split at hu
      · obtain ⟨p, hp, hpv⟩ := List.any_eq_true.1 (Option.some.inj hu)
        simp only [Bool.and_eq_true, Bool.not_eq_true'] at hpv
        exact ⟨p, hp, hpv.2, fun _ => hpv.1⟩
      · next hh =>
          obtain ⟨p, hp, hpv⟩ := List.any_eq_true.1 (Option.some.inj hu)
          exact ⟨p, hp, by simpa using hpv, fun hz => absurd (beq_iff_eq.2 hz) hh⟩
    obtain ⟨p, hp, hpv, hdom⟩ := hsource
    have hmem := hg.connected.pred_mem z hz p hp
    refine ⟨p, hmem, (hg.connected.edges p hmem z hz).2 hp, hpv, ?_⟩
    rintro ⟨k, hk, -, hh, hi⟩
    obtain rfl := Option.some.inj (hl.symm.trans hk)
    rw [(h.loops l).2] at hirr
    have hd := dominates_mono h.dominator h.blockCount (hi.resolve_left hirr)
    exact Bool.false_ne_true ((hdom hh).symm.trans hd)

/-- A block that has been found and is not queued waits. -/
def Waits (g : Graph) (s : State) : Prop :=
  ∀ z ∈ g.blocks, s.visited z = false → z ∉ s.remainedBlocks → (∀ b, s.pending = some b → z ∉ (s.graph.block b).succs) →
    (∃ p ∈ g.blocks, g.Edge p z ∧ s.visited p = true) → Waiting g s.visited z

/-- The successors of the visited block are visited, queued, still to be queued, or they wait. -/
theorem Waits.visiting {pending : Option Nat} (hw : Waits g s) (hp : s.pending = none)
    (hq : s.remainedBlocks = b :: l) (hsub : l ⊆ q)
    (hnext : ∀ z ∈ g.blocks, g.Edge b z → b ∈ g.blocks → (s.visiting b q pending).visited z = false → z ∉ q →
      (∀ c, pending = some c → z ∉ (s.graph.block c).succs) → Waiting g (s.visiting b q pending).visited z) :
    Waits g (s.visiting b q pending) := by
  intro z hz hzv hzq hzp ⟨p, hpm, hpz, hpv⟩
  have hvisited : ∀ c, (s.visiting b q pending).visited c = false ↔ c ≠ b ∧ s.visited c = false := by
    intro c
    by_cases hcb : c = b <;> simp [State.visiting, hcb]
  by_cases hbz : b ∈ g.blocks ∧ g.Edge b z
  · exact hnext z hz hbz.2 hbz.1 hzv hzq hzp
  · obtain ⟨hzb, hzv'⟩ := (hvisited z).1 hzv
    have hpb : p ≠ b := fun hpb => hbz (hpb ▸ ⟨hpm, hpz⟩)
    have hpv' : s.visited p = true := by
      rw [← Bool.not_eq_false]
      exact fun hpf => Bool.false_ne_true (((hvisited p).2 ⟨hpb, hpf⟩).symm.trans hpv)
    have hzrem : z ∉ s.remainedBlocks := by
      rw [hq, List.mem_cons, not_or]
      exact ⟨hzb, fun hzl => hzq (hsub hzl)⟩
    obtain ⟨r, hr, hrz, hrv, hm⟩ := hw z hz hzv' hzrem (by simp [hp]) ⟨p, hpm, hpz, hpv'⟩
    exact ⟨r, hr, hrz, (hvisited r).2 ⟨fun hrb => hbz (hrb ▸ ⟨hr, hrz⟩), hrv⟩, hm⟩

/-- What holds after each step. -/
structure Arranging (g : Graph) (first : Nat) (s : State) : Prop where
  extended : Extended g s
  ordered : Ordered first s
  waits : Waits g s

theorem Arranging.start (hg : Arranged g first order) (hs : LinearOrdering.start g = some s) : Arranging g first s := by
  simp only [LinearOrdering.start, hg.connected.firstBlock, Option.bind_eq_bind, Option.bind_some, Option.pure_def,
    Option.some.injEq] at hs
  subst hs
  refine ⟨⟨le_rfl, fun b => ?_, fun _ _ _ => ⟨rfl, rfl⟩, by simp, fun _ _ => rfl, fun _ => ⟨rfl, rfl⟩, fun _ => rfl, rfl,
    fun b hb hlt => absurd hlt hb.not_gt, fun b hb hlt => absurd hlt hb.not_gt, fun b hb => ?_⟩,
    ⟨by simp, .nil, by simp, .inr ⟨rfl, rfl, rfl⟩⟩, ?_⟩
  · exact ⟨.inl, fun h => h.resolve_right fun h => h.2.not_ge h.1⟩
  · obtain rfl : b = first := by simpa using hb
    exact hg.connected.first_mem
  · rintro z - - - - ⟨p, -, -, hp⟩
    cases hp

theorem Arranging.mem_succs (hg : Arranged g first order) (h : Arranging g first s) (hp : s.pending = some b)
    (hs : (s.graph.block b).succs = [t, f]) : t ∈ g.blocks ∧ f ∈ g.blocks := by
  obtain ⟨hb, -, hperm⟩ := h.extended.pending b hp
  rw [hs] at hperm
  exact ⟨hg.connected.succ_mem b hb t (hperm.mem_iff.1 (by simp)), hg.connected.succ_mem b hb f (hperm.mem_iff.1 (by simp))⟩

theorem Arranging.distinct (hg : Arranged g first order) (h : Arranging g first s) (hp : s.pending = some b)
    (hs : (s.graph.block b).succs = [t, f]) : t ≠ f := by
  obtain ⟨hb, -, hperm⟩ := h.extended.pending b hp
  have hnodup := hperm.nodup_iff.2 (hg.succs b hb).1
  rw [hs] at hnodup
  simpa using hnodup

theorem Arranging.head (h : Arranging g first s) (hp : s.pending = some b) : s.newOrder.head? = some first := by
  refine h.ordered.first.resolve_right ?_
  rintro ⟨-, -, hnone⟩
  rw [hp] at hnone
  cases hnone

theorem Arranging.step (hg : Arranged g first order) (h : Arranging g first s) (hstep : Step s a s') :
    Arranging g first s' := by
  have he := h.extended
  have ho := h.ordered
  have hw := h.waits
  have hsuccs : ∀ {b : Nat} {rest : List Nat}, s.remainedBlocks = b :: rest → s.visited b = false → b ∈ g.blocks →
      (s.graph.block b).succs = (g.block b).succs := fun _ hv hb => (he.edges _ hb hv).1
  cases step_moves hstep with
  | @visitOne b c rest q hp hq hv hs hnext =>
      have hsub : rest ⊆ q := by
        rcases hnext with ⟨-, rfl⟩ | rfl
        · exact List.Subset.refl _
        · exact List.subset_cons_self c rest
      have hc : c ∈ s.graph.blocks := by
        rcases (he.blocks b).1 (he.queued b (.inr (by simp [hq]))) with hb | ⟨hle, hlt⟩
        · rw [hsuccs hq hv hb] at hs
          exact (he.blocks c).2 (.inl (hg.connected.succ_mem b hb c (by simp [hs])))
        · obtain ⟨d, hd, hdv⟩ := he.jumps b hle hlt
          rw [hs, List.cons.injEq] at hd
          exact he.queued c (.inl (hd.1 ▸ hdv))
      have he' : Extended g (s.visiting b q none) := he.visiting hq (by simp) hsub fun x hx => by
        rcases hnext with ⟨-, rfl⟩ | rfl
        · exact .inl hx
        · rcases List.mem_cons.1 hx with rfl | hx
          · exact .inr hc
          · exact .inl hx
      refine ⟨he', ho.visiting hq hv (by simp), hw.visiting hp hq hsub fun z hz hbz hb hzv hzq _ => ?_⟩
      rw [Edge, ← hsuccs hq hv hb, hs, List.mem_singleton] at hbz
      subst hbz
      rcases hnext with ⟨hz' | hz', rfl⟩ | rfl
      · exact absurd (hzv.symm.trans hz') Bool.false_ne_true
      · exact he'.waiting hg hz hzv hz'
      · exact absurd List.mem_cons_self hzq
  | @visitTwo b t f rest hp hq hv hs =>
      have hb : b ∈ g.blocks := he.mem_of_two (he.queued b (.inr (by simp [hq]))) hs
      refine ⟨he.visiting hq (fun c hc => ?_) (List.Subset.refl _) fun _ => .inl, ho.visiting hq hv fun c hc => ?_,
        hw.visiting hp hq (List.Subset.refl _) fun z _ hbz hb _ _ hnot => ?_⟩
      · exact ⟨(Option.some.inj hc).symm, hb, hsuccs hq hv hb⟩
      · exact (Option.some.inj hc).symm
      · rw [Edge, ← hsuccs hq hv hb] at hbz
        exact absurd hbz (hnot b rfl)
  | @visitEnd b rest hp hq hv hs =>
      refine ⟨he.visiting hq (by simp) (List.Subset.refl _) fun _ => .inl, ho.visiting hq hv (by simp),
        hw.visiting hp hq (List.Subset.refl _) fun z _ hbz hb _ _ _ => ?_⟩
      rw [hsuccs hq hv hb] at hs
      rcases hs with hs | hs
      · rw [Edge, hs] at hbz
        cases hbz
      · exact absurd (hg.succs b hb).2 hs.not_ge
  | @jump b t f n g₁ hp hs ht hf hj =>
      obtain ⟨-, -, he'⟩ := he.jump hg hp hf hj
      refine ⟨he', ⟨ho.visited, ho.nodup, by simp, .inl (h.head hp)⟩, fun z hz hzv hzq _ hp' => ?_⟩
      refine hw z hz hzv (fun hzq' => hzq (List.mem_cons_of_mem n hzq')) (fun c hc hzc => ?_) hp'
      obtain rfl : b = c := Option.some.inj (hp.symm.trans hc)
      rw [hs] at hzc
      simp only [List.mem_cons, List.not_mem_nil, or_false] at hzc
      rcases hzc with rfl | rfl
      · exact Bool.false_ne_true (hzv.symm.trans ht)
      · exact Bool.false_ne_true (hzv.symm.trans hf)
  | @inverse b t f g₁ hp hs hi =>
      obtain ⟨hs', -, he'⟩ := he.inverse hp hs hi
      refine ⟨he', ⟨ho.visited, ho.nodup, ho.pending, ho.first⟩, fun z hz hzv hzq hzp hp' => ?_⟩
      refine hw z hz hzv hzq (fun c hc hzc => hzp c hc ?_) hp'
      obtain rfl : b = c := Option.some.inj (hp.symm.trans hc)
      rw [hs] at hzc
      rw [hs']
      exact (List.Perm.swap t f []).mem_iff.2 hzc
  | @queue b t f q q' hp hs hf hadd hadd' =>
      obtain ⟨htm, hfm⟩ := h.mem_succs hg hp hs
      have hsub : ∀ x ∈ s.remainedBlocks, x ∈ q := by
        rcases hadd with ⟨-, hadd⟩ | ⟨-, rfl⟩
        · exact fun x hx => hadd.mem hx
        · exact fun x hx => List.mem_cons_of_mem f hx
      have hnew : ∀ x ∈ q, x = f ∨ x ∈ s.remainedBlocks := by
        rcases hadd with ⟨-, hadd⟩ | ⟨-, rfl⟩
        · exact fun x hx => hadd.subset hx
        · exact fun x hx => List.mem_cons.1 hx
      have hmem : ∀ x, x = t ∨ x = f → x ∈ s.graph.blocks := by
        rintro x (rfl | rfl)
        · exact (he.blocks x).2 (.inl htm)
        · exact (he.blocks x).2 (.inl hfm)
      have he' : Extended g { s with remainedBlocks := q', pending := none } := by
        refine he.same rfl (fun _ => id) (by simp) (fun x hx => .inr (hadd'.mem (hsub x hx))) fun x hx => ?_
        rcases hx with hx | hx
        · exact he.queued x (.inl hx)
        · rcases hadd'.subset hx with hx | hx
          · exact hmem x (.inl hx)
          · exact (hnew x hx).elim (fun hx => hmem x (.inr hx)) fun hx => he.queued x (.inr hx)
      refine ⟨he', ⟨ho.visited, ho.nodup, by simp, .inl (h.head hp)⟩, fun z hz hzv hzq _ hp' => ?_⟩
      by_cases hzt : z = t
      · subst hzt
        have hz' := (hadd'.self hzq).resolve_left fun hzv' => Bool.false_ne_true (hzv.symm.trans hzv')
        exact Extended.waiting (s := s) hg he hz hzv hz'
      · by_cases hzf : z = f
        · subst hzf
          have hzq' : z ∉ q := fun hzq' => hzq (hadd'.mem hzq')
          rcases hadd with ⟨-, hadd⟩ | ⟨-, rfl⟩
          · have hz' := (hadd.self hzq').resolve_left fun hzv' => Bool.false_ne_true (hzv.symm.trans hzv')
            exact Extended.waiting (s := s) hg he hz hzv hz'
          · exact absurd List.mem_cons_self hzq'
        · refine hw z hz hzv (fun hzq' => hzq (hadd'.mem (hsub z hzq'))) (fun c hc hzc => ?_) hp'
          obtain rfl : b = c := Option.some.inj (hp.symm.trans hc)
          rw [hs] at hzc
          simp only [List.mem_cons, List.not_mem_nil, or_false] at hzc
          exact hzc.elim hzt hzf

theorem Arranging.run (hg : Arranged g first order) (hs : LinearOrdering.start g = some s₀) (hr : Run Step s₀ as s) :
    Arranging g first s :=
  hr.invariant (P := fun _ => Arranging g first) (.start hg hs) fun h hstep => h.step hg hstep

/-- Nothing waits when the queue is empty: every block is in the order. -/
theorem Arranging.complete (hg : Arranged g first order) (h : Arranging g first s) (hd : s.done = true) (hb : b ∈ g.blocks) :
    b ∈ s.newOrder := by
  simp only [State.done, Bool.and_eq_true, beq_iff_eq] at hd
  obtain ⟨hpend, hrem⟩ := hd
  have hroot : s.visited first = true := by
    refine (h.ordered.visited first).2 ?_
    rcases h.ordered.first with hf | ⟨-, hone, -⟩
    · exact List.mem_of_mem_head? hf
    · rw [hrem] at hone
      cases hone
  rw [← h.ordered.visited]
  refine hg.postorder.complete (V := fun b => s.visited b = true) hroot (fun z hz hzv => ?_) b ((hg.mem b).2 hb)
  rintro ⟨p, hp, hpz, hpv⟩
  obtain ⟨r, hr, hrz, hrv, hm⟩ := h.waits z ((hg.mem z).1 hz) (Bool.eq_false_iff.2 hzv) (by simp [hrem]) (by simp [hpend])
    ⟨p, (hg.mem p).1 hp, hpz, hpv⟩
  exact ⟨r, (hg.mem r).2 hr, hrz, Bool.eq_false_iff.1 hrv, hm⟩

/-! ## What comes next -/

theorem next_concat : Next (l ++ [x]) b f ↔ Next l b f ∨ l.getLast? = some b ∧ x = f := by
  rw [Next, List.infix_concat_iff, List.suffix_concat_iff, or_comm]
  refine or_congr_right ?_
  constructor
  · rintro (h | ⟨t, ht, hs⟩)
    · cases h
    · have happ : [b] ++ [f] = t ++ [x] := ht
      obtain ⟨rfl, hx⟩ := List.append_inj' happ rfl
      obtain ⟨m, rfl⟩ := hs
      exact ⟨by simp, (List.cons.inj hx).1.symm⟩
  · rintro ⟨hl, rfl⟩
    refine .inr ⟨[b], rfl, ?_⟩
    obtain ⟨m, rfl⟩ := List.getLast?_eq_some_iff.1 hl
    exact List.suffix_append m [b]

theorem not_next_of_last (hn : l.Nodup) (hl : l.getLast? = some b) : ¬ Next l b f := by
  obtain ⟨m, rfl⟩ := List.getLast?_eq_some_iff.1 hl
  have hb : b ∉ m := (List.nodup_append_comm.1 hn).notMem
  rw [next_concat]
  rintro (hnext | ⟨hlast, -⟩)
  · exact hb (hnext.subset List.mem_cons_self)
  · exact hb (List.mem_of_getLast? hlast)

/-- The successors of the visited block `b` are not changed any more. -/
structure Settled (s : State) (b t f : Nat) : Prop where
  mem : b ∈ s.newOrder
  pending : s.pending ≠ some b
  succs : (s.graph.block b).succs = [t, f]

/-- The block after `b` is `f`, or will be. -/
def Coming (s : State) (b f : Nat) : Prop :=
  Next s.newOrder b f ∨ s.newOrder.getLast? = some b ∧ s.remainedBlocks.head? = some f

theorem Settled.visiting {rest : List Nat} {pending : Option Nat} (h : Ordered first s) (hs : Settled s b t f)
    (hq : s.remainedBlocks = x :: rest) (hv : s.visited x = false) (hp : ∀ c, pending = some c → c = x) :
    Settled (s.visiting x q pending) b t f ∧ (Coming (s.visiting x q pending) b f ↔ Coming s b f) := by
  have hxb : x ≠ b := fun hxb => Bool.false_ne_true (hv.symm.trans ((h.visited x).2 (hxb ▸ hs.mem)))
  refine ⟨⟨List.mem_append_left _ hs.mem, fun hb => hxb (hp b hb).symm, hs.succs⟩, ?_⟩
  simp only [Coming, State.visiting, next_concat, List.getLast?_append, List.getLast?_singleton, Option.some_or,
    Option.some.injEq, hxb, false_and, or_false, hq, List.head?_cons]

/-- What a step does to the successors of other blocks, what comes next is not changed by it. -/
theorem Settled.other (h : Ordered first s) (hs : Settled s b t f) (hc : s.pending = some c) (hc' : s'.pending = none ∨
    s'.pending = some c) (ho : s'.newOrder = s.newOrder) (hsuccs : (s'.graph.block b).succs = (s.graph.block b).succs) :
    Settled s' b t f ∧ (Coming s' b f ↔ Coming s b f) := by
  have hcb : c ≠ b := fun hcb => hs.pending (hcb ▸ hc)
  have hlast : s.newOrder.getLast? ≠ some b := by
    rw [h.pending c hc]
    exact fun h => hcb (Option.some.inj h)
  refine ⟨⟨ho ▸ hs.mem, fun hb => ?_, hsuccs.trans hs.succs⟩, by simp [Coming, ho, hlast]⟩
  rcases hc' with hc' | hc'
  · rw [hc'] at hb
    cases hb
  · exact hcb (Option.some.inj (hc'.symm.trans hb))

theorem Settled.step (hg : Arranged g first order) (h : Arranging g first s) (hs : Settled s b t f) (hstep : Step s a s') :
    Settled s' b t f ∧ (Coming s' b f ↔ Coming s b f) := by
  cases step_moves hstep with
  | visitOne _ hq hv _ _ => exact hs.visiting h.ordered hq hv (by simp)
  | visitTwo _ hq hv _ => exact hs.visiting h.ordered hq hv fun c hc => (Option.some.inj hc).symm
  | visitEnd _ hq hv _ => exact hs.visiting h.ordered hq hv (by simp)
  | @jump c t' f' n g₁ hp hs' _ hf hj =>
      obtain ⟨rfl, hput, -⟩ := h.extended.jump hg hp hf hj
      have hb : b ≠ s.graph.blockCount :=
        (h.extended.lt hg (h.extended.queued b (.inl ((h.ordered.visited b).2 hs.mem)))).ne
      have hbc : b ≠ c := fun hbc => hs.pending (hbc ▸ hp)
      exact hs.other h.ordered hp (.inl rfl) rfl (by rw [hput.succs b hb, if_neg hbc])
  | @inverse c t' f' g₁ hp hs' hi =>
      obtain ⟨-, hblock, -⟩ := h.extended.inverse hp hs' hi
      have hbc : b ≠ c := fun hbc => hs.pending (hbc ▸ hp)
      exact hs.other h.ordered hp (.inr hp) rfl (by rw [hblock b hbc])
  | queue hp _ _ _ _ => exact hs.other h.ordered hp (.inl rfl) rfl rfl

theorem Settled.run (hg : Arranged g first order) (h : Arranging g first s) (hs : Settled s b t f) (hr : Run Step s as s') :
    Settled s' b t f ∧ (Coming s' b f ↔ Coming s b f) := by
  have hrun := hr.invariant (P := fun _ u => Arranging g first u ∧ Settled u b t f ∧ (Coming u b f ↔ Coming s b f))
    ⟨h, hs, Iff.rfl⟩ fun ⟨hu, hsu, hcu⟩ hstep =>
      have hnext := hsu.step hg hu hstep
      ⟨hu.step hg hstep, hnext.1, hnext.2.trans hcu⟩
  exact hrun.2

/-- When the successors are queued it is settled which one comes next. -/
theorem Arranging.queue (hg : Arranged g first order) (h : Arranging g first s) (hstep : Step s (.queue b) s')
    (hs : (s.graph.block b).succs = [t, f]) : Settled s' b t f ∧ f ∈ g.blocks ∧ (Coming s' b f ↔ s.FalseNext b t f) := by
  cases step_moves hstep with
  | @queue _ t' f' q q' hp hs' hf hadd hadd' =>
      rw [hs, List.cons.injEq, List.cons.injEq] at hs'
      obtain ⟨rfl, rfl, -⟩ := hs'
      have hne := h.distinct hg hp hs
      have hlast := h.ordered.pending b hp
      refine ⟨⟨List.mem_of_getLast? hlast, by simp, hs⟩, (h.mem_succs hg hp hs).2, ?_⟩
      have hfront : q.head? = some f ↔ (s.graph.block f).loop = (s.graph.block b).loop ∨ s.remainedBlocks.head? = some f ∨
          s.unvisitedForwardEdgesExist f = some false ∧ ∀ x ∈ s.remainedBlocks.head?, s.Deeper f x := by
        rcases hadd with ⟨hloop, hadd⟩ | ⟨hloop, rfl⟩
        · simp only [hloop, false_or, hadd.head_eq_self hf]
        · simp [hloop]
      rw [Coming, State.FalseNext, ← hfront, ← hadd'.head_eq_other hne]
      simp [hlast, not_next_of_last h.ordered.nodup hlast]

/-- The branches whose successors are settled are followed by their false successors. -/
def Falls (g : Graph) (s : State) : Prop := ∀ b t f, Settled s b t f → f ∈ g.blocks → Coming s b f

theorem Falls.step (hg : Arranged g first order) (h : Arranging g first s) (hfalls : Falls g s) (hstep : Step s a s')
    (hnext : ∀ b t f, a = .queue b → (s.graph.block b).succs = [t, f] → s.FalseNext b t f) : Falls g s' := by
  intro b t f hs hf
  -- a branch that was settled before the step
  have old : Settled s b t f → Coming s' b f := fun hs => (hs.step hg h hstep).2.2 (hfalls b t f hs hf)
  have visited : ∀ {x : Nat} {q : List Nat} {pending : Option Nat}, s.pending = none → b ≠ x →
      Settled (s.visiting x q pending) b t f → Settled s b t f := by
    intro x q pending hp hbx hs
    refine ⟨(List.mem_append.1 hs.mem).resolve_right ?_, by simp [hp], hs.succs⟩
    simpa using hbx
  cases step_moves hstep with
  | @visitOne x c rest q hp _ _ hs' _ =>
      refine old (visited hp ?_ hs)
      rintro rfl
      cases hs'.symm.trans hs.succs
  | @visitTwo x _ _ rest hp _ _ _ =>
      refine old (visited hp ?_ hs)
      rintro rfl
      exact hs.pending rfl
  | @visitEnd x rest hp _ _ hs' =>
      refine old (visited hp ?_ hs)
      rintro rfl
      have hsuccs : (s.graph.block b).succs = [t, f] := hs.succs
      rw [hsuccs] at hs'
      simp at hs'
  | @jump c t' f' n g₁ hp hs' _ hfv hj =>
      obtain ⟨rfl, hput, -⟩ := h.extended.jump hg hp hfv hj
      have hold : ∀ d ∈ s.graph.blocks, d ≠ s.graph.blockCount := fun d hd => (h.extended.lt hg hd).ne
      have hb := hold b (h.extended.queued b (.inl ((h.ordered.visited b).2 hs.mem)))
      by_cases hbc : b = c
      · -- the false successor is the jump now
        subst hbc
        have hne : (f' == t') = false := by simpa using (h.distinct hg hp hs').symm
        have hsuccs : (g₁.block b).succs = [t, f] := hs.succs
        rw [hput.succs b hb, if_pos rfl, hs', List.replace_cons, hne, List.replace_cons_self] at hsuccs
        obtain rfl := (List.cons.inj (List.cons.inj hsuccs).2).1
        exact absurd rfl (hold _ ((h.extended.blocks _).2 (.inl hf)))
      · refine old ⟨hs.mem, fun hb => hbc (Option.some.inj (hb.symm.trans hp)), ?_⟩
        have hsuccs : (g₁.block b).succs = [t, f] := hs.succs
        rwa [hput.succs b hb, if_neg hbc] at hsuccs
  | @inverse c t' f' g₁ hp hs' hi =>
      obtain ⟨-, hblock, -⟩ := h.extended.inverse hp hs' hi
      have hbc : b ≠ c := fun hbc => hs.pending (hbc ▸ hp)
      refine old ⟨hs.mem, hs.pending, ?_⟩
      rw [← hblock b hbc]
      exact hs.succs
  | @queue c t' f' q q' hp hs' _ _ _ =>
      by_cases hbc : b = c
      · subst hbc
        exact (h.queue hg hstep hs.succs).2.2.2 (hnext b t f rfl hs.succs)
      · exact old ⟨hs.mem, fun hb => hbc (Option.some.inj (hb.symm.trans hp)), hs.succs⟩

/-! ## The new order -/

theorem setNewOrder_id {l : List Nat} (hn : l.Nodup) (g : Graph) :
    ∀ i b, l[i]? = some b → ((g.setNewOrder l).block b).id = i := by
  have fold : ∀ (l : List (Nat × Nat)) (g : Graph), (l.map Prod.fst).Nodup →
      let g' := l.foldl (fun g p => g.modifyBlock p.1 fun x => { x with id := p.2 }) g
      (∀ p ∈ l, (g'.block p.1).id = p.2) ∧ ∀ c, c ∉ l.map Prod.fst → (g'.block c).id = (g.block c).id := by
    intro l
    induction l with
    | nil => exact fun g _ => ⟨List.forall_mem_nil _, fun _ _ => rfl⟩
    | cons p l ih =>
        intro g hn
        obtain ⟨hp, hn⟩ := List.nodup_cons.1 hn
        obtain ⟨hmem, hother⟩ := ih (g.modifyBlock p.1 fun x => { x with id := p.2 }) hn
        refine ⟨List.forall_mem_cons.2 ⟨?_, hmem⟩, fun c hc => ?_⟩
        · rw [List.foldl_cons, hother p.1 hp, modifyBlock_block_self]
        · rw [List.map_cons, List.mem_cons, not_or] at hc
          rw [List.foldl_cons, hother c hc.2, modifyBlock_block_ne _ _ hc.1]
  intro i b hb
  have hmap : l.zipIdx.map Prod.fst = l := by simp
  exact (fold l.zipIdx g (hmap.symm ▸ hn)).1 (b, i) (List.mem_zipIdx_iff_getElem?.2 hb)

theorem setNewOrder_blocks (g : Graph) (l : List Nat) : (g.setNewOrder l).blocks = l := by
  simp [Graph.setNewOrder, Graph.blocks]

theorem orderBlocks_done {fuel : Nat} (h : orderBlocks fuel s = some s') : s'.done = true := by
  induction fuel generalizing s with
  | zero =>
      simp only [orderBlocks] at h
      split at h
      · next hd =>
          cases h
          exact hd
      · cases h
  | succ n ih =>
      simp only [orderBlocks] at h
      split at h
      · next hd =>
          cases h
          exact hd
      · simp only [Option.bind_eq_bind, Option.bind_eq_some_iff] at h
        obtain ⟨_, -, h⟩ := h
        exact ih h

/-- Everything the order promises, but the places of the false successors, holds of every graph. -/
theorem Arranging.linearOrder (hg : Arranged g first order) (h : Arranging g first s) (hd : s.done = true) :
    LinearOrder g (s.graph.setNewOrder s.newOrder) ↔ Falls g s := by
  have hdone := hd
  simp only [State.done, Bool.and_eq_true, beq_iff_eq] at hdone
  obtain ⟨hpend, hrem⟩ := hdone
  have hblocks := setNewOrder_blocks s.graph s.newOrder
  have hsuccs : ∀ b, ((s.graph.setNewOrder s.newOrder).block b).succs = (s.graph.block b).succs := fun b =>
    ((setNewOrder_frame s.graph s.newOrder).2 b).1
  have hfalls : (∀ b ∈ s.newOrder, ∀ t f, (s.graph.block b).succs = [t, f] → f ∈ g.blocks → Next s.newOrder b f) ↔
      Falls g s := by
    simp only [Falls, Coming, hrem, List.head?_nil, reduceCtorEq, and_false, or_false]
    exact ⟨fun hall b t f hs hf => hall b hs.mem t f hs.succs hf,
      fun hall b hb t f hs hf => hall b t f ⟨hb, by simp [hpend], hs⟩ hf⟩
  rw [← hfalls]
  refine ⟨fun hl => ?_, fun hall => ⟨?_, ?_, ?_, ?_, ?_, ?_⟩⟩
  · have hl' := hl.falls
    rw [hblocks] at hl'
    simpa only [hsuccs] using hl'
  · rw [hblocks]
    exact h.ordered.nodup
  · rw [hblocks]
    exact fun b => h.complete hg hd
  · rw [hblocks]
    intro b hb
    have hmem := h.extended.queued b (.inl ((h.ordered.visited b).2 hb))
    refine ((h.extended.blocks b).1 hmem).imp_right fun hj => ⟨hj.1, ?_⟩
    obtain ⟨c, hc, -⟩ := h.extended.jumps b hj.1 hj.2
    exact ⟨c, (hsuccs b).trans hc⟩
  · rw [hblocks, hg.connected.firstBlock]
    refine h.ordered.first.resolve_right ?_
    rintro ⟨-, hone, -⟩
    rw [hrem] at hone
    cases hone
  · rw [hblocks]
    exact setNewOrder_id h.ordered.nodup s.graph
  · rw [hblocks]
    simpa only [hsuccs] using hall

theorem Falls.run (hg : Arranged g first order) (hs : LinearOrdering.start g = some s₀) (hr : Run Step s₀ as s)
    (hnext : ∀ as s b s' t f, Run Step s₀ as s → Step s (.queue b) s' → (s.graph.block b).succs = [t, f] →
      s.FalseNext b t f) : Falls g s := by
  have hnone : Falls g s₀ := by
    simp only [LinearOrdering.start, hg.connected.firstBlock, Option.bind_eq_bind, Option.bind_some, Option.pure_def,
      Option.some.injEq] at hs
    rw [← hs]
    exact fun b t f hb => absurd hb.mem List.not_mem_nil
  refine (hr.invariant (P := fun as u => Run Step s₀ as u ∧ Falls g u) ⟨.nil, hnone⟩ ?_).2
  rintro as u b u' ⟨hu, hfalls⟩ hstep
  exact ⟨hu.snoc hstep, hfalls.step hg (.run hg hs hu) hstep fun b t f ha hb => hnext _ _ b _ t f hu (ha ▸ hstep) hb⟩

theorem step_unique {a' : Action} {u u' : State} (h : Step s a u) (h' : Step s a' u') : u = u' :=
  (Prod.mk.inj (Option.some.inj (h.symm.trans h'))).2

/-- The pass, when it ends, makes a linear order of any graph exactly when the false successor gets to the front of the
queue each time the successors of a branch are queued. -/
theorem linear_order_iff {g₀ : Graph} {fuel : Nat} (hg₀ : Arrangeable g₀ first) (ha : LoopAnalyzer.analyze g₀ = some g)
    (hr : run fuel g = some g') : LinearOrder g g' ↔
      ∀ s₀ as s b s' t f, LinearOrdering.start g = some s₀ → Run Step s₀ as s → Step s (.queue b) s' →
        (s.graph.block b).succs = [t, f] → s.FalseNext b t f := by
  obtain ⟨order, hg⟩ := hg₀.analyze ha
  simp only [LinearOrdering.run, Option.bind_eq_bind, Option.bind_eq_some_iff, Option.pure_def, Option.some.injEq] at hr
  obtain ⟨s₀, hs₀, e, he, rfl⟩ := hr
  obtain ⟨es, hrun⟩ := orderBlocks_run he
  have hdone := orderBlocks_done he
  have hend : Arranging g first e := .run hg hs₀ hrun
  rw [hend.linearOrder hg hdone]
  constructor
  · intro hfalls s₀' as s b s' t f hs₀' hs hstep hsuccs
    obtain rfl := Option.some.inj (hs₀.symm.trans hs₀')
    have harr : Arranging g first s := .run hg hs₀ hs
    obtain ⟨hset, hf, hcoming⟩ := harr.queue hg hstep hsuccs
    have hstuck : ∀ a v, ¬ Step e a v := by
      simp only [State.done, Bool.and_eq_true, beq_iff_eq] at hdone
      intro a v hv
      simp [Step, State.step, hdone] at hv
    -- the run passes the state behind the step
    obtain ⟨cs, hcs⟩ := (hs.snoc hstep).continues (R := Step) (fun h h' => step_unique h h') hrun hstuck
    obtain ⟨hset', hcoming'⟩ := hset.run hg (harr.step hg hstep) hcs
    exact hcoming.1 (hcoming'.1 (hfalls b t f hset' hf))
  · exact fun hnext => .run hg hs₀ hrun fun as s b s' t f => hnext s₀ as s b s' t f hs₀

/-! ## A loop in an arm -/

/-- `if (x < y) { while (x < y) { } } else { } return x;` for arguments `x` and `y`, with its dominators. The true successor
of the branch in block 1 is the header of the loop. -/
def loopInArm : Graph := ofLists
  [{ opcode := .ARG, type := .I32, next := some 1, parent := some 0, users := [2, 4, 8] },
   { opcode := .ARG, type := .I32, prev := some 0, parent := some 0, users := [2, 4] },
   { opcode := .CMP, type := .I32, ccode := .LT, next := some 3, parent := some 1,
     properties := INPUT_SIDE_EFFECTS, inputs := [some 0, some 1] },
   { opcode := .JCMP, type := .I64, prev := some 2, parent := some 1, properties := CF_SIDE_EFFECTS },
   { opcode := .CMP, type := .I32, ccode := .LT, next := some 5, parent := some 2,
     properties := INPUT_SIDE_EFFECTS, inputs := [some 0, some 1] },
   { opcode := .JCMP, type := .I64, prev := some 4, parent := some 2, properties := CF_SIDE_EFFECTS },
   { opcode := .JMP, type := .I64, parent := some 3, properties := CF_SIDE_EFFECTS },
   { opcode := .JMP, type := .I64, parent := some 4, properties := CF_SIDE_EFFECTS },
   { opcode := .RET, type := .I32, parent := some 5, properties := .CF ||| .INPUT ||| .SIDE_EFFECTS,
     inputs := [some 0] }]
  [{ id := 0, succs := [1], instrsCount := 2, firstInst := some 0, lastInst := some 1, dominated := [1] },
   { id := 1, preds := [0], succs := [2, 4], instrsCount := 2, firstInst := some 2, lastInst := some 3,
     dominator := some 0, dominated := [2, 4, 5] },
   { id := 2, preds := [1, 3], succs := [3, 5], instrsCount := 2, firstInst := some 4, lastInst := some 5,
     dominator := some 1, dominated := [3] },
   { id := 3, preds := [2], succs := [2], instrsCount := 1, firstInst := some 6, lastInst := some 6, dominator := some 2 },
   { id := 4, preds := [1], succs := [5], instrsCount := 1, firstInst := some 7, lastInst := some 7, dominator := some 1 },
   { id := 5, preds := [2, 4], instrsCount := 1, firstInst := some 8, lastInst := some 8, dominator := some 1 }]
  []

theorem loopInArm_arrangeable : Arrangeable loopInArm 0 where
  connected := by constructor <;> decide
  succs := by decide
  loops := by decide
  unused b hb := by rw [loopInArm, ofLists_block_ge hb]

theorem loopInArm_run : ((LoopAnalyzer.analyze loopInArm).bind fun g => (run 20 g).map fun g' =>
    (g.blocks, g'.blocks, (g'.block 1).succs)) = some ([0, 1, 2, 3, 4, 5], [0, 1, 2, 3, 4, 5], [2, 4]) := by decide

theorem linear_order_iff_loopInArm : ∃ g g', LoopAnalyzer.analyze loopInArm = some g ∧ run 20 g = some g' ∧
    (LinearOrder g g' ↔ ∀ s₀ as s b s' t f, LinearOrdering.start g = some s₀ → Run Step s₀ as s → Step s (.queue b) s' →
      (s.graph.block b).succs = [t, f] → s.FalseNext b t f) := by
  obtain ⟨g, hg, h⟩ := Option.bind_eq_some_iff.1 loopInArm_run
  obtain ⟨g', hg', -⟩ := Option.map_eq_some_iff.1 h
  exact ⟨g, g', hg, hg', linear_order_iff loopInArm_arrangeable hg hg'⟩

/-- The header of the loop comes after the branch, and no jump is made for the false successor. -/
theorem loopInArm_wrong : Arrangeable loopInArm 0 ∧ (∀ b ∈ loopInArm.blocks, loopInArm.Leads 0 b) ∧
    ∃ g g', LoopAnalyzer.analyze loopInArm = some g ∧ run 20 g = some g' ∧ ¬ LinearOrder g g' := by
  obtain ⟨g, hg, h⟩ := Option.bind_eq_some_iff.1 loopInArm_run
  obtain ⟨g', hg', heq⟩ := Option.map_eq_some_iff.1 h
  obtain ⟨hblocks, hblocks', hsuccs⟩ : g.blocks = [0, 1, 2, 3, 4, 5] ∧ g'.blocks = [0, 1, 2, 3, 4, 5] ∧
      (g'.block 1).succs = [2, 4] := by simpa using heq
  refine ⟨loopInArm_arrangeable, ?_, g, g', hg, hg', fun hl => ?_⟩
  · have edge : ∀ {b c}, c ∈ (loopInArm.block b).succs → loopInArm.Edge b c := id
    have h1 : loopInArm.Leads 0 1 := .single (edge (by decide))
    have h2 : loopInArm.Leads 0 2 := h1.tail (edge (by decide))
    have h3 : loopInArm.Leads 0 3 := h2.tail (edge (by decide))
    have h4 : loopInArm.Leads 0 4 := h1.tail (edge (by decide))
    have h5 : loopInArm.Leads 0 5 := h4.tail (edge (by decide))
    have hall : loopInArm.blocks = [0, 1, 2, 3, 4, 5] := rfl
    rw [hall]
    simp only [List.forall_mem_cons]
    exact ⟨.refl, h1, h2, h3, h4, h5, List.forall_mem_nil _⟩
  · have hnext := hl.falls 1 (by simp [hblocks']) 2 4 hsuccs (by simp [hblocks])
    rw [Next, hblocks'] at hnext
    exact absurd hnext (by decide)

end CompilerLab.Jit.LinearOrdering
