import CompilerLab.Jit.CheckElimination
import CompilerLab.Jit.Lemmas.Checks
import CompilerLab.Jit.Lemmas.DCE
import CompilerLab.Lib.Pruning

/-!
# What check elimination removes

The pass prunes the instructions in the order of their visits: a check looks at the users of its first operand that are of
its kind, and removes those that are equal to it and dominated by it.
-/

namespace CompilerLab.Jit

open CompilerLab.Lib

namespace Graph

variable {g g' : Graph} {first b c i j u : Nat} {dead : List Nat}

/-- The operands a check may have: the constructors and the pass assert their types. -/
inductive CheckOperands (g : Graph) (c : Nat) : List Nat → Prop where
  | null {x : Nat} : (g.instr c).opcode = .NULL_CHECK → (g.instr x).type = .REF → CheckOperands g c [x]
  | int {x : Nat} : (g.instr c).opcode = .ZERO_CHECK ∨ (g.instr c).opcode = .NEGATIVE_CHECK →
      isIntegerType (g.instr x).type = true → CheckOperands g c [x]
  | bounds {x y : Nat} : (g.instr c).opcode = .BOUNDS_CHECK → (g.instr x).type = .REF →
      isIntegerType (g.instr y).type = true → CheckOperands g c [x, y]

/-- A check has the form in which checks are made. -/
structure CheckShape (g : Graph) (c : Nat) : Prop where
  hasInputs : (g.instr c).hasInputs = true
  operands : ∃ l, (g.instr c).inputs = l.map some ∧ g.CheckOperands c l

/-- The checks of `c`'s kind that the pass finds at the checked value of `c`. -/
def peers (g : Graph) (c : Nat) : List Nat :=
  match g.getInput c 0 with
  | some x => (g.instr x).users.filter fun u => u ≠ c ∧ (g.instr u).opcode = (g.instr c).opcode
  | none => []

/-- `c` makes the equal check `u` redundant. -/
def Subsumes (g : Graph) (first c u : Nat) : Prop :=
  (g.instr c).isCheck = true ∧ (g.instr u).opcode = (g.instr c).opcode ∧ (g.instr u).inputs = (g.instr c).inputs ∧
    g.InstrDom first c u

/-- A graph with correct dominator links, whose users lists are those of its inputs, and whose instructions are in its
blocks or in none. -/
structure Checkable (g : Graph) (first : Nat) : Prop extends g.WellFormed first where
  domTree : g.DomTree first
  valid : g.valid .DOM_TREE = true
  shape : ∀ c, g.Within c → (g.instr c).isCheck = true → g.CheckShape c
  users : ∀ i, g.Within i → ∀ u ∈ (g.instr i).users, (g.instr i).users.count u ≤ (g.instr u).inputs.count (some i)
  used : ∀ i, g.Within i → ∀ x, some x ∈ (g.instr i).inputs → i ∈ (g.instr x).users
  parent : ∀ i b, (g.instr i).parent = some b → b ∈ g.blocks
  ssa : g.ChecksInSSA first

/-! ## Dominance in a reduced graph -/

theorem Removes.dominates (h : Removes dead g g') : g'.dominates b c = g.dominates b c := by
  have hd : ∀ c, (g'.block c).dominator = (g.block c).dominator := fun c => by
    have := congrArg BasicBlock.dominator (h.only.block c)
    exact this
  have hcount : g'.blockCount = g.blockCount := by
    have := congrArg Graph.blockCount h.only.graph
    exact this
  exact dominates_congr hd hcount

/-- The pass's question about two instructions that are left is answered as for the whole graph. -/
theorem Removes.instrDominates (h : Removes dead g g') (hwc : g.WellConnected first) (ht : g.DomTree first)
    (hl : g.Lists) (hi : g.Within i) (hj : g.Within j) (hid : i ∉ dead) (hjd : j ∉ dead) (hne : j ≠ i) :
    ∃ r, g'.instrDominates i j = some r ∧ (r = true ↔ g.InstrDom first i j) := by
  obtain ⟨b, hb, hi⟩ := hi
  obtain ⟨c, hc, hj⟩ := hj
  have hpi := hl.mem_instrs.1 hi
  have hpj := hl.mem_instrs.1 hj
  have hpi' : (g'.instr i).parent = some b := by rw [h.parent, if_neg hid, hpi]
  have hpj' : (g'.instr j).parent = some c := by rw [h.parent, if_neg hjd, hpj]
  have hdom : g.InstrDom first i j ↔ b = c ∧ Before (g.instrs b) i j ∨ b ≠ c ∧ Dom g.Edge first b c := by
    constructor
    · rintro ⟨b', c', hb', hc', hd⟩
      obtain rfl := Option.some.inj (hpi.symm.trans hb')
      obtain rfl := Option.some.inj (hpj.symm.trans hc')
      exact hd
    · exact fun hd => ⟨b, c, hpi, hpj, hd⟩
  rw [Graph.instrDominates, if_neg hne, hpi', hpj', hdom]
  by_cases hcb : c = b
  · subst hcb
    have hn := hl.nodup c
    have keep : ∀ x, x ∉ dead → (decide (x ∉ dead)) = true := fun x hx => decide_eq_true hx
    rw [if_pos rfl, isEarlierInBasicBlock]
    simp only [hpi', hpj', Option.bind_eq_bind, Option.bind_some, ASSERT_of, h.instrs, Option.pure_def]
    rcases Before.or_of_mem hi hj (Ne.symm hne) with hij | hji
    · refine ⟨true, ?_, by simp [hij]⟩
      rw [((hij.filter (keep i hid) (keep j hjd)).find?_eq (hn.filter _)).1]
      simp
    · refine ⟨false, ?_, by simp [hji.asymm hn]⟩
      rw [((hji.filter (keep j hjd) (keep i hid)).find?_eq (hn.filter _)).2]
      simp [hne]
  · rw [if_neg fun h => hcb (Option.some.inj h)]
    refine ⟨_, rfl, ?_⟩
    rw [h.dominates, ht.dominates_iff hwc (ht.leads c hc)]
    simp [Ne.symm hcb]

/-- What is left of an instruction is what the pass reads of it. -/
theorem Removes.data (h : Removes dead g g') (j : Nat) : (g'.instr j).opcode = (g.instr j).opcode ∧
    (g'.instr j).type = (g.instr j).type ∧ (g'.instr j).users = (g.instr j).users ∧
    (g'.instr j).inputs = (g.instr j).inputs ∧ (g'.instr j).hasInputs = (g.instr j).hasInputs := by
  rw [h.instr_eq j]
  exact ⟨rfl, rfl, rfl, rfl, rfl⟩

/-! ## Checks -/

theorem isCheck_congr (h : (g.instr u).opcode = (g.instr c).opcode) : (g.instr u).isCheck = (g.instr c).isCheck := by
  rw [Instruction.isCheck, Instruction.isCheck, h]

theorem mem_peers {x : Nat} (hx : g.getInput c 0 = some x) : u ∈ g.peers c ↔
    u ∈ (g.instr x).users ∧ u ≠ c ∧ (g.instr u).opcode = (g.instr c).opcode := by
  simp [peers, hx]

/-- Dominance does not depend on what is stored beside the blocks and the instructions. -/
theorem instrDom_congr (hi : g'.instr = g.instr) (hb : g'.block = g.block) (hc : g'.instrCount = g.instrCount) :
    g'.InstrDom first i j ↔ g.InstrDom first i j := by
  have he : g'.Edge = g.Edge := by
    funext b c
    rw [Edge, Edge, hb]
  have hs : g'.instrs = g.instrs := funext (instrs_congr hi hb hc)
  rw [InstrDom, InstrDom, hi, hs, he]

namespace Checkable

/-- The graph with another order of its blocks stored. -/
theorem withRPO {l : List Nat} {v : AnalysisFlag → Bool} (h : g.Checkable first) (hnodup : l.Nodup)
    (hmem : ∀ b, b ∈ l ↔ b ∈ g.blocks) (hv : v .DOM_TREE = true) :
    Checkable { g with rpoBlocks := l, valid := v } first := by
  have hs : Graph.instrs { g with rpoBlocks := l, valid := v } = g.instrs := funext (instrs_congr rfl rfl rfl)
  have hw : ∀ i, Graph.Within { g with rpoBlocks := l, valid := v } i ↔ g.Within i := fun i => by rw [Within, hs]; rfl
  exact {
    connected := by cases h.connected; constructor <;> assumption
    reachable := h.reachable
    rpo := fun _ => ⟨hnodup, hmem⟩
    lists := h.lists.congr rfl rfl fun _ => ⟨rfl, rfl, rfl, rfl⟩
    inputs := fun i hi hin a ha => by
      obtain ⟨j, hj, hwj⟩ := h.inputs i ((hw i).1 hi) hin a ha
      exact ⟨j, hj, (hw j).2 hwj⟩
    domTree := by cases h.domTree; constructor <;> assumption
    valid := hv
    shape := fun c hc hck => by
      obtain ⟨hin, l, hl, hops⟩ := h.shape c ((hw c).1 hc) hck
      refine ⟨hin, l, hl, ?_⟩
      cases hops with
      | null hop hx => exact .null hop hx
      | int hop hx => exact .int hop hx
      | bounds hop hx hy => exact .bounds hop hx hy
    users := fun i hi => h.users i ((hw i).1 hi)
    used := fun i hi => h.used i ((hw i).1 hi)
    parent := h.parent
    ssa := fun c b hb hck x hx => by
      refine (instrDom_congr ?_ ?_ ?_).2 (h.ssa c b hb hck x hx) <;> rfl }

theorem within_of_parent (h : g.Checkable first) (hb : (g.instr i).parent = some b) : g.Within i :=
  ⟨b, h.parent i b hb, h.lists.mem_instrs.2 hb⟩

theorem exists_parent (h : g.Checkable first) (hi : g.Within i) : ∃ b ∈ g.blocks, (g.instr i).parent = some b := by
  obtain ⟨b, hb, hi⟩ := hi
  exact ⟨b, hb, h.lists.mem_instrs.1 hi⟩

theorem mem_inputs (h : g.Checkable first) (hi : g.Within i) (hu : u ∈ (g.instr i).users) : some i ∈ (g.instr u).inputs :=
  List.count_pos_iff.1 (Nat.lt_of_lt_of_le (List.count_pos_iff.2 hu) (h.users i hi u hu))

/-- A check and a peer of it have the same first operand, once. -/
theorem peer_inputs (h : g.Checkable first) (hc : g.Within c) (hck : (g.instr c).isCheck = true) (hu : u ∈ g.peers c)
    (hw : g.Within u) : ∃ x, g.getInput c 0 = some x ∧ (g.instr u).inputs.count (some x) = 1 ∧
      ((g.instr c).opcode ≠ .BOUNDS_CHECK ∧ (g.instr c).inputs = [some x] ∧ (g.instr u).inputs = [some x] ∨
        (g.instr c).opcode = .BOUNDS_CHECK ∧ ∃ y y', (g.instr c).inputs = [some x, some y] ∧
          (g.instr u).inputs = [some x, some y']) := by
  obtain ⟨l, hin, hops⟩ := (h.shape c hc hck).operands
  obtain ⟨x, rest, rfl⟩ : ∃ x rest, l = x :: rest := by cases hops <;> exact ⟨_, _, rfl⟩
  have hx : g.getInput c 0 = some x := by simp [getInput, hin]
  obtain ⟨hux, -, hop⟩ := (mem_peers hx).1 hu
  obtain ⟨j, hj, hwx⟩ := h.inputs c hc (h.shape c hc hck).hasInputs (some x) (by simp [hin])
  obtain rfl := Option.some.inj hj
  have hmem := h.mem_inputs hwx hux
  obtain ⟨l', hin', hops'⟩ := (h.shape u hw (isCheck_congr hop ▸ hck)).operands
  rw [hin'] at hmem
  refine ⟨x, hx, ?_⟩
  cases hops with
  | null hc' _ =>
      cases hops' with
      | null => simp_all
      | int hu' => simp_all
      | bounds hu' => simp_all
  | int hc' _ => rcases hc' with hc' | hc' <;> cases hops' <;> simp_all
  | bounds hc' hxr hyi =>
      cases hops' with
      | null hu' => simp_all
      | int hu' => simp_all
      | @bounds x' y' hu' hxr' hyi' =>
          have hne : x ≠ y' := by
            rintro rfl
            rw [hxr] at hyi'
            cases hyi'
          simp_all

end Checkable

end Graph

namespace CheckElimination

open Graph

variable {g h : Graph} {first c u x : Nat} {dead us : List Nat} {r : Bool} {same : Graph → Nat → Option Bool}

/-! ## The users of the checked value -/

/-- `same` compares the operands of `c` with those of a peer. -/
def Compares (g : Graph) (c : Nat) (same : Graph → Nat → Option Bool) : Prop :=
  ∀ h dead, Removes dead g h → ∀ u ∈ g.peers c, g.Within u →
    ∃ e, same h u = some e ∧ (e = true ↔ (g.instr u).inputs = (g.instr c).inputs)

/-- Trying a check is the loop over the users of its first operand. -/
theorem tryRemoveCheck_eq (hg : g.Checkable first) (hc : g.Within c) (hck : (g.instr c).isCheck = true) :
    ∃ x same, g.getInput c 0 = some x ∧ Compares g c same ∧ ∀ h dead, Removes dead g h →
      tryRemoveCheck h c = (g.instr x).users.foldlM (removeUser c same) (h, false) := by
  obtain ⟨hin, l, hinputs, hops⟩ := hg.shape c hc hck
  have single {x : Nat} (hx : (g.instr c).inputs = [some x]) (hop : (g.instr c).opcode ≠ .BOUNDS_CHECK) :
      Compares g c fun _ _ => some true := by
    intro h dead hr u hu hw
    obtain ⟨y, hy, -, ⟨-, hcy, huy⟩ | ⟨hb, -⟩⟩ := hg.peer_inputs hc hck hu hw
    · exact ⟨true, rfl, by simp [hcy, huy]⟩
    · exact absurd hb hop
  cases hops with
  | @null x hop hty =>
      refine ⟨x, _, by simp [getInput, hinputs], single hinputs (by simp [hop]), fun h dead hr => ?_⟩
      simp [tryRemoveCheck, singleInputCheckDominates, getInput, (hr.data c).1, (hr.data c).2.2.2.1, (hr.data c).2.2.2.2,
        hop, hinputs, hin, (hr.data x).2.1, hty, (hr.data x).2.2.1, ASSERT]
  | @int x hop hty =>
      refine ⟨x, _, by simp [getInput, hinputs], single hinputs (by rcases hop with hop | hop <;> simp [hop]),
        fun h dead hr => ?_⟩
      rcases hop with hop | hop <;>
        simp [tryRemoveCheck, singleInputCheckDominates, getInput, (hr.data c).1, (hr.data c).2.2.2.1,
          (hr.data c).2.2.2.2, hop, hinputs, hin, (hr.data x).2.1, hty, (hr.data x).2.2.1, ASSERT]
  | @bounds x y hop hty hty' =>
      refine ⟨x, sameBounds x y, by simp [getInput, hinputs], fun h dead hr u hu hw => ?_, fun h dead hr => ?_⟩
      · obtain ⟨z, hz, -, ⟨hb, -⟩ | ⟨-, y₁, y', hcz, huz⟩⟩ := hg.peer_inputs hc hck hu hw
        · exact absurd hop hb
        · have hz' : g.getInput c 0 = some x := by simp [getInput, hinputs]
          obtain rfl := Option.some.inj (hz'.symm.trans hz)
          have hop' := ((mem_peers hz').1 hu).2.2
          have huin := (hg.shape u hw (isCheck_congr hop' ▸ hck)).hasInputs
          refine ⟨y' == y, ?_, by simp [huz, hinputs]⟩
          simp [sameBounds, getInput, (hr.data u).2.2.2.1, (hr.data u).2.2.2.2, huz, huin, ASSERT]
      · simp [tryRemoveCheck, boundsCheckDominates, getInput, (hr.data c).1, (hr.data c).2.2.2.1,
          (hr.data c).2.2.2.2, hop, hinputs, hin, (hr.data x).2.1, hty, (hr.data y).2.1, hty', (hr.data x).2.2.1, ASSERT]

/-- The users the loop looks at closely. -/
def Peer (g : Graph) (c u : Nat) : Prop := u ≠ c ∧ (g.instr u).opcode = (g.instr c).opcode

instance (g c u) : Decidable (Peer g c u) := by unfold Peer; infer_instance

theorem removeUser_other (hr : Removes dead g h) (hu : ¬ Peer g c u) : removeUser c same (h, r) u = some (h, r) := by
  have hu' : ¬ (u ≠ c ∧ (h.instr u).opcode = (h.instr c).opcode) := by rwa [(hr.data u).1, (hr.data c).1]
  rw [removeUser, if_neg hu']
  rfl

/-- An instruction that is in no block stops the program. -/
theorem removeUser_gone (hr : Removes dead g h) (hu : Peer g c u) (hp : (h.instr u).parent = none)
    (hc : (h.instr c).parent ≠ none) : removeUser c same (h, r) u = none := by
  have hu' : u ≠ c ∧ (h.instr u).opcode = (h.instr c).opcode := by rwa [(hr.data u).1, (hr.data c).1]
  have hdom : h.instrDominates c u = none := by
    rw [Graph.instrDominates, if_neg hu.1, hp, if_neg (Ne.symm hc)]
    cases (h.instr c).parent <;> rfl
  simp only [removeUser, if_pos hu', hdom, Option.bind_eq_bind, Option.bind_none]

open Classical in
/-- A peer is removed when the check makes it redundant. -/
theorem removeUser_linked (hg : g.Checkable first) (hc : g.Within c) (hck : (g.instr c).isCheck = true) (hcd : c ∉ dead)
    (hr : Removes dead g h) (hsame : Compares g c same) (hu : u ∈ g.peers c) (hp : Peer g c u) (hw : g.Within u)
    (hud : u ∉ dead) : ∃ h', removeUser c same (h, r) u = some (h', r || decide (g.Subsumes first c u)) ∧
      Removes (if g.Subsumes first c u then dead ++ [u] else dead) g h' := by
  have hu' : u ≠ c ∧ (h.instr u).opcode = (h.instr c).opcode := by rwa [(hr.data u).1, (hr.data c).1]
  obtain ⟨d, hd, hdom⟩ := hr.instrDominates hg.connected hg.domTree hg.lists hc hw hcd hud hp.1
  obtain ⟨e, he, heq⟩ := hsame h dead hr u hu hw
  have hsub : g.Subsumes first c u ↔ e = true ∧ d = true := by
    rw [heq, hdom, Subsumes]
    exact ⟨fun hs => hs.2.2, fun hs => ⟨hck, hp.2, hs⟩⟩
  simp only [removeUser, if_pos hu', hd, he, Option.bind_eq_bind, Option.bind_some]
  cases d with
  | false => exact ⟨h, by simp [hsub], by simpa [hsub] using hr⟩
  | true =>
      cases e with
      | false => exact ⟨h, by simp [hsub], by simpa [hsub] using hr⟩
      | true =>
          have hs : g.Subsumes first c u := hsub.2 ⟨rfl, rfl⟩
          obtain ⟨b, -, hb⟩ := hg.exists_parent hw
          have hb' : (h.instr u).parent = some b := by rw [hr.parent, if_neg hud, hb]
          obtain ⟨phis, rest, hl⟩ := hr.lists.listed b
          obtain ⟨h', hh'⟩ := hl.unlink_total (hl.complete u hb')
          refine ⟨h', by simp [hb', hh', hs], ?_⟩
          rw [if_pos hs]
          exact hr.unlink hh'

/-- Looking closely at a user that is gone stops the loop. -/
theorem removeUsers_gone (hg : g.Checkable first) (hc : g.Within c) (hck : (g.instr c).isCheck = true) (hcd : c ∉ dead)
    (hr : Removes dead g h) (hsame : Compares g c same) (hx : g.getInput c 0 = some x) (hus : us ⊆ (g.instr x).users)
    (hu : ∃ u ∈ us, Peer g c u ∧ ((g.instr u).parent = none ∨ u ∈ dead)) :
    us.foldlM (removeUser c same) (h, r) = none := by
  induction us generalizing dead h r with
  | nil =>
      obtain ⟨u, hu, -⟩ := hu
      cases hu
  | cons v us ih =>
      have hus' : us ⊆ (g.instr x).users := fun w hw => hus (List.mem_cons_of_mem v hw)
      obtain ⟨b, -, hb⟩ := hg.exists_parent hc
      have hc' : (h.instr c).parent ≠ none := by rw [hr.parent, if_neg hcd, hb]; exact fun he => nomatch he
      rw [List.foldlM_cons]
      by_cases hv : Peer g c v
      · by_cases hgone : (g.instr v).parent = none ∨ v ∈ dead
        · have hv' : (h.instr v).parent = none := by
            rw [hr.parent]
            split
            · rfl
            · next hvd => exact hgone.resolve_right hvd
          rw [removeUser_gone hr hv hv' hc']
          rfl
        · obtain ⟨hlinked, hvd⟩ := not_or.1 hgone
          obtain ⟨bv, hbv⟩ := Option.ne_none_iff_exists'.1 hlinked
          have hpeer : v ∈ g.peers c := (mem_peers hx).2 ⟨hus List.mem_cons_self, hv⟩
          classical
          obtain ⟨h', hh', hr'⟩ := removeUser_linked (r := r) hg hc hck hcd hr hsame hpeer hv (hg.within_of_parent hbv) hvd
          obtain ⟨u, huin, hup, hugone⟩ := hu
          have huv : u ≠ v := fun huv => hgone (huv ▸ hugone)
          have huin' := (List.mem_cons.1 huin).resolve_left huv
          rw [hh', Option.bind_eq_bind, Option.bind_some]
          refine ih ?_ hr' hus' ⟨u, huin', hup, hugone.imp_right fun hud => ?_⟩
          · split
            · exact fun hm => hv.1 ((List.mem_append.1 hm).resolve_left hcd |> List.mem_singleton.1).symm
            · exact hcd
          · split
            · exact List.mem_append_left _ hud
            · exact hud
      · rw [removeUser_other hr hv, Option.bind_eq_bind, Option.bind_some]
        obtain ⟨u, huin, hup, hugone⟩ := hu
        have huv : u ≠ v := fun huv => hv (huv ▸ hup)
        exact ih hcd hr hus' ⟨u, (List.mem_cons.1 huin).resolve_left huv, hup, hugone⟩

open Classical in
/-- The loop over users removes the peers that the check makes redundant. -/
theorem removeUsers_removes (hg : g.Checkable first) (hc : g.Within c) (hck : (g.instr c).isCheck = true) (hcd : c ∉ dead)
    (hr : Removes dead g h) (hsame : Compares g c same) (hx : g.getInput c 0 = some x) (hus : us ⊆ (g.instr x).users)
    (hnodup : (us.filter (Peer g c ·)).Nodup) (hu : ∀ u ∈ us, Peer g c u → (g.instr u).parent ≠ none ∧ u ∉ dead) :
    ∃ h', us.foldlM (removeUser c same) (h, r) =
        some (h', r || !((us.filter (Peer g c ·)).filter (g.Subsumes first c ·)).isEmpty) ∧
      Removes (dead ++ (us.filter (Peer g c ·)).filter (g.Subsumes first c ·)) g h' := by
  induction us generalizing dead h r with
  | nil => exact ⟨h, by simp, by simpa using hr⟩
  | cons v us ih =>
      have hus' : us ⊆ (g.instr x).users := fun w hw => hus (List.mem_cons_of_mem v hw)
      rw [List.foldlM_cons]
      by_cases hv : Peer g c v
      · obtain ⟨hlinked, hvd⟩ := hu v List.mem_cons_self hv
        obtain ⟨bv, hbv⟩ := Option.ne_none_iff_exists'.1 hlinked
        have hpeer : v ∈ g.peers c := (mem_peers hx).2 ⟨hus List.mem_cons_self, hv⟩
        obtain ⟨h', hh', hr'⟩ := removeUser_linked (r := r) hg hc hck hcd hr hsame hpeer hv (hg.within_of_parent hbv) hvd
        rw [List.filter_cons_of_pos (by simpa using hv)] at hnodup ⊢
        have hvout : ∀ u ∈ us, Peer g c u → u ≠ v := fun u hus hp huv =>
          (List.nodup_cons.1 hnodup).1 (List.mem_filter.2 ⟨huv ▸ hus, by simpa using hv⟩)
        rw [hh', Option.bind_eq_bind, Option.bind_some]
        by_cases hs : g.Subsumes first c v
        · rw [if_pos hs] at hr'
          rw [List.filter_cons_of_pos (by simpa using hs)]
          obtain ⟨h'', hh'', hr''⟩ := ih (r := r || decide (g.Subsumes first c v)) (by simp [hcd, hv.1.symm]) hr' hus'
            (List.nodup_cons.1 hnodup).2 fun u huin hp => by
              obtain ⟨hl, hd⟩ := hu u (List.mem_cons_of_mem v huin) hp
              exact ⟨hl, by simp [hd, hvout u huin hp]⟩
          refine ⟨h'', by rw [hh'']; simp [hs], ?_⟩
          rwa [List.append_assoc, List.singleton_append] at hr''
        · rw [if_neg hs] at hr'
          rw [List.filter_cons_of_neg (by simpa using hs)]
          obtain ⟨h'', hh'', hr''⟩ := ih (r := r || decide (g.Subsumes first c v)) hcd hr' hus'
            (List.nodup_cons.1 hnodup).2 fun u huin hp => hu u (List.mem_cons_of_mem v huin) hp
          exact ⟨h'', by rw [hh'']; simp [hs], hr''⟩
      · rw [List.filter_cons_of_neg (by simpa using hv)] at hnodup ⊢
        rw [removeUser_other hr hv, Option.bind_eq_bind, Option.bind_some]
        exact ih hcd hr hus' hnodup fun u huin hp => hu u (List.mem_cons_of_mem v huin) hp

/-! ## The visits -/

open Classical in
/-- The pass as a pruning of the instructions in the order of their visits. -/
noncomputable def pruning (g : Graph) (first : Nat) : Pruning Nat where
  looks c := if g.Within c ∧ (g.instr c).isCheck = true then g.peers c else []
  removed c := if g.Within c ∧ (g.instr c).isCheck = true then (g.peers c).filter (g.Subsumes first c ·) else []
  gone u := (g.instr u).parent = none

/-- The pruning depends on the blocks and the instructions. -/
theorem pruning_congr {g' : Graph} (hi : g'.instr = g.instr) (hb : g'.block = g.block)
    (hc : g'.instrCount = g.instrCount) (hbs : g'.blocks = g.blocks) : pruning g' first = pruning g first := by
  have hw : g'.Within = g.Within := by
    funext i
    simp only [Within, hbs, instrs_congr hi hb hc]
  have hs : g'.Subsumes first = g.Subsumes first := by
    funext c u
    rw [Subsumes, Subsumes, instrDom_congr hi hb hc, hi]
  have hp : g'.peers = g.peers := by
    funext c
    rw [peers, peers, getInput, getInput, hi]
  rw [pruning, pruning, hw, hs, hp, hi]

theorem mem_removed : u ∈ (pruning g first).removed c ↔
    g.Within c ∧ (g.instr c).isCheck = true ∧ u ∈ g.peers c ∧ g.Subsumes first c u := by
  classical
  simp only [pruning]
  split <;> simp_all

theorem mem_looks : u ∈ (pruning g first).looks c ↔ g.Within c ∧ (g.instr c).isCheck = true ∧ u ∈ g.peers c := by
  classical
  simp only [pruning]
  split <;> simp_all

theorem not_mem_removed_self : c ∉ (pruning g first).removed c := by
  rw [mem_removed]
  rintro ⟨-, -, hp, -⟩
  unfold peers at hp
  split at hp
  · simp at hp
  · cases hp

/-- A check removes the equal checks it dominates. -/
theorem mem_removed_iff (hg : g.Checkable first) : u ∈ (pruning g first).removed c ↔ g.Within c ∧ g.Subsumes first c u := by
  rw [mem_removed]
  refine ⟨fun hu => ⟨hu.1, hu.2.2.2⟩, fun ⟨hc, hs⟩ => ⟨hc, hs.1, ?_, hs⟩⟩
  obtain ⟨hck, hop, hin, hdom⟩ := hs
  have ⟨_, d, _, hd, _⟩ := hdom
  obtain ⟨-, l, hl, hops⟩ := hg.shape c hc hck
  obtain ⟨x, rest, rfl⟩ : ∃ x rest, l = x :: rest := by cases hops <;> exact ⟨_, _, rfl⟩
  have hx : g.getInput c 0 = some x := by simp [getInput, hl]
  refine (mem_peers hx).2 ⟨hg.used u (hg.within_of_parent hd) x (by simp [hin, hl]), ?_, hop⟩
  rintro rfl
  exact InstrDom.irrefl hg.lists hdom

theorem removed_trans (hg : g.Checkable first) (a b d : Nat) (hb : b ∈ (pruning g first).removed a)
    (hd : d ∈ (pruning g first).removed b) : d ∈ (pruning g first).removed a := by
  rw [mem_removed_iff hg] at hb hd ⊢
  refine ⟨hb.1, hb.2.1, hd.2.2.1.trans hb.2.2.1, hd.2.2.2.1.trans hb.2.2.2.1, ?_⟩
  exact hb.2.2.2.2.trans hg.lists (fun e he => hg.reachable e (hg.parent d e he)) hd.2.2.2.2

/-- The state of the pass and the instructions it has removed. -/
def Tracks (g : Graph) (dead : List Nat) (s : Graph × Bool) : Prop := Removes dead g s.1 ∧ (s.2 = true ↔ dead ≠ [])

/-- Trying an instruction that is still there is a visit. -/
theorem tryRemoveCheck_visit (hg : g.Checkable first) (hc : g.Within c) (hcd : c ∉ dead) (ht : Tracks g dead (h, r)) :
    Option.Rel (Tracks g) ((pruning g first).visit dead c) ((tryRemoveCheck h c).map fun s => (s.1, r || s.2)) := by
  classical
  obtain ⟨hr, hrdead⟩ := ht
  rw [Pruning.visit, if_neg hcd]
  by_cases hck : (g.instr c).isCheck = true
  · obtain ⟨x, same, hx, hsame, heq⟩ := tryRemoveCheck_eq hg hc hck
    rw [heq h dead hr]
    have hpeers : g.peers c = (g.instr x).users.filter (Peer g c ·) := by
      rw [peers, hx]
      rfl
    split
    case isTrue hgone =>
      obtain ⟨u, hu, hgone⟩ := hgone
      obtain ⟨-, -, hu⟩ := mem_looks.1 hu
      rw [hpeers, List.mem_filter, decide_eq_true_eq] at hu
      rw [removeUsers_gone hg hc hck hcd hr hsame hx (List.Subset.refl _) ⟨u, hu.1, hu.2, by simpa [pruning] using hgone⟩]
      exact .none
    case isFalse hgone =>
      have hlinked : ∀ u ∈ (g.instr x).users, Peer g c u → (g.instr u).parent ≠ none ∧ u ∉ dead := by
        intro u hu hp
        have hul : u ∈ (pruning g first).looks c := mem_looks.2 ⟨hc, hck, by rw [hpeers]; simp [hu, hp]⟩
        have := fun hd => hgone ⟨u, hul, hd⟩
        simpa [pruning] using this
      have hnodup : ((g.instr x).users.filter (Peer g c ·)).Nodup := by
        refine List.nodup_iff_count_le_one.2 fun u => ?_
        by_cases hu : u ∈ (g.instr x).users.filter (Peer g c ·)
        · obtain ⟨hux, hup⟩ := List.mem_filter.1 hu
          obtain ⟨b, hb⟩ := Option.ne_none_iff_exists'.1 (hlinked u hux (by simpa using hup)).1
          have hw := hg.within_of_parent hb
          obtain ⟨y, hy, hcount, -⟩ := hg.peer_inputs hc hck (hpeers ▸ hu) hw
          obtain rfl := Option.some.inj (hx.symm.trans hy)
          obtain ⟨j, hj, hwx⟩ := hg.inputs c hc (hg.shape c hc hck).hasInputs (some x) (by
            rw [getInput] at hx
            exact List.mem_of_getElem? (Option.join_eq_some_iff.1 hx))
          obtain rfl := Option.some.inj hj
          exact Nat.le_trans (List.filter_sublist.count_le u) (hcount ▸ hg.users x hwx u hux)
        · rw [List.count_eq_zero_of_not_mem hu]
          exact Nat.zero_le 1
      obtain ⟨h', hh', hr'⟩ := removeUsers_removes (r := false) hg hc hck hcd hr hsame hx (List.Subset.refl _) hnodup
        hlinked
      have hremoved : (pruning g first).removed c =
          ((g.instr x).users.filter (Peer g c ·)).filter (g.Subsumes first c ·) := by
        simp only [pruning, hc, hck, and_self, if_true, hpeers]
      rw [hh', hremoved]
      refine .some ⟨hr', ?_⟩
      simp only [Bool.false_or, Bool.or_eq_true, hrdead, Bool.not_eq_true', List.isEmpty_eq_false_iff, ne_eq,
        List.append_eq_nil_iff, not_and_or]
  · have hlooks : (pruning g first).looks c = [] := by simp [pruning, hck]
    have hremoved : (pruning g first).removed c = [] := by simp [pruning, hck]
    have htry : tryRemoveCheck h c = some (h, false) := by
      have hop := (hr.data c).1
      rw [Instruction.isCheck, ← hop] at hck
      rw [tryRemoveCheck]
      split
      · next he => simp [he] at hck
      · next he => simp [he] at hck
      · next he => simp [he] at hck
      · next he => simp [he] at hck
      · rfl
    rw [hlooks, hremoved, htry, if_neg (by simp)]
    exact .some ⟨by simpa using hr, by simpa using hrdead⟩

/-! ## The loops over blocks and instructions -/

/-- The instructions of a block that are not phis, in order. -/
def nonPhis (g : Graph) (b : Nat) : List Nat := (g.instrs b).filter fun i => !(g.instr i).isPhi

theorem mem_nonPhis {b : Nat} : c ∈ nonPhis g b ↔ c ∈ g.instrs b ∧ (g.instr c).isPhi = false := by
  simp [nonPhis]

/-- What is left of a block is a list whose part after the phis is what is left of that part. -/
theorem Tracks.nonPhis {s : Graph × Bool} {b : Nat} (ht : Tracks g dead s) : ∃ phis,
    s.1.Listed b phis ((nonPhis g b).filter (· ∉ dead)) := by
  obtain ⟨phis, rest, hl⟩ := ht.1.lists.listed b
  have hinstrs := hl.instrs_eq
  rw [ht.1.instrs] at hinstrs
  have hphi : ∀ i, (g.instr i).isPhi = (s.1.instr i).isPhi := fun i => by
    rw [Instruction.isPhi, Instruction.isPhi, (ht.1.data i).1]
  have hrest : rest = (CheckElimination.nonPhis g b).filter (· ∉ dead) := by
    have hp : phis.filter (fun i => !(g.instr i).isPhi) = [] :=
      List.filter_eq_nil_iff.2 fun i hi => by simp [hphi, hl.isPhi i hi]
    have hr : rest.filter (fun i => !(g.instr i).isPhi) = rest :=
      List.filter_eq_self.2 fun i hi => by simp [hphi, hl.notPhi i hi]
    rw [CheckElimination.nonPhis, List.filter_filter]
    have := congrArg (List.filter fun i => !(g.instr i).isPhi) hinstrs
    rw [List.filter_append, hp, hr, List.nil_append, List.filter_filter] at this
    rw [← this]
    congr 1
    funext i
    exact Bool.and_comm ..
  exact ⟨phis, hrest ▸ hl⟩

theorem not_mem_of_visit (hcd : c ∉ dead) {dead' : List Nat} (hv : (pruning g first).visit dead c = some dead') :
    c ∉ dead' := by
  rw [Pruning.visit, if_neg hcd] at hv
  split at hv
  · cases hv
  · obtain rfl := Option.some.inj hv
    exact fun hm => (List.mem_append.1 hm).elim hcd not_mem_removed_self

/-- The loop over the rest of a block prunes the rest of its instructions. -/
theorem removeFrom_prunes (hg : g.Checkable first) {b : Nat} (hb : b ∈ g.blocks) {pre post : List Nat} {n : Nat}
    {s : Graph × Bool} (heq : nonPhis g b = pre ++ post) (ht : Tracks g dead s) (hn : post.length ≤ n) :
    Option.Rel (Tracks g) (post.foldlM (pruning g first).visit dead)
      (removeFrom n s (post.filter (· ∉ dead)).head?) := by
  induction post generalizing pre dead n s with
  | nil =>
      cases n <;> exact .some ht
  | cons c post ih =>
      rw [List.foldlM_cons]
      have heq' : CheckElimination.nonPhis g b = (pre ++ [c]) ++ post := by rw [heq]; simp
      by_cases hcd : c ∈ dead
      · rw [Pruning.visit, if_pos hcd, Option.bind_eq_bind, Option.bind_some, List.filter_cons_of_neg (by simpa using hcd)]
        exact ih heq' ht (Nat.le_of_succ_le hn)
      · obtain ⟨n, rfl⟩ : ∃ m, n = m + 1 := ⟨n - 1, by simp at hn; omega⟩
        obtain ⟨h, r⟩ := s
        have hcb : c ∈ g.instrs b := (mem_nonPhis.1 (by rw [heq]; simp)).1
        rw [List.filter_cons_of_pos (by simpa using hcd), List.head?_cons, removeFrom]
        have hvisit := tryRemoveCheck_visit hg ⟨b, hb, hcb⟩ hcd ht
        generalize hv : (pruning g first).visit dead c = v at hvisit
        cases htry : tryRemoveCheck h c with
        | none =>
            rw [htry] at hvisit
            cases hvisit
            exact .none
        | some s' =>
            rw [htry] at hvisit
            cases hvisit with
            | @some dead' _ ht' =>
                obtain ⟨phis, hl⟩ := ht'.nonPhis (b := b)
                have hcd' := not_mem_of_visit hcd hv
                rw [heq, List.filter_append, List.filter_cons_of_pos (by simpa using hcd')] at hl
                have hnext : (s'.1.instr c).next = (post.filter (· ∉ dead')).head? :=
                  hl.next_eq (List.append_assoc ..).symm
                simp only [Option.bind_eq_bind, Option.bind_some, hnext]
                exact ih heq' ht' (Nat.le_of_succ_le_succ hn)

/-- The loops of the pass prune the instructions of the blocks in order. -/
theorem removeInBlocks_prunes (hg : g.Checkable first) {l : List Nat} (hl : ∀ b ∈ l, b ∈ g.blocks) :
    Option.Rel (Tracks g) ((l.flatMap (nonPhis g)).foldlM (pruning g first).visit [])
      (l.foldlM removeInBlock (g, false)) := by
  rw [foldlM_flatMap]
  refine foldlM_simulates (R := Tracks g) (fun dead s b hb ht => ?_) ⟨.refl hg.lists, by simp⟩
  obtain ⟨phis, hlist⟩ := ht.nonPhis (b := b)
  obtain ⟨phis', rest, hgl⟩ := hg.lists.listed b
  have hcount : s.1.instrCount = g.instrCount := by
    have := congrArg Graph.instrCount ht.1.only.graph
    exact this
  rw [removeInBlock, hlist.firstInst, hcount]
  refine removeFrom_prunes hg (hl b hb) (List.nil_append _).symm ht (Nat.le_trans (List.length_filter_le ..) ?_)
  rw [hgl.instrs_eq]
  exact hgl.length_le

end CheckElimination

end CompilerLab.Jit
