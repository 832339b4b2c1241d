import CompilerLab.Jit.Lemmas.DomTree
import CompilerLab.Jit.Lemmas.Traversals
import CompilerLab.Lib.Postorder

/-!
# What a reverse post order says about edges

`DoRPO` puts a block before the ones its edges lead to, unless such an edge goes to a block on the traversal's path: then it
closes a cycle, and in a reducible graph its target dominates its source.
-/

namespace CompilerLab.Jit.Graph

open CompilerLab.Lib Relation

variable {g : Graph} {first : Nat} {l : List Nat}

/-- What has been seen has been left or is on the path. -/
theorem Traversal.Counts.left_or_path {F : Dfs.Frames Nat} {s : Traversal} (hc : s.Counts F) {b : Nat} (hb : s.visited b = true) :
    b ∈ s.result ∨ b ∈ F.map Prod.fst := by
  by_cases hF : b ∈ F.map Prod.fst
  · exact .inr hF
  · exact .inl ((hc.mem b).2 ⟨hb, hF⟩)

theorem dfo_settled (g : Graph) (first : Nat) : g.dfo.Rule (fun b => (g.block b).succs) (· = first) (fun _ _ => True)
    (fun F s => (g.dfo.Covers (fun b => (g.block b).succs) (fun _ => True) {} first F s ∧ s.Counts F) ∧
      Settled (fun b => (g.block b).succs) first F s.result)
    (fun b F s => ((g.dfo.Covers (fun b => (g.block b).succs) (fun _ => True) {} first F s ∧ g.dfo.seen s b = true) ∧
      s.Counts F) ∧ Settled (fun b => (g.block b).succs) first F s.result) where
  next hI := (g.dfo_counts first).next hI.1
  enter := by
    rintro F s a s' ⟨hI, hset⟩ ha hE hs he
    refine ⟨(g.dfo_counts first).enter hI ha hE hs he, ?_⟩
    have hnew : a ∉ F.map Prod.fst := by
      intro hmem
      obtain ⟨f, hf, rfl⟩ := List.mem_map.1 hmem
      exact Bool.false_ne_true (hs.symm.trans (hI.1.frame f hf).1)
    obtain rfl := Option.some.inj he
    exact hset.enter ha hnew
  again := by
    rintro F s a done b rest s' ⟨hI, hset⟩ hN hb hs
    refine ⟨(g.dfo_counts first).again hI hN hb hs, ?_⟩
    obtain rfl := dfo_again hs
    exact hset.push (hI.2.left_or_path hb)
  forth := by
    rintro F s a done b rest s' ⟨hI, hset⟩ hN hb hs
    obtain ⟨hI', hb'⟩ := (g.dfo_counts first).forth hI hN hb hs
    obtain rfl := dfo_again hs
    exact ⟨⟨hI', hset⟩, hb'⟩
  leave := by
    rintro F s a s' ⟨hI, hset⟩ hs
    refine ⟨(g.dfo_counts first).leave hI hs, ?_⟩
    have hnew : a ∉ s.result := fun hm => ((hI.2.mem a).1 hm).2 List.mem_cons_self
    obtain rfl := Option.some.inj hs
    exact hset.leave hnew
  back := by
    rintro F s a done b rest s' ⟨hJ, hset⟩ hN hs
    refine ⟨(g.dfo_counts first).back hJ hN hs, ?_⟩
    obtain rfl := Option.some.inj hs
    exact hset.push (hJ.2.left_or_path hJ.1.2)

theorem dfo_visit_settled {n : Nat} {s : Traversal} (hs : g.dfo.visit n {} first = some s) :
    Settled (fun b => (g.block b).succs) first [] s.result := by
  have hcounts : Traversal.Counts [] {} := ⟨by simp, .nil, rfl⟩
  exact ((g.dfo_settled first).visit ⟨⟨.start trivial, hcounts⟩, .start⟩ rfl trivial rfl hs).2

/-- An edge that does not go forward in the order returns to a block on the path to its source. -/
theorem WellConnected.returns (h : g.WellConnected first) (hs : g.doRPO = some l) {p b : Nat} (he : g.Edge p b)
    (hback : Before l b p ∨ b = p ∧ p ∈ l) : Returns g.Edge first p b := by
  simp only [Graph.doRPO, Graph.traverse, h.isEmpty, h.firstBlock, Bool.false_eq_true, if_false, if_true, Option.bind_eq_bind,
    Option.bind_some, Option.bind_eq_some_iff, ASSERT_eq_some, exists_const, Option.pure_def, Option.some.injEq] at hs
  obtain ⟨result, ⟨s, hs, -, rfl⟩, -, rfl⟩ := hs
  have hset := dfo_visit_settled hs
  rcases hback with ⟨l₁, l₂, heq, hp⟩ | ⟨rfl, hp⟩
  · have heq' : s.result = l₂.reverse ++ b :: l₁.reverse := by
      rw [← List.reverse_reverse s.result, heq]
      simp
    exact hset.back _ b _ heq' p (List.mem_append_left _ (List.mem_reverse.2 hp)) he
  · obtain ⟨l₁, l₂, heq⟩ := List.append_of_mem (List.mem_reverse.1 hp)
    exact hset.back l₁ b l₂ heq b (List.mem_append_right _ (List.mem_singleton_self b)) he

/-- `DoRPO` of a graph in which every block can be reached. -/
theorem WellConnected.doRPO_order (h : g.WellConnected first) (hreach : ∀ b ∈ g.blocks, g.Leads first b) :
    ∃ l, g.doRPO = some l ∧ l.Nodup ∧ (∀ b, b ∈ l ↔ b ∈ g.blocks) ∧ l.head? = some first ∧
      ((∀ b ∈ g.blocks, ¬TransGen g.Edge b b) → ∀ p ∈ g.blocks, ∀ b, g.Edge p b → Before l p b) ∧
      (Reducible g.Edge first → ∀ p ∈ g.blocks, ∀ b, g.Edge p b → Before l b p ∨ b = p → Dom g.Edge first b p) := by
  obtain ⟨l, hl, -, -⟩ := h.doRPO hreach
  obtain ⟨hnodup, hmem, hhead⟩ := h.doRPO_some hl
  refine ⟨l, hl, hnodup, hmem, hhead, fun hacyclic p hp b he => ?_, fun hred p hp b he hback => ?_⟩
  · have hb : b ∈ g.blocks := h.succ_mem p hp b he
    by_contra hno
    have hback : Before l b p ∨ b = p ∧ p ∈ l := by
      by_cases heq : b = p
      · exact .inr ⟨heq, (hmem p).2 hp⟩
      · exact .inl ((Before.or_of_mem ((hmem b).2 hb) ((hmem p).2 hp) heq).resolve_right hno)
    exact hacyclic p hp (TransGen.head' he (h.returns hl he hback).leads)
  · have hret := h.returns hl he (hback.imp_right fun heq => ⟨heq, (hmem p).2 hp⟩)
    exact hret.dom hred he

/-- A diamond whose last block jumps back to the first one. -/
def diamond : Graph := ofLists []
  [{ id := 0, preds := [3], succs := [1, 2] }, { id := 1, preds := [0], succs := [3] },
   { id := 2, preds := [0], succs := [3] }, { id := 3, preds := [1, 2], succs := [0] }] []

theorem diamond_wellConnected : diamond.WellConnected 0 where
  firstBlock := rfl
  first_mem := by decide
  nodup := by decide
  count := rfl
  lt := by decide
  succ_mem := by decide
  pred_mem := by decide
  edges := by decide

theorem doRPO_order_diamond : ∃ l, diamond.doRPO = some l ∧ l.Nodup ∧ (∀ b, b ∈ l ↔ b ∈ diamond.blocks) ∧ l.head? = some 0 := by
  obtain ⟨l, hl, hnodup, hmem, hhead, -⟩ := diamond_wellConnected.doRPO_order (leads_of_lt (by decide))
  exact ⟨l, hl, hnodup, hmem, hhead⟩

end CompilerLab.Jit.Graph
