import CompilerLab.Jit.Traversals
import CompilerLab.Lib.Dominance

/-!
# The stored dominator tree
-/

namespace CompilerLab.Jit.Graph

open CompilerLab.Lib

/-- What the blocks store is the dominator tree of the graph, in which every block can be reached. -/
structure DomTree (g : Graph) (first : Nat) : Prop where
  leads : ∀ b ∈ g.blocks, g.Leads first b
  root : (g.block first).dominator = none
  idom : ∀ b ∈ g.blocks, b ≠ first → ∃ a, (g.block b).dominator = some a ∧ IDom g.Edge first a b
  nodup : ∀ b ∈ g.blocks, (g.block b).dominated.Nodup
  dominated : ∀ b ∈ g.blocks, ∀ c, c ∈ (g.block b).dominated ↔ c ∈ g.blocks ∧ (g.block c).dominator = some b

/-- `PassManager::Run<DomTreeBuilder>`; `buildDomTree` is what `DomTreeBuilder::Run` does to a graph. -/
def runDomTreeBuilder (buildDomTree : Graph → Option Graph) (g : Graph) : Option Graph :=
  if g.valid .DOM_TREE then some g else (buildDomTree g).map fun g => g.setAnalysisValid .DOM_TREE true

/-- The dominators a graph has after `DomTreeBuilder` are correct, and nothing else has changed. -/
structure CorrectDominators (buildDomTree : Graph → Option Graph) (g : Graph) (first : Nat) (g' : Graph) : Prop where
  run : g.runDomTreeBuilder buildDomTree = some g'
  graph : g' = { g with block := g'.block, valid := g'.valid }
  block : ∀ b, g'.block b = { g.block b with dominator := (g'.block b).dominator, dominated := (g'.block b).dominated }
  domTree : g'.DomTree first

end CompilerLab.Jit.Graph
