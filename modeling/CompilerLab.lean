import CompilerLab.Lib.ByteStore
import CompilerLab.Lib.ByteStream
import CompilerLab.Lib.Chain
import CompilerLab.Lib.Contraction
import CompilerLab.Lib.Dfs
import CompilerLab.Lib.Dominance
import CompilerLab.Lib.Elementary
import CompilerLab.Lib.NaturalLoop
import CompilerLab.Lib.OptionFold
import CompilerLab.Lib.Outcome
import CompilerLab.Lib.ParallelMove
import CompilerLab.Lib.Postorder
import CompilerLab.Lib.Pruning
import CompilerLab.Lib.Run
import CompilerLab.Lib.Rv32i
import CompilerLab.Lib.Rv32iImmediate
import CompilerLab.Lib.Scanf
import CompilerLab.Lib.Segment
import CompilerLab.Lib.StateExcept
import CompilerLab.Lib.Vector
import CompilerLab.Jit.BasicBlock
import CompilerLab.Jit.Branch
import CompilerLab.Jit.BranchElimination
import CompilerLab.Jit.CheckElimination
import CompilerLab.Jit.Checks
import CompilerLab.Jit.DCE
import CompilerLab.Jit.DefUse
import CompilerLab.Jit.DomTree
import CompilerLab.Jit.DomTreeBuilder
import CompilerLab.Jit.EdgeOps
import CompilerLab.Jit.EmptyBlocksRemoval
import CompilerLab.Jit.Eval
import CompilerLab.Jit.GraphChecker
import CompilerLab.Jit.GraphOps
import CompilerLab.Jit.Inlining
import CompilerLab.Jit.InstructionList
import CompilerLab.Jit.Ir
import CompilerLab.Jit.LinearOrdering
import CompilerLab.Jit.LinearScanRegAlloc
import CompilerLab.Jit.LiveIntervals
import CompilerLab.Jit.Loop
import CompilerLab.Jit.LoopAnalyzer
import CompilerLab.Jit.Marker
import CompilerLab.Jit.Peephole
import CompilerLab.Jit.RegMap
import CompilerLab.Jit.ResolvePhis
import CompilerLab.Jit.Traversals
import CompilerLab.Jit.Types
import CompilerLab.Jit.Lemmas.BranchElimination
import CompilerLab.Jit.Lemmas.CheckElimination
import CompilerLab.Jit.Lemmas.Checks
import CompilerLab.Jit.Lemmas.CriticalEdge
import CompilerLab.Jit.Lemmas.DCE
import CompilerLab.Jit.Lemmas.DefUse
import CompilerLab.Jit.Lemmas.DomTree
import CompilerLab.Jit.Lemmas.DomTreeBuilder
import CompilerLab.Jit.Lemmas.Edges
import CompilerLab.Jit.Lemmas.EmptyBlocksRemoval
import CompilerLab.Jit.Lemmas.Eval
import CompilerLab.Jit.Lemmas.Inlining
import CompilerLab.Jit.Lemmas.InstructionList
import CompilerLab.Jit.Lemmas.Joins
import CompilerLab.Jit.Lemmas.Layout
import CompilerLab.Jit.Lemmas.LinearOrder
import CompilerLab.Jit.Lemmas.LinearOrdering
import CompilerLab.Jit.Lemmas.Links
import CompilerLab.Jit.Lemmas.Lists
import CompilerLab.Jit.Lemmas.LoopHeaders
import CompilerLab.Jit.Lemmas.LoopHistory
import CompilerLab.Jit.Lemmas.LoopRoom
import CompilerLab.Jit.Lemmas.LoopSearch
import CompilerLab.Jit.Lemmas.LoopTree
import CompilerLab.Jit.Lemmas.Peephole
import CompilerLab.Jit.Lemmas.PhiEdges
import CompilerLab.Jit.Lemmas.PhiMoves
import CompilerLab.Jit.Lemmas.Removal
import CompilerLab.Jit.Lemmas.SemiDominators
import CompilerLab.Jit.Lemmas.Splice
import CompilerLab.Jit.Lemmas.SplitBlock
import CompilerLab.Jit.Lemmas.Strung
import CompilerLab.Jit.Lemmas.Traversals
import CompilerLab.Jit.Lemmas.Words
import CompilerLab.Jit.Theorems.BlockRemoval
import CompilerLab.Jit.Theorems.BranchDomTree
import CompilerLab.Jit.Theorems.BranchElimination
import CompilerLab.Jit.Theorems.CheckElimination
import CompilerLab.Jit.Theorems.DCE
import CompilerLab.Jit.Theorems.DomTreeBuilder
import CompilerLab.Jit.Theorems.EdgeSplitting
import CompilerLab.Jit.Theorems.EmptyBlocksRemoval
import CompilerLab.Jit.Theorems.GraphChecker
import CompilerLab.Jit.Theorems.InstructionList
import CompilerLab.Jit.Theorems.LinearOrder
import CompilerLab.Jit.Theorems.LinearOrderTermination
import CompilerLab.Jit.Theorems.LinearOrdering
import CompilerLab.Jit.Theorems.LinearScan
import CompilerLab.Jit.Theorems.LoopAnalyzer
import CompilerLab.Jit.Theorems.LoopHistory
import CompilerLab.Jit.Theorems.Marker
import CompilerLab.Jit.Theorems.Peephole
import CompilerLab.Jit.Theorems.PhiEdges
import CompilerLab.Jit.Theorems.RegMap
import CompilerLab.Jit.Theorems.ResolvePhis
import CompilerLab.Jit.Theorems.ReversePostorder
import CompilerLab.Jit.Theorems.SplitBlock
import CompilerLab.Riscv.ControlUnit
import CompilerLab.Riscv.MemoryAccess
import CompilerLab.Riscv.Modules
import CompilerLab.Riscv.Pipeline
import CompilerLab.Riscv.Sequential
import CompilerLab.Riscv.Lemmas.Redirect
import CompilerLab.Riscv.Lemmas.Tick
import CompilerLab.Riscv.Theorems.Immediates
import CompilerLab.Riscv.Theorems.MemoryUnits
import CompilerLab.Riscv.Theorems.Semantics
import CompilerLab.Riscv.Theorems.WrongPath
import CompilerLab.Leech.Executor
import CompilerLab.Leech.Format
import CompilerLab.Leech.Frontend
import CompilerLab.Leech.Instances
import CompilerLab.Leech.LeechFile
import CompilerLab.Leech.LeechObj
import CompilerLab.Leech.Opcodes
import CompilerLab.Leech.Region
import CompilerLab.Leech.Lemmas.Calls
import CompilerLab.Leech.Lemmas.Format
import CompilerLab.Leech.Lemmas.Frames
import CompilerLab.Leech.Lemmas.Labels
import CompilerLab.Leech.Lemmas.Reachable
import CompilerLab.Leech.Lemmas.RoundTrip
import CompilerLab.Leech.Lemmas.Serialize
import CompilerLab.Leech.Theorems.Calls
import CompilerLab.Leech.Theorems.Deserialize
import CompilerLab.Leech.Theorems.Instances
import CompilerLab.Leech.Theorems.Labels
import CompilerLab.Leech.Theorems.Region
import CompilerLab.Leech.Theorems.RoundTrip
import CompilerLab.Asm.Assembler
import CompilerLab.Asm.Cmds
import CompilerLab.Asm.Integers
import CompilerLab.Asm.Processor
import CompilerLab.Asm.Runs
import CompilerLab.Asm.Stack
import CompilerLab.Asm.Lemmas.Args
import CompilerLab.Asm.Lemmas.Decode
import CompilerLab.Asm.Lemmas.Integers
import CompilerLab.Asm.Lemmas.Lines
import CompilerLab.Asm.Lemmas.Loading
import CompilerLab.Asm.Lemmas.Passes
import CompilerLab.Asm.Theorems.Encode
import CompilerLab.Asm.Theorems.Labels
import CompilerLab.Asm.Theorems.Stack
import CompilerLab.Derivative.CalcTree
import CompilerLab.Derivative.Lexer
import CompilerLab.Derivative.Parser
import CompilerLab.Derivative.Simplify
import CompilerLab.Derivative.Spelling
import CompilerLab.Derivative.Tree
import CompilerLab.Derivative.Lemmas.Simplify
import CompilerLab.Derivative.Theorems.CalcTree
import CompilerLab.Derivative.Theorems.Derivative
import CompilerLab.Derivative.Theorems.Simplify
import CompilerLab.Derivative.Theorems.Spelling
import CompilerLab.Language.Code
import CompilerLab.Language.Grammar
import CompilerLab.Language.Labels
import CompilerLab.Language.Params
import CompilerLab.Language.Parser
import CompilerLab.Language.Spelling
import CompilerLab.Language.Syntax
import CompilerLab.Language.Text
import CompilerLab.Language.Tree
import CompilerLab.Language.TreeFile
import CompilerLab.Language.TreeToAsm
import CompilerLab.Language.Variables
import CompilerLab.Language.Lemmas.Bounds
import CompilerLab.Language.Lemmas.Code
import CompilerLab.Language.Lemmas.Fuel
import CompilerLab.Language.Lemmas.Labels
import CompilerLab.Language.Lemmas.Namespaces
import CompilerLab.Language.Lemmas.Parser
import CompilerLab.Language.Lemmas.Simulation
import CompilerLab.Language.Lemmas.Spelling
import CompilerLab.Language.Lemmas.Text
import CompilerLab.Language.Lemmas.Tree
import CompilerLab.Language.Lemmas.TreeFile
import CompilerLab.Language.Lemmas.Variables
import CompilerLab.Language.Theorems.Assembly
import CompilerLab.Language.Theorems.Compiler
import CompilerLab.Language.Theorems.Labels
import CompilerLab.Language.Theorems.Spelling
import CompilerLab.Language.Theorems.Termination
import CompilerLab.Language.Theorems.Toolchain
import CompilerLab.Language.Theorems.TreeFile
import CompilerLab.Language.Theorems.Types
import CompilerLab.Language.Theorems.Variables
import CompilerLab.LoadScreen.Screen
import CompilerLab.LoadScreen.Lemmas.Screen
import CompilerLab.LoadScreen.Theorems.Clipping
