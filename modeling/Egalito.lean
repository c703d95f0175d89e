import Egalito.IntervalTree.Theorems
import Egalito.IntervalTree.Invariants
import Egalito.Archive.Stream
import Egalito.Archive.ChunkTypes
import Egalito.Archive.Model
import Egalito.Archive.Theorems
import Egalito.Serializer.Link
import Egalito.Serializer.LinkTheorems
import Egalito.Serializer.DataVariable
import Egalito.Serializer.Semantic
import Egalito.Serializer.SemanticTheorems
import Egalito.Lib.Siblings
import Egalito.Mutator.Model
import Egalito.Lib.Run
import Egalito.Mutator.Splice
import Egalito.Mutator.Links
import Egalito.Mutator.Sizes
import Egalito.Mutator.Offset
import Egalito.Mutator.Layout
import Egalito.GnuHash.DynsymHash
import Egalito.Lib.Ordered
import Egalito.GnuHash.SymbolTable
import Egalito.GnuHash.Table
import Egalito.GnuHash.Emitted
import Egalito.GnuHash.Lookup
import Egalito.Generate.SectionList
import Egalito.Generate.FileWriter
import Egalito.Generate.GlobalPlt
import Egalito.Analysis.Walker
import Egalito.Analysis.Scc
import Egalito.Analysis.SccOrder
import Egalito.Dwarf.Bounds
import Egalito.Dwarf.Rejected
import Egalito.Elf.LdConfig
import Egalito.Dwarf.Walk
import Egalito.NonReturn.Model
import Egalito.NonReturn.Search
import Egalito.NonReturn.Marks
import Egalito.NonReturn.Pass
import Egalito.NonReturn.Order
import Egalito.NonReturn.Classify
import Egalito.Lib.Escape
import Egalito.Chunk.ChunkCache
import Egalito.Chunk.ChunkFind
import Egalito.Chunk.Resolver
import Egalito.Chunk.LinkTargets
import Egalito.Chunk.ChunkList
import Egalito.Lib.Index
import Egalito.Archive.Safety
import Egalito.Conductor.ParseOverride
import Egalito.Conductor.OverrideLines
import Egalito.Conductor.OverrideExact
import Egalito.Lib.Text
import Egalito.Elf.Relr
import Egalito.Elf.CanonicalAlias
import Egalito.Elf.SymbolAlias
import Egalito.Pass.HandleDataRelocs
import Egalito.Pass.DataRelocRuns
import Egalito.Code.Function
import Egalito.Code.Weaving
import Egalito.Pass.ShadowStack
import Egalito.Pass.ShadowStackPaths
import Egalito.Pass.StackExtend
import Egalito.Pass.StackXor
import Egalito.Lib.Propagation
import Egalito.Analysis.UseDef
import Egalito.Analysis.UseDefVisits
import Egalito.Analysis.UseDefExact
import Egalito.Serializer.ChunkTree
import Egalito.Serializer.ChunkTreeTheorems
import Egalito.Lib.Align
import Egalito.Transform.Sandbox
import Egalito.Lib.Image
import Egalito.Transform.Generator
import Egalito.Transform.GeneratorTheorems
import Egalito.Chunk.GSTable
import Egalito.Pass.JumpTableExact
import Egalito.Analysis.ReachingDef
import Egalito.Analysis.ReachingDefOrder
import Egalito.Lib.Schedule
import Egalito.Analysis.ReachingDefVisit
import Egalito.Pass.ReorderPush
import Egalito.Lib.Rearrange
import Egalito.Pass.PermuteData
import Egalito.Pass.PermuteDataLinks
import Egalito.Conductor.TLSArea
import Egalito.Lib.Runs
import Egalito.Generate.ModuleText
import Egalito.Dwarf.Leb128
import Egalito.Dwarf.EncodedPointer
import Egalito.Lib.Dominators
import Egalito.Analysis.Dominance
import Egalito.Analysis.DominanceExact
import Egalito.Analysis.PostDominance
import Egalito.Analysis.Reachable
import Egalito.Serializer.DataRegion
import Egalito.NonReturn.Coverage
import Egalito.IntervalTree.Calls
import Egalito.Dwarf.Operands
import Egalito.Lib.Machine
import Egalito.Dwarf.StackMachine
import Egalito.Dwarf.CallFrame
import Egalito.Dwarf.CallFrameRuns
import Egalito.Generate.BinGen
import Egalito.Generate.BinGenImage
import Egalito.IntervalTree.Coverage
import Egalito.IntervalTree.Nearest
import Egalito.Conductor.OverrideLookup
import Egalito.Analysis.SlicingTree
import Egalito.Analysis.TreeEqual
import Egalito.Analysis.TreePattern
import Egalito.Analysis.TreeCaptures
import Egalito.Analysis.IndexTable
import Egalito.Analysis.ValueReaches
import Egalito.Pass.FindSyscalls
import Egalito.Pass.FallThrough
import Egalito.Pass.InternalCalls
import Egalito.Analysis.FlowGraph
import Egalito.Analysis.BoundSearch
import Egalito.Analysis.BoundTermination
import Egalito.Lib.Pieces
import Egalito.Disasm.LinearDisassembly
import Egalito.IntervalTree.Depth
import Egalito.Disasm.Padding
import Egalito.Lib.Rows
import Egalito.Disasm.Partition
import Egalito.Archive.Offsets
import Egalito.Lib.SortedMap
import Egalito.Chunk.SpatialSearch
import Egalito.Lib.Buffer
import Egalito.Analysis.CallGraph
import Egalito.Pass.Debloat
import Egalito.Mutator.Semantics
import Egalito.Mutator.SplitBlock
import Egalito.Pass.SplitBasicBlock
import Egalito.X86.Machine
import Egalito.X86.Stack
import Egalito.Operation.AddInline
import Egalito.Pass.SyscallSandbox
import Egalito.Lib.Decimal
import Egalito.Pass.Retpoline
import Egalito.Lib.Edit
import Egalito.Pass.EndbrEnforce
import Egalito.Pass.UseGSTable
import Egalito.Pass.UseGSTableCode
import Egalito.Pass.UseGSTableRuns
import Egalito.Pass.UseGSTableExact
import Egalito.Pass.FrameSize
import Egalito.Analysis.PreorderGroups
import Egalito.Pass.SplitFunction
import Egalito.Pass.SplitFunctionRuns
import Egalito.Pass.PromoteJumps
import Egalito.Chunk.PLTList
import Egalito.Disasm.MakeSemantic
import Egalito.Lib.Field
import Egalito.Instr.LinkedInstruction
import Egalito.Instr.LinkedAarch64
import Egalito.Lib.Patterns
import Egalito.Disasm.A64
import Egalito.Disasm.RegBits
import Egalito.Pass.JumpTableBounds
import Egalito.Pass.FixJumpTables
import Egalito.Cminus.Print
import Egalito.Chunk.Marker
import Egalito.Elf.UnionFind
import Egalito.Elf.MappingSymbols
import Egalito.Generate.SymbolRebase
import Egalito.Analysis.MemOrigins
import Egalito.Analysis.CancelUse
import Egalito.Analysis.PointerDetection
import Egalito.Pass.JitGSSetup
import Egalito.Pass.TwocodeMerge
import Egalito.Pass.RegReplace
