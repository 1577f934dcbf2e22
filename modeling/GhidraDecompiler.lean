import GhidraDecompiler.Address
import GhidraDecompiler.Block.CommonBlock
import GhidraDecompiler.Block.Dominator
import GhidraDecompiler.Block.DominatorRounds
import GhidraDecompiler.Block.EdgeDedup
import GhidraDecompiler.Block.EdgeHistory
import GhidraDecompiler.Block.EdgeLabels
import GhidraDecompiler.Block.EdgeRewrites
import GhidraDecompiler.Block.EdgeScans
import GhidraDecompiler.Block.EdgeSpecs
import GhidraDecompiler.Block.EdgeStubs
import GhidraDecompiler.Block.Edges
import GhidraDecompiler.Block.FlowBlock
import GhidraDecompiler.Block.ForwardDominator
import GhidraDecompiler.Block.Irreducible
import GhidraDecompiler.Block.LabelCopies
import GhidraDecompiler.Block.LabelHistory
import GhidraDecompiler.Block.LoopEdges
import GhidraDecompiler.Block.ManyRoots
import GhidraDecompiler.Block.Reciprocal
import GhidraDecompiler.Block.SelfIdentify
import GhidraDecompiler.Block.SpanningForest
import GhidraDecompiler.Block.SpanningRounds
import GhidraDecompiler.Block.SpanningRun
import GhidraDecompiler.Block.SpanningTree
import GhidraDecompiler.Block.StructureLoops
import GhidraDecompiler.Block.VirtualRoot
import GhidraDecompiler.Context.ContextCache
import GhidraDecompiler.Context.ContextInternal
import GhidraDecompiler.Context.PartMap
import GhidraDecompiler.Cover.CoverBlock
import GhidraDecompiler.Cover.LiveBlocks
import GhidraDecompiler.Cover.LivePaths
import GhidraDecompiler.Cover.Rebuild
import GhidraDecompiler.Cover.UsePoints
import GhidraDecompiler.Dataflow.AddExpression
import GhidraDecompiler.Dataflow.FunctionalEquality
import GhidraDecompiler.Dataflow.Values
import GhidraDecompiler.Expression.BooleanMatch
import GhidraDecompiler.Expression.BooleanSound
import GhidraDecompiler.Expression.Correlation
import GhidraDecompiler.Expression.Dataflow
import GhidraDecompiler.Heritage.LocationMap
import GhidraDecompiler.Heritage.Refinement
import GhidraDecompiler.Heritage.RefinementTiles
import GhidraDecompiler.Lib.ArcSteps
import GhidraDecompiler.Lib.Arcs
import GhidraDecompiler.Lib.Arena
import GhidraDecompiler.Lib.BinarySearch
import GhidraDecompiler.Lib.BitMasks
import GhidraDecompiler.Lib.BitPieces
import GhidraDecompiler.Lib.BitWindows
import GhidraDecompiler.Lib.BitWords
import GhidraDecompiler.Lib.ByteLanes
import GhidraDecompiler.Lib.DepthFirst
import GhidraDecompiler.Lib.DigitGroups
import GhidraDecompiler.Lib.Dominance
import GhidraDecompiler.Lib.DominanceFrontier
import GhidraDecompiler.Lib.DominatorSweep
import GhidraDecompiler.Lib.EdgeClasses
import GhidraDecompiler.Lib.Fallible
import GhidraDecompiler.Lib.Flags
import GhidraDecompiler.Lib.HighMasks
import GhidraDecompiler.Lib.LinkChains
import GhidraDecompiler.Lib.LongDivision
import GhidraDecompiler.Lib.LoopHeads
import GhidraDecompiler.Lib.ParentForest
import GhidraDecompiler.Lib.Postorder
import GhidraDecompiler.Lib.Reciprocal
import GhidraDecompiler.Lib.Rings
import GhidraDecompiler.Lib.SafeRuns
import GhidraDecompiler.Lib.Segments
import GhidraDecompiler.Lib.ShiftChains
import GhidraDecompiler.Lib.SignedDivision
import GhidraDecompiler.Lib.SignedOverflow
import GhidraDecompiler.Lib.SignedPowers
import GhidraDecompiler.Lib.SortedMap
import GhidraDecompiler.Lib.Tiling
import GhidraDecompiler.Lib.TotalRuns
import GhidraDecompiler.Lib.WeakOrder
import GhidraDecompiler.Marshal.Codec
import GhidraDecompiler.Marshal.PackedBytes
import GhidraDecompiler.Marshal.PackedDecode
import GhidraDecompiler.Marshal.PackedEncode
import GhidraDecompiler.Marshal.PackedReads
import GhidraDecompiler.Marshal.PackedRoundTrip
import GhidraDecompiler.Marshal.PackedValues
import GhidraDecompiler.Memory.ByteAccess
import GhidraDecompiler.Memory.ByteStores
import GhidraDecompiler.Memory.HashOverlay
import GhidraDecompiler.Memory.MemoryBank
import GhidraDecompiler.Multiprecision.Arith128
import GhidraDecompiler.Multiprecision.LimbShifts
import GhidraDecompiler.Multiprecision.QuotientDigits
import GhidraDecompiler.Multiprecision.Udiv128
import GhidraDecompiler.Multiprecision.Words128
import GhidraDecompiler.OpBank.IntrusiveList
import GhidraDecompiler.OpBank.OrderedIndex
import GhidraDecompiler.OpBank.PcodeOpBank
import GhidraDecompiler.OpCode
import GhidraDecompiler.Pcode.Arithmetic
import GhidraDecompiler.Pcode.Comparisons
import GhidraDecompiler.Pcode.NzMask
import GhidraDecompiler.Pcode.NzMaskSound
import GhidraDecompiler.Pcode.OpBehavior
import GhidraDecompiler.Pcode.RecoverInput
import GhidraDecompiler.Pcode.Semantics
import GhidraDecompiler.Pcode.ShiftMasks
import GhidraDecompiler.Pcode.Words
import GhidraDecompiler.PrettyPrint.CircularQueue
import GhidraDecompiler.PrettyPrint.Consistency
import GhidraDecompiler.PrettyPrint.EmitCalls
import GhidraDecompiler.PrettyPrint.EmitPrettyPrint
import GhidraDecompiler.PrettyPrint.LineWidth
import GhidraDecompiler.PrettyPrint.OpenTokens
import GhidraDecompiler.PrettyPrint.ScanQueue
import GhidraDecompiler.PrettyPrint.TokenSplit
import GhidraDecompiler.PrintLanguage.IntegerLiterals
import GhidraDecompiler.PrintLanguage.PushInteger
import GhidraDecompiler.Range.CircleRange
import GhidraDecompiler.Range.CircleUnion
import GhidraDecompiler.Range.ComponentPass
import GhidraDecompiler.Range.ContainsRange
import GhidraDecompiler.Range.ForwardAdd
import GhidraDecompiler.Range.ForwardUnary
import GhidraDecompiler.Range.Intersect
import GhidraDecompiler.Range.IntersectExact
import GhidraDecompiler.Range.PullBack
import GhidraDecompiler.Range.PullBackAdditive
import GhidraDecompiler.Range.PullBackShift
import GhidraDecompiler.Range.PullBackUnary
import GhidraDecompiler.Range.PushForward
import GhidraDecompiler.Range.SetNzMask
import GhidraDecompiler.Range.Spans
import GhidraDecompiler.Range.TopologicalOrder
import GhidraDecompiler.Range.TranslateExact
import GhidraDecompiler.Range.TraversalEffect
import GhidraDecompiler.Range.UnionExact
import GhidraDecompiler.Range.ValueSetSolver
import GhidraDecompiler.RangeList
import GhidraDecompiler.RangeMap.Basic
import GhidraDecompiler.RangeMap.EraseParts
import GhidraDecompiler.RangeMap.Filling
import GhidraDecompiler.RangeMap.Grid
import GhidraDecompiler.RangeMap.InsertExact
import GhidraDecompiler.RangeMap.NoDuplicates
import GhidraDecompiler.RangeMap.Sewing
import GhidraDecompiler.RangeMap.SortedTree
import GhidraDecompiler.RuleAction.AndPiece
import GhidraDecompiler.RuleAction.BorrowCarry
import GhidraDecompiler.RuleAction.DivChain
import GhidraDecompiler.RuleAction.Division
import GhidraDecompiler.RuleAction.DoubleShift
import GhidraDecompiler.RuleAction.Editing
import GhidraDecompiler.RuleAction.Equality
import GhidraDecompiler.RuleAction.HighOrderAnd
import GhidraDecompiler.RuleAction.MaskedShifts
import GhidraDecompiler.RuleAction.Matching
import GhidraDecompiler.RuleAction.NodeValues
import GhidraDecompiler.RuleAction.Preservation
import GhidraDecompiler.RuleAction.RangeMeld
import GhidraDecompiler.RuleAction.RewiredValues
import GhidraDecompiler.RuleAction.Rewiring
import GhidraDecompiler.RuleAction.RuleValues
import GhidraDecompiler.RuleAction.ShiftPiece
import GhidraDecompiler.RuleAction.ShiftRules
import GhidraDecompiler.RuleAction.SignRules
import GhidraDecompiler.RuleAction.SubNormal
import GhidraDecompiler.Sleigh.ParserContext
import GhidraDecompiler.Sleigh.PatternBlock
import GhidraDecompiler.Sorting.StdSort
import GhidraDecompiler.Strings.Defects
import GhidraDecompiler.Strings.Encodings
import GhidraDecompiler.Strings.Exactness
import GhidraDecompiler.Strings.StringLiteral
import GhidraDecompiler.Strings.StringManager
import GhidraDecompiler.Strings.StringTable
import GhidraDecompiler.Strings.Transcoding
import GhidraDecompiler.Strings.Utf8
import GhidraDecompiler.Strings.ZeroFill
import GhidraDecompiler.Translate.JoinBytes
import GhidraDecompiler.Translate.JoinTable
import GhidraDecompiler.Translate.OverlapJoin
import GhidraDecompiler.Translate.Renormalize
import GhidraDecompiler.Translate.SpaceManager
import GhidraDecompiler.Translate.WrappingAddress
import GhidraDecompiler.Types.DecodeStruct
import GhidraDecompiler.Types.MemberCodec
import GhidraDecompiler.Types.StructLayout
import GhidraDecompiler.Xml.Content
import GhidraDecompiler.Xml.ParserView
import GhidraDecompiler.Xml.RoundTrip
import GhidraDecompiler.Xml.ScanLeft
import GhidraDecompiler.Xml.ScanView
import GhidraDecompiler.Xml.Tags
import GhidraDecompiler.Xml.Totality
import GhidraDecompiler.Xml.Writer
import GhidraDecompiler.Xml.XmlParser
import GhidraDecompiler.Xml.XmlScan
