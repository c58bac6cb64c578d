import Trustme.Lib.OrdMap
import Trustme.Lib.MirroredWrites
import Trustme.Lib.ByteStore
import Trustme.Lib.Fragments
import Trustme.Lib.Explore
import Trustme.Lowering.VarState
import Trustme.Lowering.DropFlags
import Trustme.Lowering.MergeState
import Trustme.Lowering.Meetings
import Trustme.Lowering.MergeRuns
import Trustme.Lowering.MergeReads
import Trustme.Lowering.MergeSteps
import Trustme.Lowering.MergeCases
import Trustme.Lowering.MergeEnds
import Trustme.Lowering.Joins
import Trustme.Lowering.LoopHeads
import Trustme.Lowering.LoopEntries
import Trustme.Lowering.LoopEdges
import Trustme.Lowering.LoopRuns
import Trustme.Lowering.DropCode
import Trustme.Lowering.DropParts
import Trustme.Lowering.Unwinding
import Trustme.Lowering.DropRuns
import Trustme.Mir.Flow
import Trustme.Mir.DeadDropFlags
import Trustme.Mangling.Injective
import Trustme.Macro.Transcription
import Trustme.Eval.Allocation
import Trustme.Eval.Memory
import Trustme.Eval.Cells
import Trustme.Eval.CellWrites
import Trustme.Eval.CellCopies
import Trustme.Eval.CellRuns
import Trustme.Numeric.S128
import Trustme.Numeric.Float128Arithmetic
import Trustme.Cargo.ExecutorRuns
import Trustme.Cargo.TaskUid
import Trustme.Eval.Lifting
import Trustme.Metadata.LazyBodies
import Trustme.Mir.BlockSimplify
import Trustme.Mir.BlockUnify
import Trustme.Mir.GarbageCollect
import Trustme.Cargo.ResolveOrder
import Trustme.Eval.DiscriminantRuns
import Trustme.Eval.StepRuns
import Trustme.Target.UnivariantRuns
import Trustme.Mir.DeadAssignmentRuns
import Trustme.Lexing.InitialScanRuns
import Trustme.Numeric.U128Text
import Trustme.Numeric.U128Float
import Trustme.Ident.HygieneChains
import Trustme.Metadata.MacroArmRuns
import Trustme.ProcMacro.ProtocolStreams
import Trustme.Lexing.NfcCorrect
import Trustme.ProcMacro.LexerRuns
import Trustme.ProcMacro.StreamRuns
import Trustme.Cargo.Profiles
import Trustme.Cargo.Vendor
import Trustme.Cargo.RequirementRules
import Trustme.Cargo.CfgTexts
import Trustme.Eval.LiteralSlices
import Trustme.Numeric.Float128Remainder
import Trustme.Numeric.Float128Format
import Trustme.Macro.FollowSets
import Trustme.Parse.ParseTT
import Trustme.Lowering.ScopeExits
