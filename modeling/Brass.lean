import Brass.Gc.CodeStackMapsRun
import Brass.Gc.StackMapCodec
import Brass.Gc.LargeSpaceRun
import Brass.Gc.MatureSpaceRun
import Brass.Codegen.SchedulerSound
import Brass.Spirv.AnyWords
import Brass.Gc.MarkFinish
import Brass.Verify.BvSolveSound
import Brass.Gc.StackMapLookup
import Brass.Verify.BvIntervalSound
import Brass.Mir.LoadPreserved
import Brass.Codegen.ParallelCopySound
import Brass.Codegen.RootsExact
import Brass.Codegen.SlotSharing
import Brass.Target.LogicalImmediate
import Brass.Target.DivMod
import Brass.Mir.RangeScopesSound
import Brass.Codegen.BlockLayoutSound
import Brass.Codegen.SoftwarePipelineSound
import Brass.Codegen.BranchRelay
import Brass.Codegen.BranchThreadingSound
import Brass.Vm.EdgeMoves
import Brass.Mir.ImpliedChecksSound
import Brass.Vm.BytecodeFrames
import Brass.Mir.EscapeSound
import Brass.Runtime.CompilePoolRun
import Brass.Runtime.ParallelExact
import Brass.Mir.CriticalEdgeSound
import Brass.Mir.PreAvailability
import Brass.Codegen.ConstraintTable
import Brass.Mir.LoopAffine
