import LoopNest.Main
import LoopNest.Proofs.BlockHierarchy
import LoopNest.Proofs.BlockScopes
import LoopNest.Proofs.BlockSizes
import LoopNest.Proofs.CreatedBlocks
import LoopNest.Proofs.EquationOrder
import LoopNest.Proofs.FusionOrder
import LoopNest.Proofs.LoopScopes
import LoopNest.Proofs.ParallelLoops
import LoopNest.Proofs.RoundTrip
import LoopNest.Proofs.TagProvenance
import LoopNest.Proofs.MeasuredDependences
import LoopNest.Proofs.TreeLeaves
import LoopNest.Proofs.QueueVisits
import LoopNest.Proofs.PassFailures
import LoopNest.Proofs.RemainderParts
import LoopNest.Proofs.Places
import LoopNest.Proofs.RemainderOrder
import LoopNest.Proofs.BlockedPoints
import LoopNest.Proofs.KeptLoops
import LoopNest.Proofs.SettledSplits
import LoopNest.Proofs.FootprintHalos
import LoopNest.Proofs.BlockOrder
import LoopNest.Proofs.InterchangedLoops
import LoopNest.Proofs.TiledNests
import LoopNest.Proofs.CrossedLoops
import LoopNest.Proofs.GroupPlacement
import LoopNest.Proofs.GrowingNests
import LoopNest.Proofs.HeldLoops
import LoopNest.Proofs.FusedNests
import LoopNest.Proofs.CarriedLoops
import LoopNest.Proofs.StableOrder
import LoopNest.Proofs.RenderedLines
import LoopNest.Proofs.SharedLoops
import LoopNest.Proofs.ClosedRoutines
import LoopNest.Proofs.CombinedGroups
import LoopNest.Proofs.UnitedSpaces
import LoopNest.Proofs.Substitutions
import LoopNest.Proofs.MirroredBounds
import LoopNest.Proofs.WrittenExpressions
