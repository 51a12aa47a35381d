import HybridMount.AccessBounds
import HybridMount.ArtMap
import HybridMount.BackendWinners
import HybridMount.Blacklisted
import HybridMount.BootForeignRules
import HybridMount.BootGuard
import HybridMount.BootIsolation
import HybridMount.BootLoad
import HybridMount.CacheRuns
import HybridMount.ChildLookup
import HybridMount.ChildMultimap
import HybridMount.CleanupJournal
import HybridMount.Control
import HybridMount.ControlReport
import HybridMount.CursorReads
import HybridMount.Daemon
import HybridMount.DeletionFrame
import HybridMount.DeletionPages
import HybridMount.FailedAddition
import HybridMount.FileRegister
import HybridMount.GeneratedParents
import HybridMount.HotAgreement
import HybridMount.HotPlan
import HybridMount.ImageSize
import HybridMount.InterruptedMutations
import HybridMount.KernelInvariant
import HybridMount.LayerCollapse
import HybridMount.LayoutSoundness
import HybridMount.ListingComplete
import HybridMount.LoadCrashes
import HybridMount.MagicInPlace
import HybridMount.ModuleImage
import HybridMount.ModulesView
import HybridMount.MountCapture
import HybridMount.MountOptions
import HybridMount.MountPoints
import HybridMount.MountReport
import HybridMount.MountRetry
import HybridMount.MountRollback
import HybridMount.NodeLifetime
import HybridMount.OrderedLists
import HybridMount.OutputCapture
import HybridMount.OverlayStaging
import HybridMount.OverlayView
import HybridMount.PartitionMapping
import HybridMount.PayloadAgreement
import HybridMount.PipelineReports
import HybridMount.PlanConflicts
import HybridMount.PlanCoverage
import HybridMount.ProtectedTargets
import HybridMount.ReadDir
import HybridMount.ReadDirNames
import HybridMount.Readback
import HybridMount.RuleResolution
import HybridMount.SaturatingWord
import HybridMount.ScannedEntries
import HybridMount.ScannedModules
import HybridMount.ShadowedRules
import HybridMount.ShallowGroups
import HybridMount.SizeScan
import HybridMount.StagedTrees
import HybridMount.SymbolResolution
import HybridMount.Text
import HybridMount.TransactionVerdict
import HybridMount.TreeOrder
import HybridMount.UidTable
import HybridMount.UmountRegistrations
import HybridMount.VermagicPatch
import HybridMount.VfsCompleteness
import HybridMount.VfsShares
import HybridMount.VisibleNames
