import HybridMount.CleanupJournal
import HybridMount.MountReport
import HybridMount.Settings
import Mathlib.Data.Finset.Basic

/-! What a boot reports of itself: the state file, the list of modules, and the comparison of two
snapshots of the mount table on which the report of a rollback rests. -/

namespace HybridMount.Pipeline

open Plan

/-- The mount points with the ids of the mounts stacked there. -/
abbrev MountIds := OrderedMap.Map Names (Finset Int) textOrder

structure MountSnapshot where
  ids : MountIds

namespace MountSnapshot

def addRecord (ids : MountIds) (mount : Names × Int) : MountIds :=
  ids.insert mount.1 (insert mount.2 ((ids.get mount.1).getD ∅))

def fromRecords (records : List (Names × Int)) : MountSnapshot := ⟨records.foldl addRecord .empty⟩

def contains (snapshot : MountSnapshot) (path : Names) : Bool := (snapshot.ids.get path).isSome

def subtreeIds (snapshot : MountSnapshot) (root : Names) : List (Names × Finset Int) :=
  snapshot.ids.entries.filter fun entry => root <+: entry.1

end MountSnapshot

/-- A list of paths as a sorted list without repetitions. -/
def sortDedup (paths : List Names) : List Names :=
  (paths.insertionSort fun left right => textOrder left right ≠ .gt).dedup

def leftoverAt (baseline current : MountSnapshot) (root : Names) : List Names :=
  ((current.subtreeIds root).filter fun entry =>
    OrderedMap.get textOrder entry.1 (baseline.subtreeIds root) ≠ some entry.2).map Prod.fst

def missingAt (baseline current : MountSnapshot) (root : Names) : List Names :=
  ((baseline.subtreeIds root).filter fun entry =>
    (OrderedMap.get textOrder entry.1 (current.subtreeIds root)).isNone).map Prod.fst

/-- The paths below the targets with other mounts than before, and those with none any more. -/
def mountinfoMismatches (baseline current : MountSnapshot) (targets : List Names) : List Names × List Names :=
  (sortDedup (targets.flatMap (leftoverAt baseline current)),
    sortDedup (targets.flatMap (missingAt baseline current)))

def confirmedMountTargets (targets : List Names) (snapshot : MountSnapshot) : List Names :=
  targets.filter snapshot.contains

def mergeActiveMounts (overlay magic vfs : List Names) : List Names := sortDedup (overlay ++ magic ++ vfs)

section Snapshots

variable {records baseline current : List (Names × Int)} {targets : List Names} {path root : Names} {id : Int}
  {found : Finset Int}

open MountSnapshot

/-- What a snapshot knows of a path. -/
structure Knows (records : List (Names × Int)) (ids : MountIds) : Prop where
  mem : ∀ path id, id ∈ (ids.get path).getD ∅ ↔ (path, id) ∈ records
  present : ∀ path, (ids.get path).isSome = true ↔ ∃ id, (path, id) ∈ records

theorem Knows.addRecord {ids : MountIds} (h : Knows records ids) (mount : Names × Int) :
    Knows (records ++ [mount]) (addRecord ids mount) := by
  obtain ⟨point, mntId⟩ := mount
  constructor
  · intro path id
    by_cases hpath : path = point
    · subst hpath
      simp [MountSnapshot.addRecord, OrderedMap.Map.get_insert, h.mem, or_comm]
    · simp [MountSnapshot.addRecord, OrderedMap.Map.get_insert, h.mem, hpath]
  · intro path
    by_cases hpath : path = point
    · subst hpath
      simp [MountSnapshot.addRecord, OrderedMap.Map.get_insert]
    · simp [MountSnapshot.addRecord, OrderedMap.Map.get_insert, h.present, hpath]

theorem knows_foldl {ids : MountIds} (h : Knows baseline ids) :
    Knows (baseline ++ records) (records.foldl addRecord ids) := by
  induction records generalizing baseline ids with
  | nil => simpa using h
  | cons mount rest ih => simpa using ih (h.addRecord mount)

theorem knows_fromRecords : Knows records (fromRecords records).ids := by
  have hempty : Knows [] (.empty : MountIds) := ⟨fun _ _ => by simp, fun _ => by simp⟩
  exact knows_foldl hempty

theorem contains_iff : (fromRecords records).contains path = true ↔ ∃ id, (path, id) ∈ records :=
    knows_fromRecords.present path

theorem get_subtreeIds {snapshot : MountSnapshot} :
    OrderedMap.get textOrder path (snapshot.subtreeIds root) = some found ↔
    root <+: path ∧ snapshot.ids.get path = some found := by
  have hsorted : OrderedMap.Sorted textOrder (snapshot.subtreeIds root) := snapshot.ids.sorted.filter _
  constructor
  · intro h
    have hmem := List.mem_filter.mp (OrderedMap.get_mem h)
    exact ⟨of_decide_eq_true hmem.2, OrderedMap.Map.mem_entries.mp hmem.1⟩
  · intro h
    obtain ⟨hroot, hget⟩ := h
    exact OrderedMap.get_of_mem hsorted
      (List.mem_filter.mpr ⟨OrderedMap.Map.mem_entries.mpr hget, decide_eq_true hroot⟩)

theorem mem_subtreeIds {snapshot : MountSnapshot} :
    (path, found) ∈ snapshot.subtreeIds root ↔ root <+: path ∧ snapshot.ids.get path = some found := by
  rw [MountSnapshot.subtreeIds, List.mem_filter, OrderedMap.Map.mem_entries, decide_eq_true_iff, and_comm]

theorem mem_sortDedup {paths : List Names} : path ∈ sortDedup paths ↔ path ∈ paths := by
  rw [sortDedup, List.mem_dedup, List.mem_insertionSort]

/-- Other mounts stand at the path than before. -/
def Changed (baseline current : List (Names × Int)) (path : Names) : Prop := ¬∀ id, (path, id) ∈ current ↔
    (path, id) ∈ baseline

theorem get_eq_iff (h : (fromRecords current).ids.get path = some found) :
    (fromRecords baseline).ids.get path = some found ↔ ¬Changed baseline current path := by
  have hmem : ∀ id, id ∈ found ↔ (path, id) ∈ current := by
    intro id
    rw [← knows_fromRecords.mem, h, Option.getD_some]
  have hsome : ∃ id, (path, id) ∈ current := knows_fromRecords.present path |>.mp (by rw [h]; rfl)
  rw [Changed, not_not]
  constructor
  · intro hbase id
    rw [← hmem, ← knows_fromRecords.mem, hbase, Option.getD_some]
  · intro hsame
    obtain ⟨id, hid⟩ := hsome
    obtain ⟨before, hbefore⟩ :=
      Option.isSome_iff_exists.mp ((knows_fromRecords.present path).mpr ⟨id, (hsame id).mp hid⟩)
    rw [hbefore]
    congr 1
    ext id
    rw [hmem, hsame, ← knows_fromRecords.mem, hbefore, Option.getD_some]

theorem mem_leftover : path ∈ (mountinfoMismatches (fromRecords baseline) (fromRecords current) targets).1 ↔
    (∃ root ∈ targets, root <+: path) ∧ (∃ id, (path, id) ∈ current) ∧ Changed baseline current path := by
  rw [mountinfoMismatches, mem_sortDedup, List.mem_flatMap]
  constructor
  · rintro ⟨root, hroot, hpath⟩
    obtain ⟨entry, hentry, rfl⟩ := List.mem_map.mp hpath
    obtain ⟨hmem, hne⟩ := List.mem_filter.mp hentry
    obtain ⟨hpre, hget⟩ := mem_subtreeIds.mp hmem
    refine ⟨⟨root, hroot, hpre⟩, (knows_fromRecords.present _).mp (by rw [hget]; rfl), ?_⟩
    by_contra hsame
    exact of_decide_eq_true hne (get_subtreeIds.mpr ⟨hpre, (get_eq_iff hget).mpr hsame⟩)
  · rintro ⟨⟨root, hroot, hpre⟩, hsome, hchanged⟩
    obtain ⟨found, hget⟩ := Option.isSome_iff_exists.mp ((knows_fromRecords.present path).mpr hsome)
    refine ⟨root, hroot, List.mem_map.mpr
      ⟨(path, found), List.mem_filter.mpr ⟨mem_subtreeIds.mpr ⟨hpre, hget⟩, ?_⟩, rfl⟩⟩
    refine decide_eq_true fun hbase => (get_eq_iff hget).mp (get_subtreeIds.mp hbase).2 hchanged

theorem mem_missing : path ∈ (mountinfoMismatches (fromRecords baseline) (fromRecords current) targets).2 ↔
    (∃ root ∈ targets, root <+: path) ∧ (∃ id, (path, id) ∈ baseline) ∧ ∀ id, (path, id) ∉ current := by
  have hgone : ∀ root, root <+: path →
      ((OrderedMap.get textOrder path ((fromRecords current).subtreeIds root)).isNone = true ↔
      ∀ id, (path, id) ∉ current) := by
    intro root hpre
    rw [← not_exists, ← knows_fromRecords.present path, Option.isNone_iff_eq_none, Bool.not_eq_true,
      Option.isSome_eq_false_iff,
      Option.isNone_iff_eq_none]
    simp only [Option.eq_none_iff_forall_ne_some]
    exact forall_congr' fun found => not_congr (get_subtreeIds.trans (and_iff_right hpre))
  rw [mountinfoMismatches, mem_sortDedup, List.mem_flatMap]
  constructor
  · rintro ⟨root, hroot, hpath⟩
    obtain ⟨entry, hentry, rfl⟩ := List.mem_map.mp hpath
    obtain ⟨hmem, hnone⟩ := List.mem_filter.mp hentry
    obtain ⟨hpre, hget⟩ := mem_subtreeIds.mp hmem
    exact ⟨⟨root, hroot, hpre⟩, (knows_fromRecords.present _).mp (by rw [hget]; rfl),
      (hgone root hpre).mp hnone⟩
  · rintro ⟨⟨root, hroot, hpre⟩, hsome, hnone⟩
    obtain ⟨found, hget⟩ := Option.isSome_iff_exists.mp ((knows_fromRecords.present path).mpr hsome)
    refine ⟨root, hroot, List.mem_map.mpr
      ⟨(path, found), List.mem_filter.mpr ⟨mem_subtreeIds.mpr ⟨hpre, hget⟩, ?_⟩, rfl⟩⟩
    exact (hgone root hpre).mpr hnone

/-- Nothing is reported just where the same mounts stand below every target. -/
theorem mismatches_nil
    (hleft : (mountinfoMismatches (fromRecords baseline) (fromRecords current) targets).1 = [])
    (hmissing : (mountinfoMismatches (fromRecords baseline) (fromRecords current) targets).2 = [])
    (hroot : root ∈ targets)
    (hpre : root <+: path) : (path, id) ∈ current ↔ (path, id) ∈ baseline := by
  by_cases hsome : ∃ id, (path, id) ∈ current
  · by_contra hne
    have hmem : path ∈ (mountinfoMismatches (fromRecords baseline) (fromRecords current) targets).1 :=
      mem_leftover.mpr ⟨⟨root, hroot, hpre⟩, hsome, fun hsame => hne (hsame id)⟩
    rw [hleft] at hmem
    cases hmem
  · have hnone : ∀ id, (path, id) ∉ current := fun id hid => hsome ⟨id, hid⟩
    refine ⟨fun hid => absurd hid (hnone id), fun hid => ?_⟩
    have hmem : path ∈ (mountinfoMismatches (fromRecords baseline) (fromRecords current) targets).2 :=
      mem_missing.mpr ⟨⟨root, hroot, hpre⟩, ⟨id, hid⟩, hnone⟩
    rw [hmissing] at hmem
    cases hmem

end Snapshots

structure MountStatistics where
  totalMounts : Nat := 0
  successfulMounts : Nat := 0
  failedMounts : Nat := 0
  filesMounted : Nat := 0
  symlinksCreated : Nat := 0
  overlayfsMounts : Nat := 0
  ignoredEntries : Nat := 0
  magicDirs : Nat := 0
  deriving DecidableEq, Repr

structure ModeStats where
  overlayfs : Nat := 0
  magicmount : Nat := 0
  vfs : Nat := 0
  deriving DecidableEq, Repr

inductive RollbackStatus where
  | pendingCommit
  | committed
  | clean
  | incomplete
  | unverified
  deriving DecidableEq, Repr

/-- The stages whose failure is written down. -/
inductive Stage where
  | config
  | partitionLayout
  | scan
  | vfs
  | plan
  | state
  | baseline
  | mountExecution
  | mountinfoConfirm
  | moduleSnapshotSave
  | stateSave
  | mountTransactionCommit
  deriving DecidableEq, Repr

def NO_STORAGE_MODE : String := "none"

def MOUNT_ERROR_REASON : String := "mount_error marker present"

structure RunState where
  storageMode : String := ""
  /-- Empty where there is none. -/
  mountPoint : String := ""
  overlayModules : List String := []
  magicModules : List String := []
  skipMountModules : List String := []
  activeMounts : List Names := []
  overlayActiveMounts : List Names := []
  magicActiveMounts : List Names := []
  vfsModules : List String := []
  vfsActiveMounts : List Names := []
  vfsProvider : Option String := none
  vfsError : Option String := none
  vfsErrorModules : List String := []
  confirmedActiveMounts : List Names := []
  degraded : Bool := false
  partitionErrors : List PartitionDiagnostic := []
  operationErrors : List OperationDiagnostic := []
  mountErrorModules : List String := []
  mountErrorReasons : List (String × String) := []
  mountStats : MountStatistics := {}
  modeStats : ModeStats := {}
  failedStage : Option Stage := none
  failureReason : Option String := none
  rollbackStatus : Option RollbackStatus := none
  leftoverMountTargets : List Names := []
  deriving DecidableEq, Repr

def mountErrorReasons (modules : List String) : List (String × String) :=
    modules.map fun module => (module, MOUNT_ERROR_REASON)

def RunState.fromPlan (modules : List ModuleRecord) (plan : Plan.MountPlan)
    (mountErrorModules : List String) : RunState where
  storageMode := NO_STORAGE_MODE
  overlayModules := plan.overlayModuleIds
  magicModules := plan.magicModuleIds
  skipMountModules := (modules.filter ModuleRecord.skipMount).map ModuleRecord.id
  modeStats := ⟨plan.overlayModuleIds.length, plan.magicModuleIds.length, plan.vfsModuleIds.length⟩
  vfsModules := plan.vfsModuleIds
  partitionErrors := plan.partitionErrors
  operationErrors := plan.operationErrors
  degraded := !plan.partitionErrors.isEmpty || !plan.operationErrors.isEmpty
  mountErrorModules := mountErrorModules
  mountErrorReasons := Pipeline.mountErrorReasons mountErrorModules

def RunState.fromStartupFailure (stage : Stage) (reason : String) : RunState where
  storageMode := NO_STORAGE_MODE
  failedStage := some stage
  failureReason := some reason
  rollbackStatus := some .clean

structure RollbackSummary where
  status : RollbackStatus
  leftoverTargets : List Names

/-- The report of a failure: nothing is active any more. -/
def RunState.failed (state : RunState) (stage : Stage) (reason : String)
    (rollback : RollbackSummary) : RunState :=
  { state with
    mountPoint := ""
    activeMounts := []
    overlayActiveMounts := []
    magicActiveMounts := []
    vfsActiveMounts := []
    confirmedActiveMounts := []
    mountStats := { totalMounts := 1, failedMounts := 1 }
    failedStage := some stage
    failureReason := some reason
    rollbackStatus := some rollback.status
    leftoverMountTargets := rollback.leftoverTargets }

def pipelineStats (overlayDirMounts shallowOverlayMounts magicFiles magicSymlinks ignoredEntries magicDirs :
      Nat) : MountStatistics :=
  let successful := overlayDirMounts + shallowOverlayMounts + magicFiles + magicSymlinks + magicDirs
  { totalMounts := successful
    successfulMounts := successful
    failedMounts := 0
    filesMounted := magicFiles
    symlinksCreated := magicSymlinks
    overlayfsMounts := overlayDirMounts + shallowOverlayMounts
    ignoredEntries := ignoredEntries
    magicDirs := magicDirs }

/-- The rules of a module as they are configured. -/
structure AppModuleRules where
  defaultMode : Option Mode
  paths : List (String × Mode)
  deriving DecidableEq

structure AppModule where
  id : String
  mode : Mode
  isMounted : Bool
  enabled : Bool
  blacklisted : Bool
  sourcePath : Names
  mountError : Option String
  suggestIgnore : Bool
  rules : AppModuleRules
  partitionErrors : List PartitionDiagnostic
  operationErrors : List OperationDiagnostic
  deriving DecidableEq

def appModuleRules (config : Plan.Config) (moduleId : String) : AppModuleRules :=
  match config.rules.find? fun entry => entry.1 = moduleId with
  | some entry => ⟨entry.2.defaultMode, entry.2.paths⟩
  | none => ⟨none, []⟩

/-- The backend a module is planned for. -/
def plannedMode (config : Plan.Config) (plan : Plan.MountPlan) (moduleId : String) : Mode :=
  if config.isModuleBlacklisted moduleId then .ignore
  else if plan.overlayModuleIds.contains moduleId then .overlay
  else if plan.magicModuleIds.contains moduleId then .magic
  else if plan.vfsModuleIds.contains moduleId then .vfs
  else .ignore

def appModule (config : Plan.Config) (plan : Plan.MountPlan) (mountErrors mounted : List String)
    (module : ModuleRecord) : AppModule :=
  let blacklisted := config.isModuleBlacklisted module.id
  let mountError := if mountErrors.contains module.id then some MOUNT_ERROR_REASON else none
  { id := module.id
    mode := plannedMode config plan module.id
    isMounted := !blacklisted && mounted.contains module.id
    enabled := !module.disabled && !blacklisted
    blacklisted := blacklisted
    sourcePath := module.sourcePath
    mountError := mountError
    suggestIgnore := mountError.isSome
    rules := appModuleRules config module.id
    partitionErrors := plan.partitionErrors.filter fun e => e.modules.contains module.id
    operationErrors := plan.operationErrors.filter fun e => e.moduleId = module.id }

def appModules (modules : List ModuleRecord) (config : Plan.Config) (plan : Plan.MountPlan)
    (mountErrors mounted : List String) : List AppModule :=
  modules.map (appModule config plan mountErrors mounted)

end HybridMount.Pipeline
