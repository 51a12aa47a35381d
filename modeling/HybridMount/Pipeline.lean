import HybridMount.RunReport
import HybridMount.Traced

/-! The boot pipeline from the configuration to the committed mounts. What the mount phases do to the
kernel is any script of calls and registrations; every write and every look at the mount table may
fail, and a failing write may have replaced the file. -/

namespace HybridMount.Pipeline

open Plan Traced CleanupJournal

/-- The mounts which the kernel shows. -/
class MountInfo (κ : Type) where
  mounts : κ → List (Names × Int)

/-- What a file holds, with the kernel and the registered targets at the time it was written. -/
structure Written (κ α : Type) where
  content : α
  kernel : κ
  mounted : List Names

/-- The kernel and the files of the report. -/
structure World (κ : Type) where
  kernel : κ
  stateFile : Option (Written κ RunState)
  scanRet : Option (Written κ (List AppModule))

/-- The outcome of a call outside: a late failure comes after the effect. -/
inductive Answer where
  | ok
  | failed (detail : String)
  | late (detail : String)
  deriving DecidableEq, Repr

/-- The world, what the pipeline holds, and the outcomes of the calls to come. -/
structure Session (κ : Type) where
  world : World κ
  state : RunState
  transaction : MountTransaction κ
  mounted : List Names
  /-- A failure could only be logged. -/
  unreported : Bool
  answers : List Answer

/-- A change of the world. -/
structure Event (κ : Type) where
  before : Session κ
  after : Session κ

abbrev Op (κ α : Type) := Prog (Session κ) (Event κ) Error α

namespace Op

variable {κ α : Type}

def answer : Op κ Answer := fun s => ⟨.ok (s.answers.headD .ok), { s with answers := s.answers.tail }, []⟩

def session : Op κ (Session κ) := Prog.get

def edit (f : Session κ → Session κ) : Op κ Unit := fun s => ⟨.ok (), f s, []⟩

def setState (f : RunState → RunState) : Op κ Unit := edit fun s => { s with state := f s.state }

def change (f : Session κ → World κ) : Op κ Unit := Prog.update (fun s => { s with world := f s }) Event.mk

/-- An atomic write. -/
def write (f : Session κ → World κ) : Op κ Unit := do
  match ← answer with
  | .ok => change f
  | .failed detail => Prog.fail (.msg detail)
  | .late detail =>
    change f
    Prog.fail (.msg detail)

def writeState (state : RunState) : Op κ Unit :=
  write fun s => { s.world with stateFile := some ⟨state, s.world.kernel, s.mounted⟩ }

def save : Op κ Unit := do writeState (← session).state

def writeScanRet (modules : List AppModule) : Op κ Unit :=
  write fun s => { s.world with scanRet := some ⟨modules, s.world.kernel, s.mounted⟩ }

/-- A write whose failure is logged. -/
def report (m : Op κ Unit) : Op κ Unit := do
  match ← Prog.attempt m with
  | .ok () => return ()
  | .error _ => edit fun s => { s with unreported := true }

def readMounts [MountInfo κ] : Op κ MountSnapshot := do
  match ← answer with
  | .ok => return .fromRecords (MountInfo.mounts (← session).world.kernel)
  | .failed detail => Prog.fail (.msg detail)
  | .late detail => Prog.fail (.msg detail)

def call (f : κ → κ) : Op κ Unit := change fun s => { s.world with kernel := f s.world.kernel }

end Op

/-- What the mount phases do, one after the other. -/
inductive Step (κ : Type) where
  | call (f : κ → κ)
  | register (action : CleanupAction κ)
  /-- A target is registered for the rollback and for the comparison after it. -/
  | target (path : Names) (rollback : κ → Except Error Unit × κ)
  /-- A mount of Magic Mount which its directory's rollback takes along. -/
  | owned (path : Names)
  | storage (mode mountPoint : String)
  | noStorage
  | vfs (provider error : Option String) (errorModules : List String)

structure MagicStats where
  mountedFiles : Nat
  mountedSymlinks : Nat
  ignoredFiles : Nat
  mountedDirs : Nat
  activeMounts : List Names
  mountedModuleIds : List String

structure VfsStats where
  mountedModuleIds : List String
  activeTargets : List Names
  failure : Option String

structure MountExecutionResult where
  overlayDirMounts : Nat
  shallowOverlayMounts : Nat
  activeMounts : List Names
  magic : MagicStats
  vfs : VfsStats

/-- The steps come first; then a phase panics, or they return a result. -/
structure Execution (κ : Type) where
  steps : List (Step κ)
  panics : Bool
  result : Except Error MountExecutionResult

/-- A pipeline which does not fail returns, or unwinds. -/
inductive PipelineEnd where
  | returned
  | panicked
  deriving DecidableEq, Repr

structure NomountProbe where
  present : Bool
  error : Option String

def NomountProbe.blocked (probe : NomountProbe) : Bool := probe.present || probe.error.isSome

/-- What the phases before the first mount answer, the provider before and after its module was
loaded, and the error markers each time they are looked for. -/
structure Startup (τ : Type) where
  config : Except Error (Settings.Config τ)
  shown : Except Error Unit
  layout : Except Error PartitionLayout
  modules : Except Error (List ModuleRecord)
  nomount : NomountProbe
  responds : Bool
  respondsLoaded : Bool
  planText : PlanError → String
  staged : Except Error Unit
  initialErrors : List String
  finalErrors : List String
  failureErrors : List String

variable {κ τ : Type} [MountInfo κ]

def Step.run : Step κ → Op κ Unit
  | .call f => Op.call f
  | .register action => Op.edit fun s => { s with transaction := s.transaction.registerAs action }
  | .target path rollback =>
    Op.edit fun s =>
      { s with
        transaction := s.transaction.registerRollbackOnly ("mount:" ++ text path) rollback
        mounted := s.mounted ++ [path] }
  | .owned path => Op.edit fun s => { s with mounted := s.mounted ++ [path] }
  | .storage mode mountPoint => do
    Op.setState fun state => { state with storageMode := mode, mountPoint := mountPoint }
    Op.save
  | .noStorage => Op.setState fun state => { state with storageMode := NO_STORAGE_MODE }
  | .vfs provider error errorModules =>
    Op.setState fun state => { state with
      vfsProvider := provider, vfsError := error, vfsErrorModules := errorModules }

/-- Without a result the phases have panicked. -/
def executeMountPhases (execution : Execution κ) : Op κ (Option MountExecutionResult) := do
  Prog.forEach Step.run execution.steps
  if execution.panics then return none
  else
    let result ← Prog.ofExcept execution.result
    return some result

def persistStartupFailureState (stage : Stage) (e : Error) : Op κ Unit := do
  Op.report (Op.writeState (.fromStartupFailure stage e.message))
  Op.report (Op.writeScanRet [])

def startupPhase {α : Type} (stage : Stage) (phase : Op κ α) : Op κ α := do
  match ← Prog.attempt phase with
  | .ok value => return value
  | .error e =>
    persistStartupFailureState stage e
    Prog.fail e

/-- Run the journal and replace it by what is left. -/
def runJournal {α : Type} (run : MountTransaction κ → κ → α × MountTransaction κ × κ) : Op κ α := do
  let s ← Op.session
  let out := run s.transaction s.world.kernel
  Op.edit fun s => { s with transaction := out.2.1 }
  Op.call fun _ => out.2.2
  return out.1

def compareMounts (baseline : MountSnapshot) : Op κ (List Names × List Names) := do
  let current ← Op.readMounts
  return mountinfoMismatches baseline current (← Op.session).mounted

def rollbackMountPipeline (baseline : MountSnapshot) : Op κ RollbackSummary := do
  let report ← runJournal MountTransaction.rollback
  match ← Prog.attempt (compareMounts baseline) with
  | .ok (leftover, missing) =>
    if report.failures.isEmpty && leftover.isEmpty && missing.isEmpty then return ⟨.clean, []⟩
    else return ⟨.incomplete, leftover⟩
  | .error _ => return ⟨.unverified, []⟩

/-- The failure is written down, whatever the writes answer, and handed on. -/
def recordMountFailure {α : Type} (modules : List ModuleRecord) (config : Plan.Config) (plan : Plan.MountPlan)
    (mountErrors : List String)
    (stage : Stage) (e : Error) (rollback : RollbackSummary) : Op κ α := do
  Op.setState fun state => state.failed stage e.message rollback
  Op.report Op.save
  Op.report (Op.writeScanRet (appModules modules config plan mountErrors []))
  Prog.fail e

def ensureLoadedForPlan (startup : Startup τ) : Bool :=
  if startup.nomount.present then startup.responds
  else if startup.nomount.blocked then false
  else startup.responds || startup.respondsLoaded

def wantsVfs (config : Settings.Config τ) : Bool :=
  config.defaultMode = .vfs ||
    config.rules.values.any fun rule => rule.defaultMode = some .vfs || rule.paths.values.any
      fun mode => mode = .vfs

def unavailableIsFatal (wants strict available : Bool) : Bool := wants && strict && !available

def unavailableReason (probe : NomountProbe) : String :=
  if probe.present then "NoMount is present but no compatible, conflict-free VFS provider is available"
  else
    match probe.error with
    | some error => "VFS provider guard failed closed: " ++ error
    | none => "no supported VFS kernel provider and vfs_strict is enabled"

def skippedReason (probe : NomountProbe) : String :=
  match probe.error with
  | some error => "VFS provider guard failed closed: " ++ error
  | none => "VFS provider unavailable; configured VFS rules were skipped"

/-- The state after planning. -/
def plannedState (startup : Startup τ) (config : Settings.Config τ) (modules : List ModuleRecord)
    (plan : Plan.MountPlan) : RunState :=
  let state := RunState.fromPlan modules plan startup.initialErrors
  let available := ensureLoadedForPlan startup
  let state := if startup.nomount.present && available
    then { state with vfsProvider := some "nomount" } else state
  if wantsVfs config && !available then
    { state with vfsError := some (skippedReason startup.nomount), vfsErrorModules := plan.vfsModuleIds }
  else state

structure Planned (τ : Type) where
  config : Settings.Config τ
  modules : List ModuleRecord
  plan : Plan.MountPlan

def checkVfs (startup : Startup τ) (config : Settings.Config τ) : Op κ Unit :=
  if unavailableIsFatal (wantsVfs config) config.vfsStrict (ensureLoadedForPlan startup) then
    startupPhase .vfs (Prog.fail (.msg ("VFS is unavailable: " ++ unavailableReason startup.nomount)))
  else return ()

/-- The phases before the first mount: each failure is written down by itself, but for the ledger's. -/
def planMounts (startup : Startup τ) : Op κ (Planned τ) := do
  let config ← startupPhase .config (Prog.ofExcept startup.config)
  startupPhase .config (Prog.ofExcept startup.shown)
  let layout ← startupPhase .partitionLayout (Prog.ofExcept startup.layout)
  let modules ← startupPhase .scan (Prog.ofExcept startup.modules)
  checkVfs startup config
  let input := ⟨modules, config.toPlan, layout, ensureLoadedForPlan startup⟩
  let plan ← startupPhase .plan
    (Prog.ofExcept ((buildPlan input).mapError fun e => .msg (startup.planText e)))
  Prog.ofExcept startup.staged
  startupPhase .state (Op.writeScanRet (appModules modules config.toPlan plan startup.initialErrors []))
  Op.edit fun s => { s with state := plannedState startup config modules plan, transaction := {},
                            mounted := [] }
  startupPhase .state Op.save
  return ⟨config, modules, plan⟩

/-- The state once the mounts are confirmed. -/
def confirmedState (startup : Startup τ) (planned : Planned τ) (result : MountExecutionResult)
    (final : MountSnapshot)
    (state : RunState) : RunState :=
  let overlay := confirmedMountTargets result.activeMounts final
  let magic := confirmedMountTargets result.magic.activeMounts final
  let confirmed := mergeActiveMounts overlay magic result.vfs.activeTargets
  let state := { state with
    activeMounts := confirmed
    overlayActiveMounts := overlay
    magicActiveMounts := magic
    vfsActiveMounts := result.vfs.activeTargets
    confirmedActiveMounts := confirmed
    mountStats := pipelineStats result.overlayDirMounts result.shallowOverlayMounts result.magic.mountedFiles
      result.magic.mountedSymlinks result.magic.ignoredFiles result.magic.mountedDirs
    modeStats := { state.modeStats with vfs := result.vfs.mountedModuleIds.length } }
  let state := match result.vfs.failure with
    | some failure => { state with vfsError := some failure, vfsErrorModules := planned.plan.vfsModuleIds }
    | none => state
  { state with
    mountErrorModules := startup.finalErrors
    mountErrorReasons := Pipeline.mountErrorReasons startup.finalErrors
    failedStage := none
    rollbackStatus := some .pendingCommit
    leftoverMountTargets := []
    mountPoint := if planned.config.disableUmount then state.mountPoint else "" }

/-- The modules of the snapshot with those which really mounted. -/
def mountedModules (startup : Startup τ) (planned : Planned τ) (result : MountExecutionResult)
    (final : MountSnapshot) : List AppModule :=
  let overlay := confirmedMountTargets result.activeMounts final
  let magic := confirmedMountTargets result.magic.activeMounts final
  let mounted := mountedModuleIdsForSnapshot planned.modules planned.plan overlay magic ++
    result.magic.mountedModuleIds ++
    result.vfs.mountedModuleIds
  appModules planned.modules planned.config.toPlan planned.plan startup.finalErrors mounted

/-- A step of the pipeline whose failure rolls the mounts back. -/
def orRollBack {α : Type} (startup : Startup τ) (planned : Planned τ) (baseline : MountSnapshot)
    (stage : Stage) (m : Op κ α) : Op κ α := do
  match ← Prog.attempt m with
  | .ok value => return value
  | .error e =>
    let rollback ← rollbackMountPipeline baseline
    recordMountFailure planned.modules planned.config.toPlan planned.plan startup.failureErrors
      stage e rollback

/-- The journal is committed; a failure has run it all by then, so that it only remains to look. -/
def commitMounts (startup : Startup τ) (planned : Planned τ) (baseline : MountSnapshot) : Op κ Unit := do
  match ← runJournal fun transaction kernel => transaction.commit planned.config.disableUmount kernel with
  | .ok () => return ()
  | .error e =>
    let rollback ← Prog.attempt (compareMounts baseline)
    let summary := match rollback with
      | .ok mismatches => ⟨.incomplete, mismatches.1⟩
      | .error _ => ⟨.unverified, []⟩
    recordMountFailure planned.modules planned.config.toPlan planned.plan startup.failureErrors
      .mountTransactionCommit e summary

/-- From the look at what was mounted to the last state. -/
def confirmMounts (startup : Startup τ) (planned : Planned τ) (baseline : MountSnapshot)
    (result : MountExecutionResult) : Op κ Unit := do
  let final ← orRollBack startup planned baseline .mountinfoConfirm Op.readMounts
  orRollBack startup planned baseline .moduleSnapshotSave
    (Op.writeScanRet (mountedModules startup planned result final))
  Op.setState (confirmedState startup planned result final)
  orRollBack startup planned baseline .stateSave Op.save
  commitMounts startup planned baseline
  Op.setState fun state => { state with
    rollbackStatus := some .committed, failedStage := none, leftoverMountTargets := [] }
  let _ ← Prog.attempt Op.save

/-- `clearUnmountList` undoes the registrations with the kernel. -/
def runMountPipelineImpl (startup : Startup τ) (clearUnmountList : κ → Except Error Unit × κ)
    (execution : Execution κ) :
    Op κ PipelineEnd := do
  let planned ← planMounts startup
  let baseline ← startupPhase .baseline Op.readMounts
  Op.edit fun s =>
    { s with transaction := s.transaction.registerRollbackOnly "ksu_try_umount_list" clearUnmountList }
  match ← orRollBack startup planned baseline .mountExecution (executeMountPhases execution) with
  | some result =>
    confirmMounts startup planned baseline result
    return .returned
  | none =>
    -- the journal runs when it is dropped, and nothing is written down
    let _ ← runJournal MountTransaction.rollback
    return .panicked

end HybridMount.Pipeline
