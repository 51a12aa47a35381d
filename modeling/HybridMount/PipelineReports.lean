import HybridMount.Pipeline

/-! The reports of a boot are true whenever it is interrupted, and a boot which failed says so. -/

namespace HybridMount.Pipeline

open Plan Traced CleanupJournal

variable {κ τ : Type} [MountInfo κ]

/-- The mounts of the kernel at the path. -/
def MountedAt (kernel : κ) (path : Names) : Prop := ∃ id, (path, id) ∈ MountInfo.mounts kernel

/-- No mount is said to be active. -/
structure Idle (state : RunState) : Prop where
  active : state.activeMounts = []
  overlay : state.overlayActiveMounts = []
  magic : state.magicActiveMounts = []
  vfs : state.vfsActiveMounts = []
  confirmed : state.confirmedActiveMounts = []

/-- What is said to be active is mounted. -/
structure Active (kernel : κ) (state : RunState) : Prop where
  overlay : ∀ path ∈ state.overlayActiveMounts, MountedAt kernel path
  magic : ∀ path ∈ state.magicActiveMounts, MountedAt kernel path
  active : ∀ path, path ∈ state.activeMounts ↔
    path ∈ state.overlayActiveMounts ∨ path ∈ state.magicActiveMounts ∨ path ∈ state.vfsActiveMounts
  confirmed : state.confirmedActiveMounts = state.activeMounts

/-- The same mounts stand below the targets. -/
def SameBelow (start kernel : κ) (targets : List Names) : Prop := ∀ root ∈ targets, ∀ path id, root <+: path →
  ((path, id) ∈ MountInfo.mounts kernel ↔ (path, id) ∈ MountInfo.mounts start)

/-- The targets below which other mounts stand than at the start. -/
def LeftOver (start kernel : κ) (targets : List Names) (path : Names) : Prop :=
    (∃ root ∈ targets, root <+: path) ∧
  MountedAt kernel path ∧ Changed (MountInfo.mounts start) (MountInfo.mounts kernel) path

/-- A report is true of the kernel it was written for. -/
inductive Told (start : κ) (report : Written κ RunState) : Prop
  | planned (status : report.content.rollbackStatus = none) (failed : report.content.failedStage = none)
      (leftover : report.content.leftoverMountTargets = []) (idle : Idle report.content)
  | pending (status : report.content.rollbackStatus = some .pendingCommit)
      (failed : report.content.failedStage = none)
      (leftover : report.content.leftoverMountTargets = []) (active : Active report.kernel report.content)
  /-- The journal has been committed since the mounts were seen. -/
  | committed (status : report.content.rollbackStatus = some .committed)
      (failed : report.content.failedStage = none)
      (leftover : report.content.leftoverMountTargets = []) (transaction : MountTransaction κ) (retain : Bool)
      (kernel : κ)
      (active : Active kernel report.content) (ok : (transaction.commit retain kernel).1 = .ok ())
      (left : (transaction.commit retain kernel).2.2 = report.kernel)
  | clean (status : report.content.rollbackStatus = some .clean) (failed : report.content.failedStage ≠ none)
      (leftover : report.content.leftoverMountTargets = []) (idle : Idle report.content)
      (same : SameBelow start report.kernel report.mounted)
  | incomplete (status : report.content.rollbackStatus = some .incomplete)
      (failed : report.content.failedStage ≠ none)
      (leftover : ∀ path, path ∈ report.content.leftoverMountTargets ↔
        LeftOver start report.kernel report.mounted path)
      (idle : Idle report.content)
  | unverified (status : report.content.rollbackStatus = some .unverified)
      (failed : report.content.failedStage ≠ none)
      (leftover : report.content.leftoverMountTargets = []) (idle : Idle report.content)

/-- The input which the answers of the phases make. -/
structure Built (startup : Startup τ) (planned : Planned τ) (input : PlanInput) : Prop where
  config : startup.config = .ok planned.config
  modules : startup.modules = .ok planned.modules
  layout : startup.layout = .ok input.layout
  same : input = ⟨planned.modules, planned.config.toPlan, input.layout, ensureLoadedForPlan startup⟩
  plan : buildPlan input = .ok planned.plan

/-- A module which is listed as mounted has an entry at a mount point which the kernel shows, or was
reported by a backend whose work leaves none. -/
structure Shown (startup : Startup τ) (execution : Execution κ) (kernel : κ) (m : AppModule) : Prop where
  blacklisted : m.blacklisted = false
  mounted : ∃ planned input result, Built startup planned input ∧ execution.result = .ok result ∧
    ((∃ overlay magic, (∀ path ∈ overlay, path ∈ result.activeMounts ∧ MountedAt kernel path) ∧
        (∀ path ∈ magic, path ∈ result.magic.activeMounts ∧ MountedAt kernel path) ∧
        MeetsMountPoint input planned.plan overlay magic m.id) ∨
      m.id ∈ result.magic.mountedModuleIds ∨ m.id ∈ result.vfs.mountedModuleIds)

def Listed (startup : Startup τ) (execution : Execution κ) (list : Written κ (List AppModule)) : Prop :=
  ∀ m ∈ list.content, m.isMounted = true → Shown startup execution list.kernel m

/-- Each file is as it was found, or true. -/
structure Files (startup : Startup τ) (execution : Execution κ) (found : World κ)
    (world : World κ) : Prop where
  state : world.stateFile = found.stateFile ∨ ∃ report, world.stateFile = some report ∧
    Told found.kernel report
  list : world.scanRet = found.scanRet ∨ ∃ list, world.scanRet = some list ∧ Listed startup execution list

/-- The failure is written down, or at least logged. -/
inductive Reported (startup : Startup τ) (found : World κ) (s : Session κ) : Prop
  /-- The ledger could not be staged: nothing was done yet, and nothing is written. -/
  | unstaged (failed : startup.staged.isOk = false) (same : s.world = found)
  | logged (h : s.unreported = true)
  | written (report : Written κ RunState) (list : Written κ (List AppModule))
      (hstate : s.world.stateFile = some report)
      (hlist : s.world.scanRet = some list) (failed : report.content.failedStage ≠ none)
      (kernel : report.kernel = s.world.kernel)
      (told : Told found.kernel report)
      (unmounted : ∀ m ∈ list.content, m.isMounted = false)

structure Failed (startup : Startup τ) (execution : Execution κ) (found : World κ)
    (s : Session κ) : Prop where
  files : Files startup execution found s.world
  reported : Reported startup found s

/-- The files of the plan: nothing is said to be mounted, or to have failed. -/
structure AsPlanned (world : World κ) : Prop where
  state : ∃ report, world.stateFile = some report ∧ report.content.rollbackStatus = none ∧
    report.content.failedStage = none ∧
    Idle report.content
  list : ∃ list, world.scanRet = some list ∧ ∀ m ∈ list.content, m.isMounted = false

/-- Every change of the world leaves files which may be found after a crash. -/
def Crashed (startup : Startup τ) (execution : Execution κ) (found : World κ) (e : Event κ) : Prop :=
  Files startup execution found e.before.world ∧ Files startup execution found e.after.world

section Operations

variable {startup : Startup τ} {execution : Execution κ} {found : World κ} {G : Event κ → Prop}
  {T : Event κ → Prop}
  {P : Session κ → Prop} {α : Type}

theorem Files.withKernel {world : World κ} (h : Files startup execution found world) (kernel : κ) :
    Files startup execution found { world with kernel := kernel } := ⟨h.state, h.list⟩

theorem Files.withState {world : World κ} (h : Files startup execution found world)
    {report : Written κ RunState}
    (ht : Told found.kernel report) : Files startup execution found { world with stateFile := some report } :=
  ⟨.inr ⟨report, rfl, ht⟩, h.list⟩

theorem Files.withList {world : World κ} (h : Files startup execution found world)
    {list : Written κ (List AppModule)}
    (ht : Listed startup execution list) :
    Files startup execution found { world with scanRet := some list } :=
  ⟨h.state, .inr ⟨list, rfl, ht⟩⟩

omit [MountInfo κ] in
theorem answer_spec {Q : Session κ → Prop} {E : Error → Session κ → Prop}
    (h : ∀ s answers, P s → Q { s with answers := answers }) :
    Sat G T P Op.answer (fun _ => Q) E :=
  fun s hs _ => ⟨fun _ he => absurd he List.not_mem_nil, h s _ hs⟩

omit [MountInfo κ] in
theorem edit_spec {Q : Session κ → Prop} {E : Error → Session κ → Prop} {f : Session κ → Session κ}
    (h : ∀ s, P s → Q (f s)) :
    Sat G T P (Op.edit f) (fun _ => Q) E :=
  fun s hs _ => ⟨fun _ he => absurd he List.not_mem_nil, h s hs⟩

theorem change_spec {Q : Session κ → Prop} {E : Error → Session κ → Prop} {f : Session κ → World κ}
    (hp : ∀ s, P s → Files startup execution found s.world)
    (h : ∀ s, P s → Files startup execution found (f s) ∧ Q { s with world := f s }) :
    Sat G (Crashed startup execution found) P (Op.change f) (fun _ => Q) E :=
  Sat.update fun s hs _ => ⟨⟨hp s hs, (h s hs).1⟩, (h s hs).2⟩

/-- What may be asserted wherever the answers to come do not count. -/
def Steady (P : Session κ → Prop) : Prop := ∀ s answers, P s → P { s with answers := answers }

theorem write_spec {Q : Session κ → Prop} {f : Session κ → World κ} (hsteady : Steady P)
    (hp : ∀ s, P s → Files startup execution found s.world)
    (h : ∀ s, P s → Files startup execution found (f s) ∧ Q { s with world := f s }) :
    Sat G (Crashed startup execution found) P (Op.write f) (fun _ => Q) (fun _ s => P s ∨ Q s) := by
  refine Sat.bind (Q := fun _ => P) (answer_spec hsteady) fun answer => ?_
  cases answer with
  | ok => exact change_spec hp h
  | failed detail => exact Sat.fail fun s hs => .inl hs
  | late detail => exact Sat.bind (change_spec hp h) fun _ => Sat.fail fun s hs => .inr hs

omit [MountInfo κ] in
theorem report_spec {Q : Session κ → Prop} {E : Error → Session κ → Prop} {m : Op κ Unit}
    (h : Sat G T P m (fun _ => Q) (fun _ s => P s ∨ Q s)) (hlog : ∀ s, P s → Q { s with unreported := true })
    (hkeep : ∀ s, Q s → Q { s with unreported := true }) : Sat G T P (Op.report m) (fun _ => Q) E :=
  Sat.attempt_bind h (fun _ => Sat.pure fun _ hs => hs) fun _ => edit_spec fun s hs =>
    hs.elim (hlog s) (hkeep s)

theorem readMounts_spec (hsteady : Steady P) :
    Sat G T P Op.readMounts
      (fun snapshot s => P s ∧ snapshot = .fromRecords (MountInfo.mounts s.world.kernel)) (fun _ => P) := by
  refine Sat.bind (Q := fun _ => P) (answer_spec hsteady) fun answer => ?_
  cases answer with
  | ok =>
    exact Sat.bind (Q := fun s' s => P s ∧ s' = s) (Sat.get fun s hs => ⟨hs, rfl⟩) fun s' =>
      Sat.pure fun s hs => ⟨hs.1, by rw [hs.2]⟩
  | failed detail => exact Sat.fail fun s hs => hs
  | late detail => exact Sat.fail fun s hs => hs

theorem save_spec {Q : Session κ → Prop} (hsteady : Steady P)
    (hp : ∀ s, P s → Files startup execution found s.world)
    (h : ∀ s state, P s → s.state = state → Told found.kernel ⟨state, s.world.kernel, s.mounted⟩ ∧
      Q { s with world := { s.world with stateFile := some ⟨state, s.world.kernel, s.mounted⟩ } }) :
    Sat G (Crashed startup execution found) P Op.save (fun _ => Q) (fun _ s => P s ∨ Q s) := by
  refine Sat.bind (Q := fun s' s => P s ∧ s.state = s'.state) (Sat.get fun s hs => ⟨hs, rfl⟩) fun s' => ?_
  refine Sat.weaken (write_spec (P := fun s => P s ∧ s.state = s'.state) (Q := Q)
    (fun s answers hs => ⟨hsteady s answers hs.1, hs.2⟩)
    (fun s hs => hp s hs.1) fun s hs => ?_) (fun _ _ hq => hq) fun _ s hs => hs.imp And.left id
  obtain ⟨ht, hq⟩ := h s s'.state hs.1 hs.2
  exact ⟨(hp s hs.1).withState ht, hq⟩

theorem compareMounts_spec {baseline : MountSnapshot} (hsteady : Steady P) :
    Sat G T P (compareMounts baseline)
      (fun out s => P s ∧ out = mountinfoMismatches baseline (.fromRecords (MountInfo.mounts s.world.kernel))
        s.mounted) (fun _ => P) := by
  refine Sat.bind (readMounts_spec hsteady) fun current => ?_
  refine Sat.bind (Q := fun s' s => (P s ∧ current = .fromRecords (MountInfo.mounts s.world.kernel)) ∧
    s.mounted = s'.mounted)
    (Sat.get fun s hs => ⟨hs, rfl⟩) fun s' => Sat.pure fun s hs => ?_
  obtain ⟨⟨hp, hcurrent⟩, hmounted⟩ := hs
  exact ⟨hp, by rw [hcurrent, hmounted]⟩

end Operations

section Failures

variable {startup : Startup τ} {execution : Execution κ} {found : World κ} {G : Event κ → Prop}
  {P : Session κ → Prop} {α : Type}

/-- The state file names the failure, or the log does. -/
structure Noted (startup : Startup τ) (execution : Execution κ) (found : World κ) (s : Session κ) : Prop where
  files : Files startup execution found s.world
  noted : s.unreported = true ∨ ∃ report, s.world.stateFile = some report ∧
    report.content.failedStage ≠ none ∧
    report.kernel = s.world.kernel ∧ Told found.kernel report

theorem reportList_spec {modules : List AppModule} {E : Error → Session κ → Prop}
    (hnone : ∀ m ∈ modules, m.isMounted = false) :
    Sat G (Crashed startup execution found) (Noted startup execution found)
      (Op.report (Op.writeScanRet modules))
      (fun _ => Failed startup execution found) E := by
  have hlisted : ∀ kernel mounted, Listed startup execution ⟨modules, kernel, mounted⟩ := by
    intro kernel mounted m hm hmounted
    rw [hnone m hm] at hmounted
    cases hmounted
  refine report_spec (write_spec (fun _ _ hs => ⟨hs.files, hs.noted⟩) (fun _ hs => hs.files) fun s hs => ?_) ?_ ?_
  · refine ⟨hs.files.withList (hlisted _ _), hs.files.withList (hlisted _ _), ?_⟩
    rcases hs.noted with hlog | ⟨report, hreport, hfailed, hkernel, htold⟩
    · exact .logged hlog
    · exact .written report _ hreport rfl hfailed hkernel htold hnone
  · exact fun s hs => ⟨hs.files, .logged rfl⟩
  · exact fun s hs => ⟨hs.files, .logged rfl⟩

theorem reportState_spec {m : Op κ Unit} {E : Error → Session κ → Prop}
    (hfiles : ∀ s, P s → Files startup execution found s.world)
    (h : Sat G (Crashed startup execution found) P m (fun _ => Noted startup execution found)
      fun _ s => P s ∨ Noted startup execution found s) :
    Sat G (Crashed startup execution found) P (Op.report m) (fun _ => Noted startup execution found) E :=
  report_spec h (fun s hs => ⟨hfiles s hs, .inl rfl⟩) fun _ hs => ⟨hs.files, .inl rfl⟩

/-- Nothing has been mounted yet. -/
structure Begun (startup : Startup τ) (execution : Execution κ) (found : World κ) (s : Session κ) : Prop where
  files : Files startup execution found s.world
  kernel : s.world.kernel = found.kernel

theorem Begun.of_found {s : Session κ} (h : s.world = found) : Begun startup execution found s :=
  ⟨⟨.inl (congrArg World.stateFile h), .inl (congrArg World.scanRet h)⟩, congrArg World.kernel h⟩

theorem told_startup {stage : Stage} {reason : String} {kernel : κ} {mounted : List Names} :
    Told kernel ⟨.fromStartupFailure stage reason, kernel, mounted⟩ := by
  refine .clean rfl ?_ rfl ⟨rfl, rfl, rfl, rfl, rfl⟩ fun _ _ _ _ _ => Iff.rfl
  intro h
  cases h

theorem persistStartupFailureState_spec {stage : Stage} {e : Error} {E : Error → Session κ → Prop} :
    Sat G (Crashed startup execution found) (Begun startup execution found)
      (persistStartupFailureState stage e)
      (fun _ => Failed startup execution found) E := by
  refine Sat.bind (reportState_spec (fun _ hs => hs.files) ?_) fun _ => reportList_spec fun m hm =>
    absurd hm List.not_mem_nil
  refine write_spec (fun _ _ hs => ⟨hs.files, hs.kernel⟩) (fun _ hs => hs.files) fun s hs => ?_
  have htold : Told found.kernel (⟨.fromStartupFailure stage e.message, s.world.kernel, s.mounted⟩ :
      Written κ RunState) := by
    rw [hs.kernel]
    exact told_startup
  refine ⟨hs.files.withState htold, hs.files.withState htold, .inr ⟨_, rfl, ?_, rfl, htold⟩⟩
  intro h
  cases h

theorem startupPhase_spec {stage : Stage} {phase : Op κ α} {Q : α → Session κ → Prop}
    (h : Sat G (Crashed startup execution found) P phase Q fun _ => Begun startup execution found) :
    Sat G (Crashed startup execution found) P (startupPhase stage phase) Q fun _ =>
    Failed startup execution found :=
  Sat.attempt_bind h (fun _ => Sat.pure fun _ hs => hs) fun _ =>
    Sat.bind persistStartupFailureState_spec fun _ => Sat.fail fun _ hs => hs

/-- What a rollback found. -/
inductive Summed (start : κ) (s : Session κ) : RollbackSummary → Prop
  | clean (same : SameBelow start s.world.kernel s.mounted) : Summed start s ⟨.clean, []⟩
  | incomplete (leftover : List Names)
      (h : ∀ path, path ∈ leftover ↔ LeftOver start s.world.kernel s.mounted path) :
      Summed start s ⟨.incomplete, leftover⟩
  | unverified : Summed start s ⟨.unverified, []⟩

theorem told_failed {s : Session κ} {rollback : RollbackSummary} (h : Summed found.kernel s rollback)
    (state : RunState) (stage : Stage)
    (reason : String) :
    Told found.kernel ⟨state.failed stage reason rollback, s.world.kernel, s.mounted⟩ := by
  have hidle : Idle (state.failed stage reason rollback) := ⟨rfl, rfl, rfl, rfl, rfl⟩
  have hfailed : (state.failed stage reason rollback).failedStage ≠ none := by
    intro h
    cases h
  cases h with
  | clean same => exact .clean rfl hfailed rfl hidle same
  | incomplete leftover hleft => exact .incomplete rfl hfailed hleft hidle
  | unverified => exact .unverified rfl hfailed rfl hidle

theorem unmounted_appModules {modules : List ModuleRecord} {config : Plan.Config} {plan : Plan.MountPlan}
    {mountErrors : List String} :
    ∀ m ∈ appModules modules config plan mountErrors [], m.isMounted = false := by
  intro m hm
  obtain ⟨module, -, rfl⟩ := List.mem_map.mp hm
  simp [appModule]

theorem recordMountFailure_spec {modules : List ModuleRecord} {config : Plan.Config} {plan : Plan.MountPlan}
    {mountErrors : List String}
    {stage : Stage} {e : Error} {rollback : RollbackSummary} {Q : α → Session κ → Prop} :
    Sat G (Crashed startup execution found)
      (fun s => Files startup execution found s.world ∧ Summed found.kernel s rollback)
      (recordMountFailure modules config plan mountErrors stage e rollback) Q fun _ =>
        Failed startup execution found := by
  let Reporting := fun s : Session κ => Files startup execution found s.world ∧
    (∃ state : RunState, s.state = state.failed stage e.message rollback) ∧ Summed found.kernel s rollback
  refine Sat.bind (Q := fun _ => Reporting) (edit_spec fun s hs => ⟨hs.1, ⟨s.state, rfl⟩, ?_⟩) fun _ => ?_
  · cases hs.2 with
    | clean same => exact .clean same
    | incomplete leftover h => exact .incomplete leftover h
    | unverified => exact .unverified
  refine Sat.bind (reportState_spec (fun s hs => hs.1) ?_) fun _ =>
    Sat.bind (reportList_spec unmounted_appModules) fun _ => Sat.fail fun s hs => hs
  refine save_spec (fun s answers hs => ⟨hs.1, hs.2.1, ?_⟩) (fun s hs => hs.1) fun s state hs hstate => ?_
  · cases hs.2.2 with
    | clean same => exact .clean same
    | incomplete leftover h => exact .incomplete leftover h
    | unverified => exact .unverified
  · obtain ⟨hfiles, ⟨before, hbefore⟩, hsummed⟩ := hs
    obtain rfl : state = before.failed stage e.message rollback := hstate.symm.trans hbefore
    have htold := told_failed hsummed before stage e.message
    refine ⟨htold, hfiles.withState htold, .inr ⟨_, rfl, ?_, rfl, htold⟩⟩
    intro h
    cases h

theorem runJournal_spec {run : MountTransaction κ → κ → α × MountTransaction κ × κ} {Q : α → Session κ → Prop}
    {E : Error → Session κ → Prop} (hp : ∀ s, P s → Files startup execution found s.world)
    (h : ∀ s, P s → Q (run s.transaction s.world.kernel).1
      { s with transaction := (run s.transaction s.world.kernel).2.1, world := { s.world with
        kernel := (run s.transaction s.world.kernel).2.2 } }) :
    Sat G (Crashed startup execution found) P (runJournal run) Q E := by
  refine Sat.bind (Q := fun s' s => P s' ∧ s = s') (Sat.get fun s hs => ⟨hs, rfl⟩) fun s' => ?_
  refine Sat.bind (Q := fun _ s => P s' ∧
    s = { s' with transaction := (run s'.transaction s'.world.kernel).2.1 })
    (edit_spec fun s hs => ⟨hs.1, by rw [hs.2]⟩) fun _ => ?_
  refine Sat.bind (Q := fun _ => Q (run s'.transaction s'.world.kernel).1)
      (change_spec (fun s hs => ?_) fun s hs => ?_) fun _ =>
    Sat.pure fun s hs => hs
  · rw [hs.2]
    exact hp s' hs.1
  · obtain ⟨hs', rfl⟩ := hs
    exact ⟨(hp s' hs').withKernel _, h s' hs'⟩

theorem rollbackMountPipeline_spec {E : Error → Session κ → Prop} :
    Sat G (Crashed startup execution found) (fun s => Files startup execution found s.world)
      (rollbackMountPipeline (.fromRecords (MountInfo.mounts found.kernel)))
      (fun rollback s => Files startup execution found s.world ∧ Summed found.kernel s rollback) E := by
  refine Sat.bind (Q := fun _ s => Files startup execution found s.world)
    (runJournal_spec (fun s hs => hs) fun s hs => hs.withKernel _) fun report => ?_
  refine Sat.attempt_bind (compareMounts_spec fun s answers hs => hs) (fun out => ?_) fun e =>
    Sat.pure fun s hs => ⟨hs, .unverified⟩
  obtain ⟨leftover, missing⟩ := out
  dsimp only
  split
  · rename_i hclean
    simp only [Bool.and_eq_true, List.isEmpty_iff] at hclean
    obtain ⟨⟨-, rfl⟩, rfl⟩ := hclean
    refine Sat.pure fun s hs => ⟨hs.1, .clean fun root hroot path id hpre => ?_⟩
    exact mismatches_nil (congrArg Prod.fst hs.2).symm (congrArg Prod.snd hs.2).symm hroot hpre
  · refine Sat.pure fun s hs => ⟨hs.1, .incomplete leftover fun path => ?_⟩
    rw [show leftover = _ from congrArg Prod.fst hs.2]
    exact mem_leftover

theorem orRollBack_spec {planned : Planned τ} {stage : Stage} {m : Op κ α} {Q : α → Session κ → Prop}
    (h : Sat G (Crashed startup execution found) P m Q fun _ s => Files startup execution found s.world) :
    Sat G (Crashed startup execution found) P
      (orRollBack startup planned (.fromRecords (MountInfo.mounts found.kernel)) stage m) Q
      fun _ => Failed startup execution found :=
  Sat.attempt_bind h (fun _ => Sat.pure fun _ hs => hs) fun _ => Sat.bind rollbackMountPipeline_spec fun _ =>
    recordMountFailure_spec

end Failures

section Phases

variable {startup : Startup τ} {execution : Execution κ} {found : World κ} {G : Event κ → Prop}
  {planned : Planned τ}
  {input : PlanInput} {result : MountExecutionResult} {final : MountSnapshot}

/-- A state of which nothing is mounted yet. -/
structure BeforeMounts (state : RunState) : Prop where
  status : state.rollbackStatus = none
  failed : state.failedStage = none
  leftover : state.leftoverMountTargets = []
  idle : Idle state

theorem BeforeMounts.told {state : RunState} (h : BeforeMounts state) (start kernel : κ)
    (mounted : List Names) :
    Told start ⟨state, kernel, mounted⟩ := .planned h.status h.failed h.leftover h.idle

theorem beforeMounts_plannedState {config : Settings.Config τ} {modules : List ModuleRecord}
    {plan : Plan.MountPlan} :
    BeforeMounts (plannedState startup config modules plan) := by
  have hplan : BeforeMounts (RunState.fromPlan modules plan startup.initialErrors) :=
    ⟨rfl, rfl, rfl, rfl, rfl, rfl, rfl, rfl⟩
  unfold plannedState
  dsimp only
  split
  · split
    · exact ⟨rfl, rfl, rfl, rfl, rfl, rfl, rfl, rfl⟩
    · exact ⟨rfl, rfl, rfl, rfl, rfl, rfl, rfl, rfl⟩
  · split
    · exact ⟨rfl, rfl, rfl, rfl, rfl, rfl, rfl, rfl⟩
    · exact hplan

theorem listed_appModules {modules : List ModuleRecord} {config : Plan.Config} {plan : Plan.MountPlan}
    {mountErrors : List String}
    {kernel : κ} {mounted : List Names} :
    Listed startup execution ⟨appModules modules config plan mountErrors [], kernel, mounted⟩ := by
  intro m hm hmounted
  rw [unmounted_appModules m hm] at hmounted
  cases hmounted

/-- The phases of the execution, with the state and the files before any mount. -/
structure Mounting (startup : Startup τ) (execution : Execution κ) (found : World κ)
    (s : Session κ) : Prop where
  files : Files startup execution found s.world
  state : BeforeMounts s.state
  planned : AsPlanned s.world

omit [MountInfo κ] in
theorem AsPlanned.withState {world : World κ} {report : Written κ RunState} (h : AsPlanned world)
    (hreport : BeforeMounts report.content) :
    AsPlanned { world with stateFile := some report } :=
  ⟨⟨report, rfl, hreport.status, hreport.failed, hreport.idle⟩, h.list⟩

theorem checkVfs_spec {config : Settings.Config τ} :
    Sat G (Crashed startup execution found) (fun s => s.world = found)
    (checkVfs startup config) (fun _ s => s.world = found) fun _ => Failed startup execution found := by
  unfold checkVfs
  split
  · exact startupPhase_spec (Sat.fail fun s hs => .of_found hs)
  · exact Sat.pure fun s hs => hs

theorem planMounts_spec :
    Sat G (Crashed startup execution found) (fun s => s.world = found) (planMounts startup)
      (fun planned s => (Mounting startup execution found s ∧ s.world.kernel = found.kernel) ∧
        ∃ input, Built startup planned input)
      (fun _ => Failed startup execution found) := by
  have hpure : ∀ {α : Type} (stage : Stage) (x : Except Error α),
      Sat G (Crashed startup execution found) (fun s => s.world = found)
      (startupPhase stage (Prog.ofExcept x)) (fun a s => s.world = found ∧ x = .ok a) fun _ =>
        Failed startup execution found :=
    fun stage x => startupPhase_spec (Sat.ofExcept (fun a s ha hs => ⟨hs, ha⟩) fun e s _ hs => .of_found hs)
  refine Sat.bind (hpure .config startup.config) fun config => Sat.given fun hconfig => ?_
  refine Sat.bind (hpure .config startup.shown) fun _ => Sat.given fun _ => ?_
  refine Sat.bind (hpure .partitionLayout startup.layout) fun layout => Sat.given fun hlayout => ?_
  refine Sat.bind (hpure .scan startup.modules) fun modules => Sat.given fun hmodules => ?_
  refine Sat.bind checkVfs_spec fun _ => Sat.bind (hpure .plan _) fun plan => Sat.given fun hplan => ?_
  have hbuilt : Built startup ⟨config, modules, plan⟩
      ⟨modules, config.toPlan, layout, ensureLoadedForPlan startup⟩ := by
    refine ⟨hconfig, hmodules, hlayout, rfl, ?_⟩
    cases hbuild : buildPlan ⟨modules, config.toPlan, layout, ensureLoadedForPlan startup⟩ with
    | error e =>
      rw [hbuild] at hplan
      cases hplan
    | ok built =>
      rw [hbuild] at hplan
      cases hplan
      rfl
  refine Sat.bind (Q := fun _ s => s.world = found) (Sat.ofExcept (fun _ s _ hs => hs) fun e s he hs => ?_)
    fun _ => ?_
  · exact ⟨(Begun.of_found hs).files, .unstaged (by rw [he]; rfl) hs⟩
  let Empty := fun s : Session κ => ∃ list, s.world.scanRet = some list ∧
    ∀ m ∈ list.content, m.isMounted = false
  have hscan : Sat G (Crashed startup execution found) (fun s => s.world = found)
      (startupPhase .state (Op.writeScanRet (appModules modules config.toPlan plan startup.initialErrors [])))
      (fun _ s => Begun startup execution found s ∧ Empty s) fun _ => Failed startup execution found := by
    refine startupPhase_spec ((write_spec (Q := fun s => Begun startup execution found s ∧ Empty s)
      (fun s answers hs => hs)
      (fun s hs => (Begun.of_found hs).files) fun s hs => ?_).weaken (fun _ _ hs => hs) fun _ s hs =>
        hs.elim .of_found And.left)
    have hbegun : Begun startup execution found s := .of_found hs
    exact ⟨hbegun.files.withList listed_appModules, ⟨hbegun.files.withList listed_appModules, hbegun.kernel⟩,
      _, rfl, unmounted_appModules⟩
  refine Sat.bind hscan fun _ =>
    Sat.bind (Q := fun _ s => (Begun startup execution found s ∧ Empty s) ∧ BeforeMounts s.state)
    (edit_spec fun s hs => ⟨⟨⟨hs.1.files, hs.1.kernel⟩, hs.2⟩, beforeMounts_plannedState⟩) fun _ => ?_
  refine Sat.bind (Q := fun _ s => Mounting startup execution found s ∧ s.world.kernel = found.kernel)
    (startupPhase_spec ((save_spec (fun s answers hs => ⟨⟨⟨hs.1.1.files, hs.1.1.kernel⟩, hs.1.2⟩, hs.2⟩)
    (fun s hs => hs.1.1.files)
      fun s state hs hstate => ?_).weaken (fun _ _ hs => hs) fun _ s hs => ?_)) fun _ => Sat.pure fun s hs =>
        ⟨hs, _, hbuilt⟩
  · obtain ⟨⟨hbegun, hempty⟩, hbefore⟩ := hs
    have htold := hbefore.told found.kernel s.world.kernel s.mounted
    rw [hstate] at htold
    refine ⟨htold, ⟨hbegun.files.withState htold, hbefore, ⟨⟨_, rfl, ?_⟩, hempty⟩⟩, hbegun.kernel⟩
    rw [← hstate]
    exact ⟨hbefore.status, hbefore.failed, hbefore.idle⟩
  · rcases hs with hs | hs
    · exact hs.1.1
    · exact ⟨hs.1.files, hs.2⟩

theorem step_spec (step : Step κ) :
    Sat G (Crashed startup execution found) (Mounting startup execution found) step.run
    (fun _ => Mounting startup execution found) (fun _ => Mounting startup execution found) := by
  cases step with
  | call f =>
    exact change_spec (fun s hs => hs.files) fun s hs =>
      ⟨hs.files.withKernel _, hs.files.withKernel _, hs.state, hs.planned.state, hs.planned.list⟩
  | register action => exact edit_spec fun s hs => ⟨hs.files, hs.state, hs.planned⟩
  | target path rollback => exact edit_spec fun s hs => ⟨hs.files, hs.state, hs.planned⟩
  | owned path => exact edit_spec fun s hs => ⟨hs.files, hs.state, hs.planned⟩
  | storage mode mountPoint =>
    refine Sat.bind (Q := fun _ => Mounting startup execution found)
      (edit_spec fun s hs => ⟨hs.files, ?_, hs.planned⟩) fun _ => ?_
    · obtain ⟨status, failed, leftover, idle⟩ := hs.state
      exact ⟨status, failed, leftover, ⟨idle.active, idle.overlay, idle.magic, idle.vfs, idle.confirmed⟩⟩
    · refine (save_spec (fun s answers hs => ⟨hs.files, hs.state, hs.planned⟩) (fun s hs => hs.files)
        fun s state hs hstate => ?_).weaken
        (fun _ _ hs => hs) fun _ s hs => hs.elim id id
      have htold := hs.state.told found.kernel s.world.kernel s.mounted
      rw [hstate] at htold
      exact ⟨htold, hs.files.withState htold, hs.state, hs.planned.withState (hstate ▸ hs.state)⟩
  | noStorage =>
    refine edit_spec fun s hs => ⟨hs.files, ?_, hs.planned⟩
    obtain ⟨status, failed, leftover, idle⟩ := hs.state
    exact ⟨status, failed, leftover, ⟨idle.active, idle.overlay, idle.magic, idle.vfs, idle.confirmed⟩⟩
  | vfs provider error errorModules =>
    refine edit_spec fun s hs => ⟨hs.files, ?_, hs.planned⟩
    obtain ⟨status, failed, leftover, idle⟩ := hs.state
    exact ⟨status, failed, leftover, ⟨idle.active, idle.overlay, idle.magic, idle.vfs, idle.confirmed⟩⟩

theorem executeMountPhases_spec :
    Sat G (Crashed startup execution found) (Mounting startup execution found) (executeMountPhases execution)
    (fun out s => Mounting startup execution found s ∧ ∀ result, out = some result →
      execution.result = .ok result)
    fun _ => Mounting startup execution found := by
  refine Sat.bind (Sat.forEach_invariant execution.steps fun step _ => step_spec step) fun _ => ?_
  split
  · exact Sat.pure fun s hs => ⟨hs, fun _ hnone => by cases hnone⟩
  · refine Sat.bind (Q := fun result s => Mounting startup execution found s ∧ execution.result = .ok result)
      (Sat.ofExcept (fun _ _ hr hs => ⟨hs, hr⟩) fun _ _ _ hs => hs) fun result =>
        Sat.pure fun s hs => ⟨hs.1, ?_⟩
    intro result' hsome
    cases hsome
    exact hs.2

theorem contains_of_confirmed {kernel : κ} {targets : List Names} {path : Names}
    (h : path ∈ confirmedMountTargets targets (.fromRecords (MountInfo.mounts kernel))) :
    path ∈ targets ∧ MountedAt kernel path := by
  obtain ⟨hmem, hcontains⟩ := List.mem_filter.mp h
  exact ⟨hmem, contains_iff.mp hcontains⟩

theorem listed_mountedModules (hb : Built startup planned input) (hr : execution.result = .ok result)
    (kernel : κ) (mounted : List Names) :
    Listed startup execution ⟨mountedModules startup planned result (.fromRecords (MountInfo.mounts kernel)),
      kernel, mounted⟩ := by
  intro m hm hmounted
  obtain ⟨module, -, rfl⟩ := List.mem_map.mp hm
  simp only [appModule, Bool.and_eq_true, Bool.not_eq_true', List.contains_iff_mem, List.mem_append] at hmounted
  refine ⟨hmounted.1, planned, input, result, hb, hr, ?_⟩
  rcases hmounted.2 with (hsnapshot | hmagic) | hvfs
  · obtain ⟨builder, hmodules, htree, -⟩ := buildPlan_ok hb.plan
    have hmeets := ((mem_mounted hmodules htree).mp hsnapshot).2
    exact .inl ⟨_, _, fun path hpath => contains_of_confirmed hpath,
      fun path hpath => contains_of_confirmed hpath, hmeets⟩
  · exact .inr (.inl hmagic)
  · exact .inr (.inr hvfs)

/-- The state says that mounts are active, which the kernel shows. -/
structure Confirmed (kernel : κ) (state : RunState) : Prop where
  status : state.rollbackStatus = some .pendingCommit
  failed : state.failedStage = none
  leftover : state.leftoverMountTargets = []
  active : Active kernel state

theorem confirmed_confirmedState {kernel : κ} {state : RunState} :
    Confirmed kernel
      (confirmedState startup planned result (.fromRecords (MountInfo.mounts kernel)) state) := by
  have hactive : ∀ path : Names, path ∈ mergeActiveMounts
      (confirmedMountTargets result.activeMounts (.fromRecords (MountInfo.mounts kernel)))
      (confirmedMountTargets result.magic.activeMounts (.fromRecords (MountInfo.mounts kernel)))
        result.vfs.activeTargets ↔
      path ∈ confirmedMountTargets result.activeMounts (.fromRecords (MountInfo.mounts kernel)) ∨
        path ∈ confirmedMountTargets result.magic.activeMounts (.fromRecords (MountInfo.mounts kernel)) ∨
          path ∈ result.vfs.activeTargets := by
    intro path
    rw [mergeActiveMounts, mem_sortDedup, List.mem_append, List.mem_append, or_assoc]
  unfold confirmedState
  cases result.vfs.failure with
  | none =>
    exact ⟨rfl, rfl, rfl, fun _ h => (contains_of_confirmed h).2, fun _ h => (contains_of_confirmed h).2,
      hactive, rfl⟩
  | some failure =>
    exact ⟨rfl, rfl, rfl, fun _ h => (contains_of_confirmed h).2, fun _ h => (contains_of_confirmed h).2,
      hactive, rfl⟩

/-- The list shows the modules of the run which mounted. -/
def Recorded (startup : Startup τ) (execution : Execution κ) (world : World κ) : Prop :=
  ∃ list planned input result, world.scanRet = some list ∧ Built startup planned input ∧
    execution.result = .ok result ∧
    list.content = mountedModules startup planned result (.fromRecords (MountInfo.mounts list.kernel))

omit [MountInfo κ] in
/-- The VFS targets of the state are those which the phases have reported. -/
def VfsTargets (execution : Execution κ) (state : RunState) : Prop :=
  ∃ result, execution.result = .ok result ∧ state.vfsActiveMounts = result.vfs.activeTargets

/-- The state file says which mounts are active, and that their journal is committed or about to be. -/
structure Succeeded (startup : Startup τ) (execution : Execution κ) (found : World κ)
    (s : Session κ) : Prop where
  files : Files startup execution found s.world
  state : ∃ report, s.world.stateFile = some report ∧ Told found.kernel report ∧
    VfsTargets execution report.content ∧
    (report.content.rollbackStatus = some .pendingCommit ∨ report.content.rollbackStatus = some .committed)
  list : Recorded startup execution s.world

/-- The mounts have been confirmed and written down. -/
structure Pending (startup : Startup τ) (execution : Execution κ) (found : World κ)
    (s : Session κ) : Prop extends
    Succeeded startup execution found s where
  confirmed : Confirmed s.world.kernel s.state
  vfs : VfsTargets execution s.state

theorem commitMounts_spec : Sat G (Crashed startup execution found) (Pending startup execution found)
    (commitMounts startup planned (.fromRecords (MountInfo.mounts found.kernel)))
    (fun _ s => (Succeeded startup execution found s ∧ VfsTargets execution s.state) ∧
      ∃ transaction retain kernel, Confirmed kernel s.state ∧
      (MountTransaction.commit transaction retain kernel).1 = .ok () ∧
        (MountTransaction.commit transaction retain kernel).2.2 = s.world.kernel)
    (fun _ => Failed startup execution found) := by
  refine Sat.bind (Q := fun out s =>
      (out = .ok () → (Succeeded startup execution found s ∧ VfsTargets execution s.state) ∧
      ∃ transaction retain kernel,
      Confirmed kernel s.state ∧ (MountTransaction.commit transaction retain kernel).1 = .ok () ∧
        (MountTransaction.commit transaction retain kernel).2.2 = s.world.kernel) ∧
          Files startup execution found s.world)
    (runJournal_spec (fun s hs => hs.files) fun s hs =>
      ⟨fun hok => ⟨⟨⟨hs.files.withKernel _, hs.state, hs.list⟩, hs.vfs⟩, ?_⟩, hs.files.withKernel _⟩)
    fun out => ?_
  · exact ⟨s.transaction, planned.config.disableUmount, s.world.kernel, hs.confirmed, hok, rfl⟩
  cases out with
  | ok u => exact Sat.pure fun s hs => hs.1 rfl
  | error e =>
    refine Sat.strengthen (P := fun s => Files startup execution found s.world)
      (Sat.attempt_bind (compareMounts_spec (P := fun s => Files startup execution found s.world)
        fun s answers hs => hs) (fun out => ?_)
        fun e => ?_) fun s hs => hs.2
    · refine recordMountFailure_spec.strengthen fun s hs => ⟨hs.1, .incomplete _ fun path => ?_⟩
      rw [hs.2]
      exact mem_leftover
    · exact recordMountFailure_spec.strengthen fun s hs => ⟨hs, .unverified⟩

theorem readBaseline_spec : Sat G (Crashed startup execution found)
    (fun s => Mounting startup execution found s ∧ s.world.kernel = found.kernel)
    (startupPhase .baseline Op.readMounts)
    (fun baseline s => Mounting startup execution found s ∧
      baseline = .fromRecords (MountInfo.mounts found.kernel))
    fun _ => Failed startup execution found := by
  refine startupPhase_spec ((readMounts_spec fun s answers hs =>
    ⟨⟨hs.1.files, hs.1.state, hs.1.planned⟩, hs.2⟩).weaken (fun baseline s hs => ?_)
    fun _ s hs => ⟨hs.1.files, hs.2⟩)
  obtain ⟨⟨hmounting, hkernel⟩, hread⟩ := hs
  exact ⟨hmounting, by rw [hread, hkernel]⟩

/-- The list is written for the mount table which the last look has shown. -/
structure Listing (startup : Startup τ) (execution : Execution κ) (found : World κ) (final : MountSnapshot)
    (s : Session κ) : Prop where
  files : Files startup execution found s.world
  shown : final = .fromRecords (MountInfo.mounts s.world.kernel)
  recorded : Recorded startup execution s.world

theorem writeList_spec (hb : Built startup planned input) (hr : execution.result = .ok result) :
    Sat G (Crashed startup execution found)
      (fun s => Mounting startup execution found s ∧ final = .fromRecords (MountInfo.mounts s.world.kernel))
      (Op.writeScanRet (mountedModules startup planned result final))
      (fun _ => Listing startup execution found final)
      fun _ s => Files startup execution found s.world := by
  refine (write_spec (Q := Listing startup execution found final)
    (fun s answers hs => ⟨⟨hs.1.files, hs.1.state, hs.1.planned⟩, hs.2⟩)
    (fun s hs => hs.1.files) fun s hs => ?_).weaken (fun _ _ hs => hs) fun _ s hs => ?_
  · obtain ⟨hmounting, rfl⟩ := hs
    have hfiles := hmounting.files.withList (listed_mountedModules hb hr s.world.kernel s.mounted)
    exact ⟨hfiles, hfiles, rfl, _, planned, input, result, rfl, hb, hr, rfl⟩
  · rcases hs with hs | hs
    · exact hs.1.files
    · exact hs.files

theorem savePending_spec : Sat G (Crashed startup execution found)
    (fun s => Files startup execution found s.world ∧ Recorded startup execution s.world ∧
      Confirmed s.world.kernel s.state ∧
      VfsTargets execution s.state) Op.save (fun _ => Pending startup execution found) fun _ s =>
        Files startup execution found s.world := by
  refine (save_spec (Q := Pending startup execution found) (fun s answers hs => hs) (fun s hs => hs.1)
    fun s state hs hstate => ?_).weaken (fun _ _ hs => hs) fun _ s hs => ?_
  · obtain ⟨hfiles, hrecorded, hconfirmed, hvfs⟩ := hs
    have htold : Told found.kernel ⟨state, s.world.kernel, s.mounted⟩ := by
      rw [hstate] at hconfirmed
      exact .pending hconfirmed.status hconfirmed.failed hconfirmed.leftover hconfirmed.active
    refine ⟨htold, ⟨hfiles.withState htold, ⟨_, rfl, htold, hstate ▸ hvfs, .inl ?_⟩, hrecorded⟩,
      hconfirmed, hvfs⟩
    exact hstate ▸ hconfirmed.status
  · rcases hs with hs | hs
    · exact hs.1
    · exact hs.files

/-- The journal is committed, and the state is about to say so. -/
structure Committed (startup : Startup τ) (execution : Execution κ) (found : World κ)
    (s : Session κ) : Prop extends
    Succeeded startup execution found s where
  told : Told found.kernel ⟨s.state, s.world.kernel, s.mounted⟩
  vfs : VfsTargets execution s.state
  status : s.state.rollbackStatus = some .committed

/-- That the last save fails is passed over: the state before it is true as well. -/
theorem saveCommitted_spec {E : Error → Session κ → Prop} :
    Sat G (Crashed startup execution found) (Committed startup execution found)
      (Prog.attempt Op.save >>= fun _ => (return () : Op κ Unit))
      (fun _ => Succeeded startup execution found) E := by
  refine Sat.attempt_bind (save_spec (Q := Succeeded startup execution found) (fun s answers hs => ?_)
    (fun s hs => hs.files)
    fun s state hs hstate => ?_) (fun _ => Sat.pure fun _ hs => hs) fun _ => Sat.pure fun s hs => ?_
  · exact ⟨⟨hs.files, hs.state, hs.list⟩, hs.told, hs.vfs, hs.status⟩
  · have htold := hs.told
    have hstatus := hs.status
    have hvfs := hs.vfs
    rw [hstate] at htold hstatus hvfs
    exact ⟨htold, hs.files.withState htold, ⟨_, rfl, htold, hvfs, .inr hstatus⟩, hs.list⟩
  · rcases hs with hs | hs
    · exact hs.toSucceeded
    · exact hs

theorem confirmMounts_spec (hbuilt : Built startup planned input) (hresult : execution.result = .ok result) :
    Sat G (Crashed startup execution found) (Mounting startup execution found)
      (confirmMounts startup planned (.fromRecords (MountInfo.mounts found.kernel)) result)
      (fun _ => Succeeded startup execution found) fun _ => Failed startup execution found := by
  refine Sat.bind (orRollBack_spec
    ((readMounts_spec fun s answers hs => ⟨hs.files, hs.state, hs.planned⟩).weaken (fun _ _ hs => hs)
    fun _ _ hs => hs.files)) fun final => ?_
  refine Sat.bind (orRollBack_spec (writeList_spec hbuilt hresult)) fun _ => ?_
  refine Sat.bind (Q := fun _ s => Files startup execution found s.world ∧
      Recorded startup execution s.world ∧
      Confirmed s.world.kernel s.state ∧ VfsTargets execution s.state) (edit_spec fun s hs => ?_) fun _ => ?_
  · obtain ⟨hfiles, rfl, hrecorded⟩ := hs
    refine ⟨hfiles, hrecorded, confirmed_confirmedState, result, hresult, ?_⟩
    unfold confirmedState
    cases result.vfs.failure with
    | none => rfl
    | some failure => rfl
  refine Sat.bind (orRollBack_spec savePending_spec) fun _ => Sat.bind commitMounts_spec fun _ => ?_
  refine Sat.bind (Q := fun _ => Committed startup execution found) (edit_spec fun s hs => ?_) fun _ =>
    saveCommitted_spec
  obtain ⟨⟨hsucceeded, hvfs⟩, transaction, retain, kernel, hconfirmed, hok, hleft⟩ := hs
  obtain ⟨hoverlay, hmagic, hactive, hconfirm⟩ := hconfirmed.active
  exact ⟨⟨hsucceeded.files, hsucceeded.state, hsucceeded.list⟩,
    .committed rfl rfl rfl transaction retain kernel ⟨hoverlay, hmagic, hactive, hconfirm⟩ hok hleft, hvfs, rfl⟩

/-- What is left of a run which came to its end without an error. -/
structure Ended (startup : Startup τ) (execution : Execution κ) (found : World κ) (out : PipelineEnd)
    (s : Session κ) : Prop where
  files : Files startup execution found s.world
  returned : out = .returned → Succeeded startup execution found s
  panicked : out = .panicked → AsPlanned s.world

theorem runMountPipelineImpl_spec {clearUnmountList : κ → Except Error Unit × κ} :
    Sat G (Crashed startup execution found) (fun s => s.world = found)
      (runMountPipelineImpl startup clearUnmountList execution)
      (Ended startup execution found) fun _ => Failed startup execution found := by
  refine Sat.bind planMounts_spec fun planned => Sat.given fun hbuilt => ?_
  obtain ⟨input, hbuilt⟩ := hbuilt
  -- the baseline is the mount table as it was found
  refine Sat.bind readBaseline_spec fun baseline => Sat.given fun hbase => ?_
  obtain rfl := hbase
  refine Sat.bind (Q := fun _ => Mounting startup execution found)
    (edit_spec fun s hs => ⟨hs.files, hs.state, hs.planned⟩) fun _ => ?_
  refine Sat.bind (orRollBack_spec (executeMountPhases_spec.weaken (fun _ _ hs => hs) fun _ _ hs => hs.files))
      fun out =>
    Sat.given fun hresult => ?_
  cases out with
  | some result =>
    refine Sat.bind (confirmMounts_spec hbuilt (hresult result rfl)) fun _ => Sat.pure fun s hs =>
      ⟨hs.files, fun _ => hs, ?_⟩
    intro hpanicked
    cases hpanicked
  | none =>
    refine Sat.bind (Q := fun _ s => Files startup execution found s.world ∧ AsPlanned s.world)
      (runJournal_spec (fun s hs => hs.files) fun s hs =>
        ⟨hs.files.withKernel _, hs.planned.state, hs.planned.list⟩) fun _ =>
      Sat.pure fun s hs => ⟨hs.1, ?_, fun _ => hs.2⟩
    intro hreturned
    cases hreturned

end Phases

variable (startup : Startup τ) (clearUnmountList : κ → Except Error Unit × κ) (execution : Execution κ)
  (s : Session κ)

/-- Wherever a boot is interrupted, the state file and the list of modules are as they were found, or true. -/
theorem reports_after_crash :
    (∀ e ∈ (runMountPipelineImpl startup clearUnmountList execution s).trace,
      Crashed startup execution s.world e) ∧
      Files startup execution s.world
        (runMountPipelineImpl startup clearUnmountList execution s).state.world := by
  have hrun := @runMountPipelineImpl_spec κ τ _ startup execution s.world (fun _ => True) clearUnmountList
  refine ⟨hrun.events rfl fun _ _ => trivial, ?_⟩
  cases hresult : (runMountPipelineImpl startup clearUnmountList execution s).result with
  | ok u => exact (hrun.of_ok rfl (fun _ _ => trivial) hresult).files
  | error e => exact (hrun.of_error rfl (fun _ _ => trivial) hresult).files

/-- A boot which succeeds leaves a report of its mounts and the list of the modules which mounted, and one
which fails a report of the failure and a list without any, or says so in the log. One which panics leaves
the files of the plan. -/
theorem boot_outcome :
    ((runMountPipelineImpl startup clearUnmountList execution s).result = .ok .returned →
        Succeeded startup execution s.world (runMountPipelineImpl startup clearUnmountList execution s).state) ∧
      (∀ e, (runMountPipelineImpl startup clearUnmountList execution s).result = .error e →
        Reported startup s.world (runMountPipelineImpl startup clearUnmountList execution s).state) ∧
      ((runMountPipelineImpl startup clearUnmountList execution s).result = .ok .panicked →
        AsPlanned (runMountPipelineImpl startup clearUnmountList execution s).state.world) := by
  have hrun := @runMountPipelineImpl_spec κ τ _ startup execution s.world (fun _ => True) clearUnmountList
  refine ⟨fun hok => ?_, fun e he => (hrun.of_error rfl (fun _ _ => trivial) he).reported, fun hpanic => ?_⟩
  · exact (hrun.of_ok rfl (fun _ _ => trivial) hok).returned rfl
  · exact (hrun.of_ok rfl (fun _ _ => trivial) hpanic).panicked rfl

end HybridMount.Pipeline
