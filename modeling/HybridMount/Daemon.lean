import HybridMount.HotOwnership
import Mathlib.Logic.Relation

/-! The runs of the daemon within one kernel boot: the boot sequence, hot
operations and cleanups, each of which may be cut short at any event. -/

namespace HybridMount

open Traced

/-- How far the boot sequence of the present process has come. -/
inductive Progress where
  | idle
  | started (session : BootSession)
  | staged (session : BootSession) (plan : MountPlan) (config : Boot.Config) (nomount : Bool)
  | running (session : BootSession) (registered : List EncodedRule)

def Progress.session : Progress → Option BootSession
  | idle => none
  | started session | staged session _ _ _ | running session _ => some session

inductive Command where
  | start (active : Probe)
  | stage (plan : MountPlan) (config : Boot.Config) (nomount : Bool)
  | applyVfs (entry : Boot.VfsEntry)
  | rollback
  | finish (outcome : Boot.Outcome)
  | hot (active : Probe) (guard : Except Error Unit) (action : HotAction) (moduleId : String)
      (request : Except Error Hot.Request)
  | cleanup (active : Probe)

/-- What the process runs next. A boot that fails before its commit still commits;
the operation lock keeps hot operations and cleanups out of it. -/
def Command.program {τ : Type} [RuleTable τ] (host : Host) : Command → Progress → Option (Op τ Progress)
  | .start active, .idle => some do
    match ← Prog.attempt (Boot.start host active) with
    | .ok session => return .started session
    | .error _ => return .idle
  | .stage plan config nomount, .started session => some do
    match ← Prog.attempt (Boot.stagePlan host plan config.isolateUids nomount) with
    | .ok _ => return .staged session plan config nomount
    | .error _ => return .running session []
  | .applyVfs entry, .staged session plan config nomount => some do
    match ← Prog.attempt (Boot.applyVfsPhase config plan nomount entry) with
    | .ok (registered, .returned _) => return .running session registered
    | .ok (registered, .panicked) => do
      -- The unwinding stack drops the mount transaction, whose actions run, and the process is gone.
      let _ ← Prog.attempt (Boot.rollbackVfsRules registered)
      return .idle
    | .error _ => return .running session []
  | .rollback, .running session registered => some do
    let _ ← Prog.attempt (Boot.rollbackVfsRules registered)
    return .running session []
  | .finish outcome, progress => progress.session.map fun session => do
    let _ ← Prog.attempt (Boot.finish host session outcome)
    return .idle
  | .hot active guard action moduleId request, .idle => some do
    let _ ← Prog.attempt (Hot.apply host active guard action moduleId request)
    return .idle
  | .cleanup active, .idle => some do
    let _ ← Prog.attempt (Boot.cleanup host active)
    return .idle
  | _, _ => none

structure Daemon where
  machine : Machine FlatTable
  progress : Progress

namespace Daemon

/-- The daemon after a command that is not cut short. -/
def exec (host : Host) (d : Daemon) (command : Command) (faults : List (Option Fault)) : Option Daemon :=
  match command.program host d.progress with
  | none => none
  | some program =>
    match (program ⟨d.machine, faults⟩).result with
    | .ok progress => some ⟨(program ⟨d.machine, faults⟩).state.machine, progress⟩
    | .error _ => none

/-- A permitted command runs to its end or up to one of its events, where the
process is lost and the next one starts over. -/
inductive Step (host : Host) (permitted : Command → Daemon → Prop) : Daemon → Daemon → Prop
  | run {d d' : Daemon} {command : Command} {faults : List (Option Fault)} :
      permitted command d → d.exec host command faults = some d' → Step host permitted d d'
  | crash {d : Daemon} {command : Command} {faults : List (Option Fault)} {program : Op FlatTable Progress}
      {e : Event FlatTable} {m : Machine FlatTable} :
      permitted command d → command.program host d.progress = some program →
      e ∈ (program ⟨d.machine, faults⟩).trace → m = e.before ∨ m = e.after → Step host permitted d ⟨m, .idle⟩

def Runs (host : Host) (permitted : Command → Daemon → Prop) : Daemon → Daemon → Prop :=
  Relation.ReflTransGen (Step host permitted)

/-- A commit that forgets its records finds nothing of its own live. -/
def Retains (base : Baseline) (host : Host) (command : Command) (d : Daemon) : Prop :=
  ∀ outcome, command = .finish outcome → Boot.Forgets host outcome d.machine → base.Idle d.machine

variable {base : Baseline} {host : Host} {G : Event FlatTable → Prop} {d d' d₀ : Daemon}
  {permitted : Command → Daemon → Prop}

/-- What holds between two commands. -/
structure Ordered (base : Baseline) (host : Host) (d : Daemon) : Prop where
  safe : base.Safe host d.machine
  booting : ∀ session, d.progress.session = some session → base.Booting host session d.machine
  started : ∀ session, d.progress = .started session → base.Idle d.machine
  staged : ∀ session plan config nomount, d.progress = .staged session plan config nomount →
    base.Planned host session plan config d.machine

theorem Ordered.idle {m : Machine FlatTable} (h : base.Safe host m) : Ordered base host ⟨m, .idle⟩ :=
  ⟨h, fun _ hh => (by cases hh), fun _ hh => (by cases hh), fun _ _ _ _ hh => (by cases hh)⟩

theorem Ordered.running {m : Machine FlatTable} {session : BootSession} {registered : List EncodedRule}
    (h : base.Booting host session m) : Ordered base host ⟨m, .running session registered⟩ := by
  refine ⟨h.safe, fun session' hh => ?_, fun _ hh => (by cases hh), fun _ _ _ _ hh => (by cases hh)⟩
  cases hh
  exact h

theorem attempt_idle {α : Type} {program : Op FlatTable α} {P : Machine FlatTable → Prop}
    (h : Ensures G (base.Sound host) P program (fun _ => base.Safe host) (fun _ => base.Safe host)) :
    Ensures G (base.Sound host) P (Prog.attempt program >>= fun _ => pure Progress.idle)
      (fun progress m => Ordered base host ⟨m, progress⟩) (fun _ _ => False) :=
  Sat.bind (Sat.attempt_keeps h) fun _ => Sat.pure fun _ hs => Ordered.idle hs

theorem rollbackVfsRules_booting {session : BootSession} (registered : List EncodedRule) :
    Ensures G (base.Sound host) (base.Booting host session) (Boot.rollbackVfsRules registered)
      (fun _ => base.Booting host session) (fun _ => base.Booting host session) := by
  unfold Boot.rollbackVfsRules
  split
  · exact Sat.pure fun _ hs => hs
  · exact Ensures.of_eq fun _ hboot => Baseline.removeRules_booting registered hboot

/-- Every command keeps the order, and each of its events is accounted for. -/
theorem program_sound {command : Command} {program : Op FlatTable Progress} (hd : Ordered base host d)
    (hretains : Retains base host command d) (hp : command.program host d.progress = some program) :
    Ensures G (base.Sound host) (· = d.machine) program (fun progress m => Ordered base host ⟨m, progress⟩)
      (fun _ _ => False) := by
  obtain ⟨machine, progress⟩ := d
  have hsafe : base.Safe host machine := hd.safe
  have hfinish : ∀ session outcome, progress.session = some session → command = .finish outcome →
      Ensures G (base.Sound host) (· = machine)
        (Prog.attempt (Boot.finish host session outcome) >>= fun _ => pure Progress.idle)
        (fun progress m => Ordered base host ⟨m, progress⟩) (fun _ _ => False) := by
    intro session outcome hs hc
    exact attempt_idle (Baseline.finish_sound (hd.booting session hs) (hretains outcome hc))
  cases command with
  | finish outcome =>
    rw [Command.program] at hp
    obtain ⟨session, hs, rfl⟩ := Option.map_eq_some_iff.mp hp
    exact hfinish session outcome hs rfl
  | start active =>
    cases progress <;> cases hp
    refine Sat.bind (Q := fun r s => (∀ session, r = .ok session →
      base.Booting host session s.machine ∧ base.Idle s.machine) ∧ base.Safe host s.machine) ?_ fun r => ?_
    · refine (Sat.attempt ((Baseline.start_sound active).weaken ?_ ?_)).strengthen fun s hs => hs ▸ hsafe
      · exact fun session s hs => ⟨fun session' hh => (by cases hh; exact hs), hs.1.safe⟩
      · exact fun e s hs => ⟨fun _ hh => (by cases hh), hs⟩
    · cases r with
      | error e => exact Sat.pure fun s hs => Ordered.idle hs.2
      | ok session =>
        refine Sat.pure fun s hs => ?_
        obtain ⟨hboot, hidle⟩ := hs.1 session rfl
        refine ⟨hs.2, fun _ hh => ?_, fun _ _ => hidle, fun _ _ _ _ hh => (by cases hh)⟩
        cases hh
        exact hboot
  | stage plan config nomount =>
    cases progress <;> cases hp
    rename_i session
    have hboot := hd.booting session rfl
    have hidle := hd.started session rfl
    refine Sat.bind (Q := fun r s => (r = .ok () → base.Planned host session plan config s.machine) ∧
      base.Booting host session s.machine) ?_ fun r => ?_
    · refine Sat.attempt ((Baseline.stagePlan_sound hboot hidle nomount).weaken ?_ ?_)
      · exact fun _ s hs => ⟨fun _ => hs, hs.toBooting⟩
      · exact fun _ s hs => ⟨fun hh => (by cases hh), hs⟩
    · cases r with
      | error e => exact Sat.pure fun s hs => Ordered.running hs.2
      | ok _ =>
        refine Sat.pure fun s hs => ?_
        refine ⟨hs.2.safe, fun _ hh => ?_, fun _ hh => (by cases hh), fun _ _ _ _ hh => ?_⟩
        · cases hh
          exact hs.2
        · cases hh
          exact hs.1 rfl
  | applyVfs entry =>
    cases progress <;> cases hp
    rename_i session plan config nomount
    have hplanned := hd.staged session plan config nomount rfl
    have hphase : Ensures G (base.Sound host) (· = machine) (Boot.applyVfsPhase config plan nomount entry)
        (fun _ m => base.Planned host session plan config m)
        (fun _ m => base.Planned host session plan config m) :=
      (Baseline.applyVfsPhase_planned nomount entry).strengthen fun s hs =>
        (show s.machine = machine from hs) ▸ hplanned
    refine Sat.bind (Sat.attempt_keeps hphase) fun r => ?_
    rcases r with e | ⟨registered, result | -⟩
    · exact Sat.pure fun s hs => Ordered.running hs.toBooting
    · exact Sat.pure fun s hs => Ordered.running hs.toBooting
    · refine attempt_idle ((rollbackVfsRules_booting registered).consequence (fun s hs => hs.toBooting) ?_ ?_)
      · exact fun _ _ hs => hs.safe
      · exact fun _ _ hs => hs.safe
  | rollback =>
    cases progress <;> cases hp
    rename_i session registered
    have hrollback := (rollbackVfsRules_booting (G := G) registered).strengthen
      fun s (hs : s.machine = machine) => hs ▸ hd.booting session rfl
    exact Sat.bind (Sat.attempt_keeps hrollback) fun _ => Sat.pure fun _ hs => Ordered.running hs
  | hot active guard action moduleId request =>
    cases progress <;> cases hp
    exact attempt_idle ((Baseline.apply_sound active guard action moduleId request).strengthen
      fun s hs => hs ▸ hsafe)
  | cleanup active =>
    cases progress <;> cases hp
    exact attempt_idle ((Baseline.cleanup_sound host active).strengthen fun s hs => hs ▸ hsafe)

theorem Step.ordered (hd : Ordered base host d) (h : Step host (Retains base host) d d') :
    Ordered base host d' := by
  cases h with
  | run hretains hexec =>
    rename_i command faults
    unfold exec at hexec
    cases hp : (command.program host d.progress : Option (Op FlatTable Progress)) with
    | none =>
      rw [hp] at hexec
      cases hexec
    | some program =>
      have hspec := program_sound (G := fun _ => True) hd hretains hp
      simp only [hp] at hexec
      cases hr : (program ⟨d.machine, faults⟩).result with
      | error e => exact (hspec.of_error (s := ⟨d.machine, faults⟩) rfl (fun _ _ => trivial) hr).elim
      | ok progress =>
        rw [hr] at hexec
        cases hexec
        exact hspec.of_ok (s := ⟨d.machine, faults⟩) rfl (fun _ _ => trivial) hr
  | crash hretains hp he hm =>
    rename_i command faults program e m
    have hspec := program_sound (G := fun _ => True) hd hretains hp
    have hsound := hspec.events (s := ⟨d.machine, faults⟩) rfl (fun _ _ => trivial) e he
    rcases hm with rfl | rfl
    · exact Ordered.idle hsound.1
    · exact Ordered.idle hsound.2

theorem Runs.ordered (hd : Ordered base host d₀) (h : Runs host (Retains base host) d₀ d) :
    Ordered base host d := by
  induction h with
  | refl => exact hd
  | tail _ hstep ih => exact hstep.ordered ih

/-- As long as no commit forgets what is live, the ledger file names everything
that the daemon added, at every point of every run. -/
theorem ledger_accounts_for_kernel (hidle : base.Idle d₀.machine) (hprogress : d₀.progress = .idle)
    (h : Runs host (Retains base host) d₀ d) : base.Accounted (d.machine.effective host) d.machine := by
  have hstart : Ordered base host d₀ := by
    obtain ⟨machine, progress⟩ := d₀
    cases hprogress
    exact Ordered.idle (hidle.safe host)
  exact (h.ordered hstart).safe.toAccounted

/-- Commands one after the other, none of them cut short. -/
def execAll (host : Host) (d : Daemon) : List (Command × List (Option Fault)) → Option Daemon
  | [] => some d
  | (command, faults) :: rest => (d.exec host command faults).bind fun d' => execAll host d' rest

theorem runs_of_execAll {script : List (Command × List (Option Fault))}
    (hp : ∀ step ∈ script, ∀ d, permitted step.1 d) (h : execAll host d script = some d') :
    Runs host permitted d d' := by
  induction script generalizing d with
  | nil =>
    cases h
    exact .refl
  | cons step rest ih =>
    obtain ⟨command, faults⟩ := step
    obtain ⟨mid, hmid, hrest⟩ := Option.bind_eq_some_iff.mp h
    have hhead : permitted command d := hp (command, faults) List.mem_cons_self d
    exact .head (.run hhead hmid) (ih (fun s hs => hp s (List.mem_cons_of_mem _ hs)) hrest)

def testHost : Host := ⟨"boot", "ns"⟩

def freshDaemon : Daemon := ⟨⟨⟨[], List.nodup_nil⟩, [], none, 1, [], []⟩, .idle⟩

def hostsPlan : MountPlan :=
  ⟨[⟨.inject "/system/etc/hosts" "/data/adb/modules/hosts/system/etc/hosts", "hosts"⟩], ["hosts"], [], []⟩

/-- The boot of one module up to its commit. -/
def bootUntilFinish (provider : VfsProvider) (format : RuleFormat) (faults : List (Option Fault)) :
    List (Command × List (Option Fault)) :=
  [(.start (.ok provider), []), (.stage hostsPlan ⟨[10123, 10124], false⟩ (provider = .nomount), []),
    (.applyVfs ⟨.ok (), .ok (), .ok provider, format⟩, faults)]

theorem bootUntilFinish_ne_finish {provider : VfsProvider} {format : RuleFormat}
    {faults : List (Option Fault)}
    {outcome : Boot.Outcome} {step : Command × List (Option Fault)}
    (h : step ∈ bootUntilFinish provider format faults) : step.1 ≠ .finish outcome := by
  simp only [bootUntilFinish, List.mem_cons, List.not_mem_nil, or_false] at h
  rcases h with rfl | rfl | rfl <;> exact fun hc => (by cases hc)

def degradedOutcome (provider : VfsProvider) : Boot.Outcome :=
  ⟨true, ⟨[], [], [], [], ""⟩, [], [], .ok [], .ok provider⟩

/-- The second uid cannot be isolated, so the boot goes on without VFS and commits. -/
def degradedBoot (provider : VfsProvider) (format : RuleFormat) (faults : List (Option Fault)) :
    Option Daemon :=
  (execAll testHost freshDaemon (bootUntilFinish provider format faults)).bind fun d =>
    d.exec testHost (.finish (degradedOutcome provider)) []

theorem runs_of_degradedBoot {provider : VfsProvider} {format : RuleFormat} {faults : List (Option Fault)}
    (hp : ∀ command d, (∀ outcome, command ≠ .finish outcome) → permitted command d)
    (hfinish : ∀ d, execAll testHost freshDaemon (bootUntilFinish provider format faults) = some d →
      permitted (.finish (degradedOutcome provider)) d)
    (h : degradedBoot provider format faults = some d') : Runs testHost permitted freshDaemon d' := by
  obtain ⟨mid, hmid, hlast⟩ := Option.bind_eq_some_iff.mp h
  have hruns : Runs testHost permitted freshDaemon mid :=
    runs_of_execAll (fun step hs d => hp step.1 d fun _ => bootUntilFinish_ne_finish hs) hmid
  exact hruns.tail (.run (hfinish mid hmid) hlast)

theorem freshDaemon_idle : Baseline.Idle ⟨[], []⟩ freshDaemon.machine :=
  ⟨List.Subset.refl _, List.Subset.refl _⟩

theorem hm_boot_keeps_pending :
    (execAll testHost freshDaemon (bootUntilFinish .hm .hybridMount [none, some ⟨1, "ENOSPC"⟩])).map
      (fun d => ((d.machine.effective testHost).vfsProvider,
        (d.machine.effective testHost).pendingRules.length)) =
        some (some "hm", 1) := by
  decide +kernel

/-- The commit of a degraded Hybrid Mount boot keeps the uid that is isolated. -/
theorem ledger_accounts_for_kernel_hm :
    ∃ d, degradedBoot .hm .hybridMount [none, some ⟨1, "ENOSPC"⟩] = some d ∧ d.machine.uids = [10123] ∧
      Baseline.Accounted ⟨[], []⟩ (d.machine.effective testHost) d.machine := by
  have hresult : (degradedBoot .hm .hybridMount [none, some ⟨1, "ENOSPC"⟩]).map (fun d => d.machine.uids) =
      some [10123] := by
    decide +kernel
  obtain ⟨d, hd, huids⟩ := Option.map_eq_some_iff.mp hresult
  refine ⟨d, hd, huids, ledger_accounts_for_kernel freshDaemon_idle rfl (runs_of_degradedBoot ?_ ?_ hd)⟩
  · exact fun command d hc outcome he => absurd he (hc outcome)
  · intro mid hmid outcome he hforget
    have hkept := hm_boot_keeps_pending
    rw [hmid, Option.map_some, Option.some.injEq, Prod.mk.injEq] at hkept
    rcases hforget with ⟨hv, -⟩ | ⟨hp, -⟩
    · rw [hkept.1] at hv
      exact absurd hv (by decide)
    · rw [hp] at hkept
      cases hkept.2

/-- The commit of a degraded NoMount boot drops a uid that is still isolated. -/
theorem degraded_nomount_boot_forgets_uid :
    ¬ ∀ (base : Baseline) (host : Host) (d₀ d : Daemon), base.Idle d₀.machine → d₀.progress = .idle →
      Runs host (fun _ _ => True) d₀ d → base.Accounted (d.machine.effective host) d.machine := by
  intro h
  have hresult : (degradedBoot .nomount .nomount22 [none, none, some ⟨1, "ENOSPC"⟩]).map
      (fun d => (d.machine.uids, (d.machine.effective testHost).isolatedUids)) = some ([10123], []) := by
    decide +kernel
  obtain ⟨d, hd, hlast⟩ := Option.map_eq_some_iff.mp hresult
  obtain ⟨huids, hnone⟩ := Prod.mk.injEq .. ▸ hlast
  have hruns := runs_of_degradedBoot (fun _ _ _ => trivial) (fun _ _ => trivial) hd
  have hacc := h ⟨[], []⟩ testHost freshDaemon d freshDaemon_idle rfl hruns
  have hmem := hacc.uids 10123 (by rw [huids]; exact List.mem_singleton.mpr rfl) List.not_mem_nil
  rw [hnone] at hmem
  cases hmem

end Daemon

end HybridMount
