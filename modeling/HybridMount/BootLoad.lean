import HybridMount.BootIsolation
import HybridMount.BootOwnership

/-! What a boot leaves in an empty rule table: all rules of its plan or none of them. -/

namespace HybridMount

open Traced

/-- The rules of the table are these, as the wire carries them. -/
def Holds (rules : List SavedRule) (m : Machine FlatTable) : Prop := ∀ r, r ∈ m.rules.rules ↔
    ∃ x ∈ rules, r = wire x

namespace Boot

/-- What the boot has in hand after the phase; a panic leaves it nothing to go on with. -/
def PhaseEnd.answer : PhaseEnd → Except Error VfsExecStats
  | .returned outcome => outcome
  | .panicked => .error (.msg "already borrowed: BorrowMutError")

/-- A boot that reaches its commit with the plan at hand. -/
def complete {τ : Type} [RuleTable τ] (host : Host) (active : Probe) (plan : MountPlan) (config : Config)
    (nomount : Bool)
    (entry : VfsEntry) (outcome : Outcome) : Op τ VfsExecStats := do
  let session ← start host active
  stagePlan host plan config.isolateUids nomount
  let (_, phase) ← applyVfsPhase config plan nomount entry
  let stats ← Prog.ofExcept phase.answer
  finish host session { outcome with
    successful := true
    state := { outcome.state with vfsActiveMounts := stats.activeTargets } }
  return stats

/-- The phase has installed the whole plan, or it has installed nothing and says so. -/
inductive Installs (plan : MountPlan) : VfsExecStats → List SavedRule → Prop
  | all : Installs plan (planRules plan).stats (plannedRules plan)
  | nothing (stats : VfsExecStats) : stats.mountedModuleIds = [] → stats.activeTargets = [] →
      Installs plan stats []

def Partly (batch : List EncodedRule) (m : Machine FlatTable) : Prop :=
  ∀ r ∈ m.rules.rules, ∃ x ∈ batch.map EncodedRule.record, r.key = x.key

/-- What a program leaves behind, whatever its events. -/
abbrev Leaves {α : Type} (P : Machine FlatTable → Prop) (program : Op FlatTable α)
    (Q : α → Machine FlatTable → Prop)
    (E : Error → Machine FlatTable → Prop) : Prop := Ensures (fun _ => True) (fun _ => True) P program Q E

variable {batch : List EncodedRule} {uids : List UInt32} {strict nomount : Bool} {plan : MountPlan}
  {config : Config}
  {entry : VfsEntry} {P : Machine FlatTable → Prop} {m : Machine FlatTable}

theorem holds_nil : Holds [] m ↔ m.rules.rules = [] := by
  simp [Holds, List.eq_nil_iff_forall_not_mem]

theorem Partly.of_holds (h : Holds (batch.map EncodedRule.record) m) : Partly batch m := by
  intro r hr
  obtain ⟨x, hx, rfl⟩ := (h r).mp hr
  exact ⟨x, hx, rfl⟩

theorem sendRules_holds (hkeys : ((batch.map EncodedRule.record).map SavedRule.key).Nodup) :
    Leaves (fun m => m.rules.rules = []) (sendRules batch) (fun _ => Holds (batch.map EncodedRule.record))
      fun _ => Partly batch := by
  refine Ensures.of_eq fun m hm => ?_
  unfold sendRules
  split
  · rename_i hnone
    refine Sat.pure fun s hs => ?_
    rw [hs, hnone]
    exact holds_nil.mpr hm
  · refine (Ensures.put fun _ _ _ _ _ _ _ _ => trivial).weaken ?_ ?_
    · intro _ s hs r
      rw [hs, Machine.withRules_rules, FlatTable.mem_putAll hkeys, hm]
      simp
    · rintro _ s ⟨-, xs, hxs, hs⟩ r hr
      rw [hs, Machine.withRules_rules, FlatTable.mem_putAll (hkeys.sublist (hxs.sublist.map _)), hm] at hr
      rcases hr with ⟨x, hx, rfl⟩ | ⟨hr, -⟩
      · exact ⟨x, hxs.subset hx, rfl⟩
      · cases hr

theorem read_leaves {α : Type} {operation : Operation} {read : Machine FlatTable → α} :
    Leaves P (Op.query operation read) (fun _ => P) fun _ => P :=
  (Ensures.read (P := P) fun _ _ _ => trivial).weaken (fun _ _ hs => hs.1) fun _ _ hs => hs

theorem addUids_leaves (hP : ∀ m uids, P m → P (m.withUids uids)) :
    Leaves P (Op.addUids uids) (fun _ => P) fun _ => P := by
  refine Ensures.of_eq fun m hm => (Ensures.addUids uids fun _ _ _ _ _ _ _ => trivial).weaken ?_ ?_
  · intro _ s hs
    rw [hs]
    exact hP m _ hm
  · rintro _ s ⟨xs, -, hs⟩
    rw [hs]
    exact hP m _ hm

theorem removeRules_clears : Leaves (Partly batch) (removeRules batch) (fun _ m => m.rules.rules = [])
      fun _ _ => True := by
  refine Ensures.of_eq fun m hm => ?_
  unfold removeRules
  split
  · rename_i hnone
    refine Sat.pure fun s hs => List.eq_nil_iff_forall_not_mem.mpr fun r hr => ?_
    obtain ⟨x, hx, -⟩ := hm r ((show s.machine = m from hs) ▸ hr)
    rw [hnone] at hx
    cases hx
  · refine (Ensures.delete fun _ _ _ _ _ _ _ _ => trivial).weaken ?_ fun _ _ _ => trivial
    intro _ s hs
    rw [hs]
    refine List.eq_nil_iff_forall_not_mem.mpr fun r hr => ?_
    obtain ⟨hr, hkey⟩ := FlatTable.mem_deleteAll.mp hr
    obtain ⟨x, hx, hk⟩ := hm r hr
    exact hkey x hx hk

theorem applyRules_holds (hkeys : ((batch.map EncodedRule.record).map SavedRule.key).Nodup) :
    Leaves (fun m => m.rules.rules = []) (applyRules batch uids)
      (fun _ => Holds (batch.map EncodedRule.record)) fun _ => Partly batch := by
  refine Sat.bind (sendRules_holds hkeys) fun _ => ?_
  split
  · exact (addUids_leaves fun _ _ hm => hm).weaken (fun _ _ hs => hs) fun _ _ hs => Partly.of_holds hs
  · exact Sat.pure fun _ hs => hs

theorem attempt_clears : Leaves (Partly batch) (Prog.attempt (removeRules batch))
    (fun r m => r = .ok () → m.rules.rules = []) fun _ _ => True :=
  Sat.attempt (removeRules_clears.weaken (fun _ _ hs _ => hs) fun _ _ _ hh => by cases hh)

theorem applyRulesWithPolicy_holds (hkeys : ((batch.map EncodedRule.record).map SavedRule.key).Nodup) :
    Leaves (fun m => m.rules.rules = []) (applyRulesWithPolicy batch uids strict)
      (fun r m => (r = none → Holds (batch.map EncodedRule.record) m) ∧ (r ≠ none → m.rules.rules = []))
        fun _ _ => True := by
  have happly : Leaves (fun m => m.rules.rules = []) (Prog.attempt (applyRules batch uids))
      (fun r m => (r = .ok () → Holds (batch.map EncodedRule.record) m) ∧ Partly batch m)
        fun _ _ => True := by
    refine Sat.attempt ((applyRules_holds hkeys).weaken ?_ ?_)
    · exact fun _ _ hs => ⟨fun _ => hs, .of_holds hs⟩
    · exact fun _ _ hs => ⟨fun hh => (by cases hh), hs⟩
  refine Sat.bind happly fun r => ?_
  cases r with
  | ok _ => exact Sat.pure fun s hs => ⟨fun _ => hs.1 rfl, fun hne => absurd rfl hne⟩
  | error err =>
    refine Sat.bind (attempt_clears.strengthen fun s hs => hs.2) fun r => ?_
    cases r with
    | error cleanup => exact Sat.fail fun _ _ => trivial
    | ok _ =>
      show Sat _ _ _ (if strict then _ else _) _ _
      split
      · exact Sat.fail fun _ _ => trivial
      · exact Sat.pure fun s hs => ⟨fun hh => (by cases hh), fun _ => hs rfl⟩

/-- What a phase that returns statistics has installed. -/
def PhaseInstalls (plan : MountPlan) (out : List EncodedRule × PhaseEnd) (m : Machine FlatTable) : Prop :=
  ∀ stats, out.2.answer = .ok stats → ∃ rules, Installs plan stats rules ∧ Holds rules m

theorem PhaseInstalls.failed {registered : List EncodedRule} {e : Error} :
    PhaseInstalls plan (registered, .returned (.error e)) m :=
  fun _ hh => by cases hh

theorem PhaseInstalls.panicked {registered : List EncodedRule} :
    PhaseInstalls plan (registered, .panicked) m :=
  fun _ hh => by cases hh

theorem PhaseInstalls.failure {registered : List EncodedRule} {detail : String} (h : m.rules.rules = []) :
    PhaseInstalls plan (registered, .returned (.ok (vfsFailureStats detail))) m := by
  intro stats hh
  cases hh
  exact ⟨[], .nothing _ rfl rfl, holds_nil.mpr h⟩

theorem PhaseInstalls.degraded {registered : List EncodedRule} {e : Error} (h : m.rules.rules = []) :
    PhaseInstalls plan (registered, .returned (degrade strict e)) m := by
  unfold degrade
  split
  · exact .failed
  · exact .failure h

theorem holds_planned : Holds ((planRules plan).rules.map EncodedRule.record) m ↔
    Holds (plannedRules plan) m := by
  have hrecords : ∀ r, (∃ x ∈ (planRules plan).rules.map EncodedRule.record, r = wire x) ↔
      ∃ x ∈ plannedRules plan, r = wire x := by
    intro r
    simp only [planRules, plannedRules, List.mem_map, exists_exists_and_eq_and]
    rfl
  exact forall_congr' fun r => iff_congr Iff.rfl (hrecords r)

theorem confirmApplied_installs :
    Leaves (Holds ((planRules plan).rules.map EncodedRule.record)) (confirmApplied (planRules plan))
      (PhaseInstalls plan) fun _ _ => True := by
  have hlist : Leaves (Holds ((planRules plan).rules.map EncodedRule.record)) (Prog.attempt Op.list)
      (fun _ => Holds ((planRules plan).rules.map EncodedRule.record)) fun _ _ => True :=
    Sat.attempt_keeps read_leaves
  refine Sat.bind hlist fun r => ?_
  cases r with
  | ok listed =>
    show Sat _ _ _ (if missingRules (planRules plan).rules listed = [] then _ else _) _ _
    split
    · refine Sat.pure fun s hs stats hh => ?_
      cases hh
      exact ⟨plannedRules plan, .all, holds_planned.mp hs⟩
    · exact Sat.pure fun _ _ => .panicked
  | error err => exact Sat.pure fun _ _ => .panicked

/-- The phase installs all rules of the plan or none. -/
theorem applyVfsPhase_installs (hkeys : ((plannedRules plan).map SavedRule.key).Nodup) :
    Leaves (fun m => m.rules.rules = []) (applyVfsPhase config plan nomount entry) (PhaseInstalls plan)
      fun _ _ => True := by
  have hbatch : (((planRules plan).rules.map EncodedRule.record).map SavedRule.key).Nodup := by
    have hsame : ((planRules plan).rules.map EncodedRule.record).map SavedRule.key =
        (plannedRules plan).map SavedRule.key := by
      simp only [planRules, plannedRules, List.map_map]
      rfl
    rw [hsame]
    exact hkeys
  have hpreflight : Leaves (fun m => m.rules.rules = [])
      (Prog.attempt (if nomount then preflightNomount entry.format (planRules plan).rules else pure ()))
      (fun _ m => m.rules.rules = []) fun _ _ => True := by
    refine Sat.attempt_keeps ?_
    split
    · refine Sat.bind (Q := fun _ s => s.machine.rules.rules = [])
        (Sat.ofExcept (fun _ _ _ hs => hs) fun _ _ _ hs => hs) fun _ => ?_
      refine Sat.bind (read_leaves (P := fun m => m.rules.rules = [])) fun existing => ?_
      split
      · exact Sat.fail fun _ hs => hs
      · exact Sat.pure fun _ hs => hs
    · exact Sat.pure fun _ hs => hs
  unfold applyVfsPhase
  split
  · refine Sat.pure fun s hs stats hh => ?_
    cases hh
    exact ⟨[], .nothing _ rfl rfl, holds_nil.mpr hs⟩
  · split
    · exact Sat.pure fun _ hs => .failure hs
    · exact Sat.pure fun _ _ => .failed
    · exact Sat.pure fun _ hs => .degraded hs
    · refine Sat.bind hpreflight fun r => ?_
      cases r with
      | error err => exact Sat.pure fun _ hs => .degraded hs
      | ok _ =>
        have hpolicy : Leaves (fun m => m.rules.rules = [])
            (Prog.attempt (applyRulesWithPolicy (planRules plan).rules config.isolateUids config.vfsStrict))
            (fun r m => (r = .ok none → Holds ((planRules plan).rules.map EncodedRule.record) m) ∧
              ∀ failure, r = .ok (some failure) → m.rules.rules = []) fun _ _ => True := by
          refine Sat.attempt ((applyRulesWithPolicy_holds hbatch).weaken ?_ ?_)
          · intro r s hs
            exact ⟨fun hh => hs.1 (by cases hh; rfl), fun failure hh => hs.2 (by cases hh; simp)⟩
          · exact fun _ _ _ => ⟨fun hh => (by cases hh), fun _ hh => by cases hh⟩
        refine Sat.bind hpolicy fun r => ?_
        rcases r with err | _ | failure
        · exact Sat.pure fun _ _ => .failed
        · exact confirmApplied_installs.strengthen fun s hs => hs.1 rfl
        · exact Sat.pure fun s hs => .failure (hs.2 failure rfl)

section Commit

variable {host : Host} {session : BootSession} {outcome : Outcome} {stats : VfsExecStats}
  {rules : List SavedRule} {saved l : Ledger}
  {active : Probe} {m₁ : Machine FlatTable}

theorem query_leaves {α : Type} {operation : Operation} {read : Machine FlatTable → α} :
    Leaves (· = m₁) (Op.query operation read) (fun a m => m = m₁ ∧ a = read m₁) fun _ _ => True := by
  refine Ensures.query (fun _ _ _ _ => trivial) ?_ fun _ _ _ _ => trivial
  rintro m rfl
  exact ⟨rfl, rfl⟩

theorem check_leaves {α : Type} {x : Except Error α} :
    Leaves (· = m₁) (Prog.ofExcept x) (fun a m => m = m₁ ∧ x = .ok a) fun _ _ => True :=
  Sat.ofExcept (fun _ _ hx hs => ⟨hs, hx⟩) fun _ _ _ _ => trivial

theorem load_leaves : Leaves (· = m₁) (Device.load host) (fun saved m => m = m₁ ∧ saved = m₁.effective host)
      fun _ _ => True := by
  refine Sat.bind query_leaves fun stored => Sat.ofExcept ?_ fun _ _ _ _ => trivial
  rintro saved s hl ⟨hs, rfl⟩
  exact ⟨hs, ledgerForBoot_effective hl⟩

theorem snapshot_leaves : Leaves (· = m₁) Mounts.snapshot (fun _ m => m = m₁) fun _ _ => True := by
  have hh : Leaves (· = m₁) Mounts.snapshot (fun _ m => m = m₁) fun _ m => m = m₁ :=
    Mounts.snapshot_invariant fun _ _ _ => trivial
  exact hh.weaken (fun _ _ hs => hs) fun _ _ _ => trivial

theorem persist_leaves : Leaves (· = m₁) (Op.persist l) (fun _ m => m = m₁.withStored l) fun _ _ => True :=
  (Ensures.persist l fun _ _ _ _ _ _ => trivial).weaken (fun _ _ hs => hs) fun _ _ _ => trivial

theorem encoded_nil (h : (planRules plan).stats.activeTargets = []) : plannedRules plan = [] := by
  simpa [planRules, plannedRules] using h

/-- The commit adopts what the phase has installed. -/
theorem adopts (hinstalls : Installs plan stats rules) (hlive : Holds rules m₁)
    (hpending : saved.pendingRules = plannedRules plan)
    (hrules : saved.rules = []) (hactive : outcome.state.vfsActiveMounts = stats.activeTargets) :
    Leaves (· = m₁) (confirmVfs active session outcome.state (forgetRejected saved outcome.state))
      (fun out m => m = m₁ ∧ out.1.bootId = saved.bootId ∧ out.1.rules = rules) fun _ _ => True := by
  have hforget : (forgetRejected saved outcome.state).bootId = saved.bootId ∧
      (forgetRejected saved outcome.state).rules = [] ∧
      ((forgetRejected saved outcome.state).pendingRules = plannedRules plan ∨
        (forgetRejected saved outcome.state).pendingRules = [] ∧ stats.activeTargets = []) := by
    unfold forgetRejected
    split
    · rename_i hreject
      exact ⟨rfl, hrules, .inr ⟨rfl, hactive ▸ hreject.2⟩⟩
    · exact ⟨rfl, hrules, .inl hpending⟩
  obtain ⟨hid, hnone, hkept⟩ := hforget
  -- What is pending is either all that is live, or nothing was planned or installed.
  have hfilter : (forgetRejected saved outcome.state).pendingRules.filter (fun expected =>
      m₁.rules.rules.any (semanticEqual expected)) = rules := by
    cases hinstalls with
    | all =>
      have hall : (forgetRejected saved outcome.state).pendingRules = plannedRules plan := by
        rcases hkept with h | ⟨h, htargets⟩
        · exact h
        · rw [h, encoded_nil htargets]
      rw [hall, List.filter_eq_self]
      intro x hx
      exact List.any_eq_true.mpr ⟨wire x, (hlive _).mpr ⟨x, hx, rfl⟩, semanticEqual_wire x⟩
    | nothing _ _ _ =>
      rw [holds_nil.mp hlive]
      simp
  unfold confirmVfs
  split
  · refine Sat.bind (check_leaves.weaken (fun _ _ hs => hs.1) fun _ _ hs => hs) fun _ => ?_
    refine Sat.bind query_leaves fun current => Sat.given ?_
    rintro rfl
    refine Sat.bind (query_leaves.weaken (fun _ _ hs => hs.1) fun _ _ hs => hs) fun observed => ?_
    exact Sat.pure fun s hs => ⟨hs, hid, hfilter⟩
  · rename_i hno
    refine Sat.pure fun s hs => ⟨hs, hid, ?_⟩
    push Not at hno
    rw [hno.1] at hfilter
    rw [hnone, ← hfilter]
    rfl

theorem finish_commits (hinstalls : Installs plan stats rules) (hlive : Holds rules m₁)
    (hpending : (m₁.effective host).pendingRules = plannedRules plan)
    (hrules : (m₁.effective host).rules = [])
    (hactive : outcome.state.vfsActiveMounts = stats.activeTargets) :
    Leaves (· = m₁) (finish host session outcome)
      (fun _ m => Holds rules m ∧ (m.effective host).rules = rules) fun _ _ => True := by
  refine Sat.bind load_leaves fun saved => Sat.given ?_
  rintro rfl
  refine Sat.bind snapshot_leaves fun current => ?_
  refine Sat.bind (check_leaves.weaken (fun _ _ hs => hs.1) fun _ _ hs => hs) fun mounts => ?_
  refine Sat.bind (adopts hinstalls hlive (by exact hpending) (by exact hrules) hactive) fun out => ?_
  obtain ⟨l, verification⟩ := out
  refine Sat.given ?_
  rintro ⟨hid, hadopted⟩
  refine Sat.bind (check_leaves.weaken (fun _ _ hs => hs.1) fun _ _ hs => hs) fun modules => ?_
  have hboot : (finished l modules verification outcome.successful).bootId = host.bootId := by
    rw [← @effective_bootId host FlatTable m₁]
    exact hid
  refine Sat.bind persist_leaves fun _ => Sat.ofExcept (fun _ s _ hs => ?_) fun _ _ _ _ => trivial
  rw [hs]
  refine ⟨hlive, ?_⟩
  rw [effective_withStored hboot]
  exact hadopted

theorem stagePlan_leaves {requested : List UInt32} : Leaves (· = m₁) (stagePlan host plan requested nomount)
    (fun _ m => m.rules = m₁.rules) fun _ _ => True := by
  refine Sat.bind (load_leaves.weaken (fun _ _ hs => hs.1) fun _ _ hs => hs) fun saved => ?_
  refine persist_leaves.weaken (fun _ s hs => ?_) fun _ _ _ => trivial
  rw [hs]
  rfl

/-- From an empty table, all rules of the plan are live and owned, or none. -/
theorem complete_loads (hkeys : ((plannedRules plan).map SavedRule.key).Nodup) (hempty : m.rules.rules = []) :
    Leaves (· = m) (complete host active plan config nomount entry outcome)
      (fun stats m' => ∃ rules, Installs plan stats rules ∧ Holds rules m' ∧
        (m'.effective host).rules = rules) fun _ _ => True := by
  let base : Baseline := ⟨[], m.uids⟩
  have hidle : base.Idle m := ⟨fun r hr => absurd hr (by simp [hempty]), List.Subset.refl _⟩
  have hstart : Leaves (· = m) (start host active)
      (fun session m' => base.Booting host session m' ∧ base.Idle m') fun _ _ => True :=
    ((Baseline.start_sound active).guarantee fun _ _ => trivial).consequence
      (fun s hs => hs ▸ hidle.safe host) (fun _ _ hs => hs)
      fun _ _ _ => trivial
  refine Sat.bind hstart fun session => ?_
  have hstage : Leaves (fun m' => base.Booting host session m' ∧ base.Idle m')
      (stagePlan host plan config.isolateUids nomount)
      (fun _ m' => base.Planned host session plan config m' ∧ m'.rules.rules = []) fun _ _ => True := by
    refine Ensures.of_eq fun m₁ hm₁ => ?_
    have hstaged : Leaves (· = m₁) (stagePlan host plan config.isolateUids nomount)
        (fun _ m' => base.Planned host session plan config m') fun _ _ => True :=
      ((Baseline.stagePlan_sound hm₁.1 hm₁.2 nomount).guarantee fun _ _ => trivial).weaken (fun _ _ hs => hs)
        fun _ _ _ => trivial
    refine (Sat.both hstaged stagePlan_leaves).consequence (fun s hs => ⟨hs, hs⟩) (fun _ s hs => ⟨hs.1, ?_⟩)
      fun _ _ _ => trivial
    rw [hs.2]
    exact List.subset_nil.mp hm₁.2.rules
  refine Sat.bind hstage fun _ => ?_
  have hphase : Leaves (fun m' => base.Planned host session plan config m' ∧ m'.rules.rules = [])
      (applyVfsPhase config plan nomount entry)
      (fun out m' => base.Planned host session plan config m' ∧ PhaseInstalls plan out m')
        fun _ _ => True := by
    have hplanned : Leaves (base.Planned host session plan config) (applyVfsPhase config plan nomount entry)
        (fun _ => base.Planned host session plan config) fun _ _ => True :=
      ((Baseline.applyVfsPhase_planned nomount entry).guarantee fun _ _ => trivial).weaken (fun _ _ hs => hs)
        fun _ _ _ => trivial
    exact (Sat.both hplanned (applyVfsPhase_installs hkeys)).weaken (fun _ _ hs => hs) fun _ _ _ => trivial
  refine Sat.bind hphase fun out => ?_
  obtain ⟨registered, result⟩ := out
  refine Sat.bind (Q := fun stats s => base.Planned host session plan config s.machine ∧
    ∃ rules, Installs plan stats rules ∧ Holds rules s.machine) ?_ fun stats => ?_
  · exact Sat.ofExcept (fun stats _ hx hs => ⟨hs.1, hs.2 stats hx⟩) fun _ _ _ _ => trivial
  have hfinish : Leaves (fun m' => base.Planned host session plan config m' ∧
      ∃ rules, Installs plan stats rules ∧ Holds rules m')
      (finish host session { outcome with
        successful := true
        state := { outcome.state with vfsActiveMounts := stats.activeTargets } })
      (fun _ m' => ∃ rules, Installs plan stats rules ∧ Holds rules m' ∧ (m'.effective host).rules = rules)
        fun _ _ => True := by
    refine Ensures.of_eq fun m₁ hm₁ => ?_
    obtain ⟨hplanned, rules, hinstalls, hlive⟩ := hm₁
    refine (finish_commits hinstalls hlive hplanned.pending hplanned.unruled rfl).weaken (fun _ _ hs => ?_)
      fun _ _ hs => hs
    exact ⟨rules, hinstalls, hs⟩
  exact Sat.bind hfinish fun _ => Sat.pure fun _ hs => hs

end Commit

end Boot

end HybridMount
