import HybridMount.Ownership
import HybridMount.CleanupOwnership

/-! The boot sequence names every rule and uid before it adds them, and the final
commit keeps what the kernel still lists. -/

namespace HybridMount

open Traced

namespace Boot

/-- The commit of a boot drops its records without looking at the kernel: a
NoMount batch that advertises nothing, or nothing pending and no provider. -/
def Forgets (host : Host) (outcome : Outcome) (m : Machine FlatTable) : Prop :=
  ((m.effective host).vfsProvider = some VfsProvider.nomount.asStr ∧ outcome.state.vfsActiveMounts = []) ∨
    ((m.effective host).pendingRules = [] ∧ Device.available outcome.active = false)

end Boot

theorem requireClean_eq_ok {saved : Ledger} (h : saved.requireClean = .ok ()) :
    saved.phase = .clean ∧ saved.rules = [] := by
  unfold Ledger.requireClean at h
  split at h
  · cases h
  · rename_i hno
    push Not at hno
    exact ⟨hno.1, hno.2.2.1⟩

theorem planned_named {plan : MountPlan} {x : SavedRule}
    (hx : x ∈ (planRules plan).rules.map EncodedRule.record) :
    ∃ y ∈ plannedRules plan, semanticEqual y (wire x) = true := by
  obtain ⟨encoded, hencoded, rfl⟩ := List.mem_map.mp hx
  obtain ⟨rule, hrule, rfl⟩ := List.mem_map.mp hencoded
  exact ⟨savedRule rule, List.mem_map_of_mem hrule, semanticEqual_refl _⟩

namespace Baseline

variable {base : Baseline} {host : Host} {G : Event FlatTable → Prop} {session : BootSession}
  {saved : Ledger} {m m' m₁ : Machine FlatTable} {plan : MountPlan} {requested : List UInt32}

/-- A boot is under way, and the uids it found are not its own. -/
structure Booting (base : Baseline) (host : Host) (session : BootSession) (m : Machine FlatTable) : Prop where
  safe : base.Safe host m
  phase : (m.effective host).phase = .applying
  unruled : (m.effective host).rules = []
  original : session.originalUids ⊆ base.uids

/-- The plan is on file. -/
structure Staged (base : Baseline) (host : Host) (session : BootSession) (plan : MountPlan)
    (requested : List UInt32) (m : Machine FlatTable) : Prop extends base.Booting host session m where
  pending : (m.effective host).pendingRules = plannedRules plan
  isolated : (m.effective host).isolatedUids = requested

theorem start_sound (active : Probe) :
    Ensures G (base.Sound host) (base.Safe host) (Boot.start host active)
      (fun session m => base.Booting host session m ∧ base.Idle m) (fun _ => base.Safe host) := by
  refine Ensures.of_eq fun m₁ hm₁ => ?_
  have hkeep : ∀ (_ : Error) (s : Session FlatTable), s.machine = m₁ → base.Safe host s.machine :=
    fun _ _ hs => hs ▸ hm₁
  refine Sat.bind ((load_sound hm₁).weaken (fun _ _ hq => hq) hkeep) fun saved => ?_
  refine Sat.given ?_
  rintro ⟨hsaved, -⟩
  refine Sat.bind (check_sound.weaken (fun _ _ hq => hq) hkeep) fun _ => ?_
  refine Sat.given fun hclean => ?_
  obtain ⟨hphase, hrules⟩ := requireClean_eq_ok hclean
  have hidle : base.Idle m₁ := by
    have hb : base.Backed saved m₁ := hsaved ▸ hm₁
    exact hb.clean hphase
  refine Sat.bind ((read_sound hm₁).weaken (fun _ _ hs => hs.1) hkeep) fun baseline => ?_
  refine Sat.bind ((reportUntracked_sound hm₁).weaken (fun _ _ hs => hs) hkeep) fun uids => ?_
  refine Sat.given fun huids => ?_
  let opened : Ledger := { saved with generation := saved.generation + 1, phase := .applying, error := none }
  have hboot : opened.bootId = host.bootId := by
    have hh : (m₁.effective host).bootId = host.bootId := effective_bootId m₁
    rwa [← hsaved] at hh
  have hsafe : base.Safe host (m₁.withStored opened) := (hidle.backed opened).safe_withStored hboot
  refine Sat.bind ((persist_sound (l := opened) hm₁ hboot (hidle.backed _)).weaken (fun _ _ hs => hs) ?_)
    fun _ => Sat.pure fun s hs => ?_
  · rintro _ s (hs | hs)
    · exact hs ▸ hm₁
    · rw [hs]
      exact hsafe
  · have heff := effective_withStored (m := m₁) hboot
    rw [hs]
    refine ⟨⟨hsafe, ?_, ?_, List.Subset.trans huids hidle.uids⟩, hidle.rules, hidle.uids⟩
    · rw [heff]
    · rw [heff]
      exact hrules

/-- A failed save leaves the earlier record or the new one, and nothing is live yet. -/
theorem stagePlan_sound (h : base.Booting host session m₁) (hidle : base.Idle m₁) (nomount : Bool) :
    Ensures G (base.Sound host) (· = m₁) (Boot.stagePlan host plan requested nomount)
      (fun _ m => base.Staged host session plan requested m) (fun _ m => base.Booting host session m) := by
  refine Sat.bind ((load_sound h.safe).weaken (fun _ _ hq => hq) fun _ _ hs => hs ▸ h) fun saved => ?_
  refine Sat.given ?_
  rintro ⟨hsaved, -⟩
  have hboot : (Boot.stagedLedger saved plan requested nomount).bootId = host.bootId := by
    have hh : (m₁.effective host).bootId = host.bootId := effective_bootId m₁
    rwa [← hsaved] at hh
  have heff := effective_withStored (m := m₁) hboot
  have hstaged : base.Staged host session plan requested
      (m₁.withStored (Boot.stagedLedger saved plan requested nomount)) := by
    refine ⟨⟨(hidle.backed _).safe_withStored hboot, ?_, ?_, h.original⟩, ?_, ?_⟩
    · rw [heff]
      exact hsaved ▸ h.phase
    · rw [heff]
      exact hsaved ▸ h.unruled
    · rw [heff]
      rfl
    · rw [heff]
      rfl
  refine (persist_sound h.safe hboot (hidle.backed _)).weaken (fun _ s hs => ?_) ?_
  · rw [hs]
    exact hstaged
  · rintro _ s (hs | hs)
    · exact hs ▸ h
    · rw [hs]
      exact hstaged.toBooting

/-- The VFS phase adds planned rules and requested uids only. -/
theorem Staged.grow (h : base.Staged host session plan requested m) (hs : m'.stored = m.stored)
    (hr : ∀ r ∈ m'.rules.rules, r ∈ m.rules.rules ∨ ∃ x ∈ plannedRules plan, semanticEqual x r = true)
    (hu : ∀ uid ∈ m'.uids, uid ∈ m.uids ∨ uid ∈ requested) : base.Staged host session plan requested m' := by
  have he : m'.effective host = m.effective host := by
    rw [Machine.effective, hs]
    rfl
  have hphase := h.phase
  refine ⟨⟨?_, he ▸ hphase, he ▸ h.unruled, h.original⟩, he ▸ h.pending, he ▸ h.isolated⟩
  rw [Safe, he]
  refine ⟨⟨fun r hr' hno => ?_, fun uid huid hno => ?_, fun hc => ?_⟩, fun ha => absurd hphase ha⟩
  · rcases hr r hr' with h0 | ⟨x, hx, hsem⟩
    · exact h.safe.rules r h0 hno
    · rw [← h.pending] at hx
      exact ⟨x, List.mem_append_right _ hx, hsem⟩
  · rcases hu uid huid with h0 | hreq
    · exact h.safe.uids uid h0 hno
    · rw [h.isolated]
      exact hreq
  · rw [hphase] at hc
    cases hc

theorem Staged.sound {action : Action} (h : base.Staged host session plan requested m)
    (h' : base.Staged host session plan requested m') : base.Sound host ⟨action, false, m, m'⟩ :=
  ⟨h.safe, h'.safe⟩

section

variable {P : Machine FlatTable → Prop} {rules : List SavedRule}

/-- Deleting keeps whatever shrinking the rule table keeps. -/
theorem delete_keeps (hP : ∀ m t, P m → t.rules ⊆ m.rules.rules → P (m.withRules t))
    (hT : ∀ action x y, P x → P y → base.Sound host ⟨action, false, x, y⟩) :
    Ensures G (base.Sound host) P (Op.delete rules) (fun _ => P) (fun _ => P) := by
  have hone : ∀ (x : SavedRule) (_ : List SavedRule), Ensures G (base.Sound host) P
      (Op.record (.delete [x]) (RuleTable.delete x)) (fun _ => P) (fun _ => P) := by
    intro x _
    refine Ensures.record ?_ ?_
    · intro m t hm ht _
      cases ht
      have hm' := hP m (m.rules.delete x) hm fun r hr => (FlatTable.mem_delete.mp hr).1
      exact ⟨hT _ _ _ hm hm', hm'⟩
    · intro m e hm he
      cases he
  exact Ensures.batch (I := fun _ => P) (fun action _ m _ _ hm => hT action m m hm hm) hone
    fun _ _ _ _ hm _ => hm

end

theorem removeRules_booting (rules : List EncodedRule) (h : base.Booting host session m₁) :
    Ensures G (base.Sound host) (· = m₁) (Boot.removeRules rules) (fun _ m => base.Booting host session m)
      (fun _ m => base.Booting host session m) := by
  have hdelete : Ensures G (base.Sound host) (fun m => base.Booting host session m)
      (Op.delete (rules.map EncodedRule.record)) (fun _ m => base.Booting host session m)
      (fun _ m => base.Booting host session m) := by
    refine delete_keeps (fun m t hm ht => ?_) fun _ _ _ hx hy => ⟨hx.safe, hy.safe⟩
    refine ⟨?_, hm.phase, hm.unruled, hm.original⟩
    exact hm.safe.shrink (by rw [hm.phase]; exact Phase.noConfusion) (fun r hr => .inl (ht hr))
      (List.Subset.refl _)
  unfold Boot.removeRules
  split
  · exact Sat.pure fun s hs => hs ▸ h
  · exact hdelete.strengthen fun s hs => hs ▸ h

section

variable {config : Boot.Config} {α : Type}

/-- The machines in which the plan of this boot is on file. -/
def Planned (base : Baseline) (host : Host) (session : BootSession) (plan : MountPlan)
    (config : Boot.Config) :
    Machine FlatTable → Prop := base.Staged host session plan config.isolateUids

theorem read_planned {operation : Operation} {read : Machine FlatTable → α} :
    Ensures G (base.Sound host) (base.Planned host session plan config) (Op.query operation read)
      (fun _ => base.Planned host session plan config) (fun _ => base.Planned host session plan config) :=
  (Ensures.read fun _ _ hm => Staged.sound hm hm).weaken (fun _ _ hs => hs.1) fun _ _ hs => hs

theorem put_planned :
    Ensures G (base.Sound host) (base.Planned host session plan config)
      (Op.put ((planRules plan).rules.map EncodedRule.record))
      (fun _ => base.Planned host session plan config)
      (fun _ => base.Planned host session plan config) := by
  let records := (planRules plan).rules.map EncodedRule.record
  let I := fun (rest : List SavedRule) m => rest ⊆ records ∧ base.Planned host session plan config m
  have hone : ∀ x rest, Ensures G (base.Sound host) (I (x :: rest)) (Op.record (.put [x]) (RuleTable.put x))
      (fun _ => I rest) (fun _ => base.Planned host session plan config) := by
    intro x rest
    refine Ensures.record ?_ ?_
    · rintro m t ⟨hsub, hm⟩ ht -
      cases ht
      have hm' : base.Planned host session plan config (m.withRules (m.rules.put x)) := by
        refine hm.grow rfl (fun r hr => ?_) fun _ hu => .inl hu
        rcases FlatTable.mem_put.mp hr with rfl | ⟨hr, -⟩
        · exact .inr (planned_named (hsub List.mem_cons_self))
        · exact .inl hr
      exact ⟨Staged.sound hm hm', fun y hy => hsub (List.mem_cons_of_mem _ hy), hm'⟩
    · intro m e hm he
      cases he
  have hb : Ensures G (base.Sound host) (I records) (Op.put records) (fun _ => I [])
      (fun _ => base.Planned host session plan config) :=
    Ensures.batch (fun _ _ _ _ _ hm => Staged.sound hm.2 hm.2) hone fun _ _ _ _ hm _ => hm.2
  exact hb.consequence (fun s hs => ⟨List.Subset.refl _, hs⟩) (fun _ _ hs => hs.2) fun _ _ hs => hs

theorem addUids_planned {uids : List UInt32} (huids : uids ⊆ config.isolateUids) :
    Ensures G (base.Sound host) (base.Planned host session plan config) (Op.addUids uids)
      (fun _ => base.Planned host session plan config) (fun _ => base.Planned host session plan config) := by
  refine Ensures.of_eq fun m hm => ?_
  have hpart : ∀ xs : List UInt32, xs ⊆ uids →
      base.Planned host session plan config (m.withUids (xs.foldl addUid m.uids)) := by
    intro xs hxs
    refine hm.grow rfl (fun r hr => .inl hr) fun u hu => ?_
    rcases mem_foldl_addUid.mp hu with h0 | hx
    · exact .inl h0
    · exact .inr (huids (hxs hx))
  refine (Ensures.addUids uids fun _ xs ys _ _ hxs hys => Staged.sound (hpart xs hxs) (hpart ys hys)).weaken ?_ ?_
  · intro _ s hs
    rw [hs]
    exact hpart uids (List.Subset.refl _)
  · rintro _ s ⟨xs, hxs, hs⟩
    rw [hs]
    exact hpart xs hxs

theorem removeRules_planned (rules : List EncodedRule) :
    Ensures G (base.Sound host) (base.Planned host session plan config) (Boot.removeRules rules)
      (fun _ => base.Planned host session plan config) (fun _ => base.Planned host session plan config) := by
  unfold Boot.removeRules
  split
  · exact Sat.pure fun _ hs => hs
  · exact delete_keeps (fun _ _ hm ht => hm.grow rfl (fun _ hr => .inl (ht hr)) fun _ hu => .inl hu)
      fun _ _ _ hx hy => Staged.sound hx hy

theorem applyRules_planned :
    Ensures G (base.Sound host) (base.Planned host session plan config)
      (Boot.applyRules (planRules plan).rules config.isolateUids)
      (fun _ => base.Planned host session plan config) (fun _ => base.Planned host session plan config) := by
  have hput : Ensures G (base.Sound host) (base.Planned host session plan config)
      (Boot.sendRules (planRules plan).rules) (fun _ => base.Planned host session plan config)
      (fun _ => base.Planned host session plan config) := by
    unfold Boot.sendRules
    split
    · exact Sat.pure fun _ hs => hs
    · exact put_planned
  refine Sat.bind hput fun _ => ?_
  split
  · exact addUids_planned fun u hu => mem_dedupeUids.mp hu
  · exact Sat.pure fun _ hs => hs

theorem preflightNomount_planned (format : RuleFormat) (batch : List EncodedRule) :
    Ensures G (base.Sound host) (base.Planned host session plan config) (Boot.preflightNomount format batch)
      (fun _ => base.Planned host session plan config) (fun _ => base.Planned host session plan config) := by
  refine Sat.bind (Q := fun _ s => base.Planned host session plan config s.machine)
    (Sat.ofExcept (fun _ _ _ hs => hs) fun _ _ _ hs => hs) fun _ => Sat.bind read_planned fun existing => ?_
  split
  · exact Sat.fail fun _ hs => hs
  · exact Sat.pure fun _ hs => hs

theorem applyRulesWithPolicy_planned :
    Ensures G (base.Sound host) (base.Planned host session plan config)
      (Boot.applyRulesWithPolicy (planRules plan).rules config.isolateUids config.vfsStrict)
      (fun _ => base.Planned host session plan config) (fun _ => base.Planned host session plan config) := by
  refine Sat.bind (Sat.attempt_keeps applyRules_planned) fun r => ?_
  cases r with
  | ok _ => exact Sat.pure fun _ hs => hs
  | error err =>
    refine Sat.bind (Sat.attempt_keeps (removeRules_planned _)) fun r => ?_
    cases r with
    | error cleanup => exact Sat.fail fun _ hs => hs
    | ok _ =>
      show Sat _ _ _ (if config.vfsStrict then _ else _) _ _
      split
      · exact Sat.fail fun _ hs => hs
      · exact Sat.pure fun _ hs => hs

theorem confirmApplied_planned (batch : VfsApplied) :
    Ensures G (base.Sound host) (base.Planned host session plan config) (Boot.confirmApplied batch)
      (fun _ => base.Planned host session plan config) (fun _ => base.Planned host session plan config) := by
  refine Sat.bind (Sat.attempt_keeps read_planned) fun r => ?_
  cases r with
  | ok listed =>
    show Sat _ _ _ (if missingRules batch.rules listed = [] then _ else _) _ _
    split
    · exact Sat.pure fun _ hs => hs
    · exact Sat.pure fun _ hs => hs
  | error err => exact Sat.pure fun _ hs => hs

/-- However the VFS phase ends, the staged plan names what it leaves. -/
theorem applyVfsPhase_planned (nomount : Bool) (entry : Boot.VfsEntry) :
    Ensures G (base.Sound host) (base.Planned host session plan config)
      (Boot.applyVfsPhase config plan nomount entry) (fun _ => base.Planned host session plan config)
      (fun _ => base.Planned host session plan config) := by
  have hpreflight : Ensures G (base.Sound host) (base.Planned host session plan config)
      (if nomount then Boot.preflightNomount entry.format (planRules plan).rules else pure ())
      (fun _ => base.Planned host session plan config) (fun _ => base.Planned host session plan config) := by
    split
    · exact preflightNomount_planned _ _
    · exact Sat.pure fun _ hs => hs
  unfold Boot.applyVfsPhase
  split
  · exact Sat.pure fun _ hs => hs
  · split
    · exact Sat.pure fun _ hs => hs
    · exact Sat.pure fun _ hs => hs
    · exact Sat.pure fun _ hs => hs
    · refine Sat.bind (Sat.attempt_keeps hpreflight) fun r => ?_
      cases r with
      | error err => exact Sat.pure fun _ hs => hs
      | ok _ =>
        refine Sat.bind (Sat.attempt_keeps applyRulesWithPolicy_planned) fun r => ?_
        rcases r with err | _ | failure
        · exact Sat.pure fun _ hs => hs
        · exact confirmApplied_planned _
        · exact Sat.pure fun _ hs => hs

end

/-- What a confirmed ledger says of the kernel it was confirmed against. -/
structure Confirmed (base : Baseline) (l : Ledger) (m : Machine FlatTable) : Prop where
  rules : ∀ r ∈ m.rules.rules, r ∉ base.rules → ∃ x ∈ l.rules, semanticEqual x r = true
  uids : ∀ uid ∈ m.uids, uid ∉ base.uids → uid ∈ l.isolatedUids

theorem Idle.confirmed (h : base.Idle m) (l : Ledger) : base.Confirmed l m where
  rules _ hr hno := absurd (h.rules hr) hno
  uids _ hu hno := absurd (h.uids hu) hno

theorem Confirmed.backed {l : Ledger} (h : base.Confirmed l m) (hr : saved.rules = l.rules)
    (hu : saved.isolatedUids = l.isolatedUids) (hphase : saved.phase ≠ .clean) : base.Backed saved m where
  rules r hlive hno := by
    obtain ⟨x, hx, hsem⟩ := h.rules r hlive hno
    exact ⟨x, List.mem_append_left _ (hr ▸ hx), hsem⟩
  uids uid hlive hno := hu ▸ h.uids uid hlive hno
  clean hc := absurd hc hphase
  settled _ _ r hlive hno := hr ▸ h.rules r hlive hno

theorem Booting.adopted (h : base.Booting host session m)
    (hr : saved.pendingRules = (m.effective host).pendingRules)
    (hu : saved.isolatedUids = (m.effective host).isolatedUids) :
    base.Confirmed (Boot.adopted saved session m.rules.rules m.uids) m where
  rules r hlive hno := by
    obtain ⟨x, hx, hsem⟩ := h.safe.rules r hlive hno
    rw [h.unruled, List.nil_append, ← hr] at hx
    exact ⟨x, List.mem_filter.mpr ⟨hx, List.any_eq_true.mpr ⟨r, hlive, hsem⟩⟩, hsem⟩
  uids uid hlive hno := by
    have hmem := h.safe.uids uid hlive hno
    rw [← hu] at hmem
    have horiginal : uid ∉ session.originalUids := fun hin => hno (h.original hin)
    simp [Boot.adopted, ownedUids, hlive, hmem, horiginal]

theorem confirmVfs_sound (h : base.Booting host session m₁) {outcome : Boot.Outcome}
    (hforget : Boot.Forgets host outcome m₁ → base.Idle m₁) (hboot : saved.bootId = host.bootId)
    (hv : saved.vfsProvider = (m₁.effective host).vfsProvider)
    (hr : saved.pendingRules = (m₁.effective host).pendingRules)
    (hu : saved.isolatedUids = (m₁.effective host).isolatedUids) :
    Ensures G (base.Sound host) (· = m₁)
      (Boot.confirmVfs outcome.active session outcome.state (Boot.forgetRejected saved outcome.state))
      (fun out m => m = m₁ ∧ out.1.bootId = host.bootId ∧ base.Confirmed out.1 m₁) (fun _ m => m = m₁) := by
  have hid : (Boot.forgetRejected saved outcome.state).bootId = host.bootId := by
    unfold Boot.forgetRejected
    split
    · exact hboot
    · exact hboot
  have hconfirmed : base.Confirmed
      (Boot.adopted (Boot.forgetRejected saved outcome.state) session m₁.rules.rules
      m₁.uids) m₁ := by
    unfold Boot.forgetRejected
    split
    · rename_i hreject
      rw [hv] at hreject
      exact (hforget (.inl hreject)).confirmed _
    · exact h.adopted hr hu
  unfold Boot.confirmVfs
  split
  · refine Sat.bind (check_sound.weaken (fun _ _ hs => hs.1) fun _ _ hs => hs) fun _ => ?_
    refine Sat.bind ((read_sound h.safe).weaken (fun _ _ hs => hs) fun _ _ hs => hs) fun current => ?_
    refine Sat.given ?_
    rintro rfl
    refine Sat.bind ((read_sound h.safe).weaken (fun _ _ hs => hs) fun _ _ hs => hs) fun observed => ?_
    refine Sat.given ?_
    rintro rfl
    exact Sat.pure fun s hs => ⟨hs, hid, hconfirmed⟩
  · rename_i hnone
    refine Sat.pure fun s hs => ⟨hs, hid, ?_⟩
    have hidle : base.Idle m₁ := by
      by_contra hno
      push Not at hnone
      obtain ⟨hpending, hactive⟩ := hnone
      refine hno (hforget ?_)
      by_cases hreject : saved.vfsProvider = some VfsProvider.nomount.asStr ∧
        outcome.state.vfsActiveMounts = []
      · exact .inl ⟨hv ▸ hreject.1, hreject.2⟩
      · rw [Boot.forgetRejected, if_neg hreject, hr] at hpending
        exact .inr ⟨hpending, by simpa using hactive⟩
    exact hidle.confirmed _

/-- The final commit accounts for the kernel, unless it forgets what is live. -/
theorem finish_sound (h : base.Booting host session m₁) {outcome : Boot.Outcome}
    (hforget : Boot.Forgets host outcome m₁ → base.Idle m₁) :
    Ensures G (base.Sound host) (· = m₁) (Boot.finish host session outcome) (fun _ => base.Safe host)
      (fun _ => base.Safe host) := by
  have hkeep : ∀ (_ : Error) (s : Session FlatTable), s.machine = m₁ → base.Safe host s.machine :=
    fun _ _ hs => hs ▸ h.safe
  refine Sat.bind ((load_sound h.safe).weaken (fun _ _ hq => hq) hkeep) fun saved => ?_
  refine Sat.given ?_
  rintro ⟨rfl, -⟩
  have hsnapshot : Ensures G (base.Sound host) (· = m₁) Mounts.snapshot (fun _ m => m = m₁)
      (fun _ m => m = m₁) := by
    refine Mounts.snapshot_invariant fun _ m hm => ?_
    rw [hm]
    exact ⟨h.safe, h.safe⟩
  refine Sat.bind (hsnapshot.weaken (fun _ _ hs => hs) hkeep) fun current => ?_
  refine Sat.bind (check_sound.weaken (fun _ _ hs => hs.1) hkeep) fun mounts => ?_
  let captured : Ledger := { m₁.effective host with mounts := mounts, ksuUnmounts := some outcome.unmounts }
  have hcaptured : captured.bootId = host.bootId := effective_bootId m₁
  refine Sat.bind ((@confirmVfs_sound base host G session captured m₁ h outcome hforget hcaptured rfl
    rfl rfl).weaken
    (fun _ _ hs => hs) hkeep) fun out => ?_
  obtain ⟨l, verification⟩ := out
  refine Sat.given ?_
  rintro ⟨hboot, hconfirmed⟩
  refine Sat.bind (check_sound.weaken (fun _ _ hs => hs.1) hkeep) fun modules => ?_
  let final := Boot.finished l modules verification outcome.successful
  have hphase : final.phase ≠ .clean := by
    have hp : final.phase = if outcome.successful && verification.toOption.isSome then .ready
      else .error := rfl
    rw [hp]
    split <;> exact Phase.noConfusion
  have hbacked : base.Backed final m₁ := hconfirmed.backed rfl rfl hphase
  have hsafe : base.Safe host (m₁.withStored final) := hbacked.safe_withStored hboot
  refine Sat.bind ((persist_sound (l := final) h.safe hboot hbacked).weaken (fun _ s hs => ?_) ?_)
    fun _ => Sat.ofExcept (fun _ _ _ hs => hs) fun _ _ _ hs => hs
  · rw [hs]
    exact hsafe
  · rintro _ s (hs | hs)
    · exact hs ▸ h.safe
    · rw [hs]
      exact hsafe

end Baseline

end HybridMount
