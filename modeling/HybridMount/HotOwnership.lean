import HybridMount.BootOwnership

/-! A hot operation keeps the ledger file in step with the kernel, whether it
commits, is rolled back or is left half way. -/

namespace HybridMount

open Traced

theorem savedRule_explicit (rule : VfsRule) : derivedParent (savedRule rule) = false := by
  obtain ⟨action, moduleId⟩ := rule
  have hflags : ∀ flags : UInt32, flags &&& FLAG_VIRTUAL_DIR = 0 →
      ∀ path, isDerivedParent flags path = false := by
    intro flags hf path
    simp [isDerivedParent, hf]
  cases action with
  | inject virtualPath realPath => exact hflags 0 (by decide) realPath
  | whiteout virtualPath => exact hflags FLAG_WHITEOUT (by decide) ""
  | opaqueDir virtualPath => exact hflags FLAG_OPAQUE (by decide) ""

theorem requireReady_eq_ok {saved : Ledger} (h : saved.requireReady = .ok ()) : saved.phase = .ready := by
  unfold Ledger.requireReady at h
  split at h
  · cases h
  · rename_i hno
    exact not_not.mp hno

namespace Baseline

variable {base : Baseline} {host : Host} {G : Event FlatTable → Prop} {c : Attempt}
  {m m₁ : Machine FlatTable} {foreign : List SavedRule}

/-- A hot operation on the rules of one module, from a ready ledger. -/
structure Ready (base : Baseline) (host : Host) (c : Attempt) (moduleId : String) : Prop where
  safe : base.Safe host c.start
  bootId : c.saved.bootId = host.bootId
  phase : c.saved.phase = .ready
  backed : base.Backed c.saved c.start
  before : c.before = Hot.ownedBy c.saved moduleId
  explicit : c.Explicit

variable {moduleId : String}

theorem Ready.owned (h : base.Ready host c moduleId) : c.before ⊆ c.saved.rules := by
  rw [h.before]
  exact List.filter_subset_self _

theorem Ready.named (h : base.Ready host c moduleId) {r : SavedRule} (hr : r ∈ c.start.rules.rules)
    (hno : r ∉ base.rules) : ∃ x ∈ c.saved.rules, semanticEqual x r = true :=
  h.backed.settled (by rw [h.phase]; exact Phase.noConfusion)
    (by rw [h.phase]; exact Phase.noConfusion) r hr hno

theorem Ready.isolated (h : base.Ready host c moduleId) (ha : c.Ambit m) {uid : UInt32} (hu : uid ∈ m.uids)
    (hno : uid ∉ base.uids) : uid ∈ sortedSet (c.saved.isolatedUids ++ c.introduced) := by
  rw [mem_sortedSet]
  rcases List.mem_append.mp (ha.upper hu) with h0 | hi
  · exact List.mem_append_left _ (h.backed.uids uid h0 hno)
  · exact List.mem_append_right _ hi

/-- The persisted intent names the old rules, the new ones and every uid. -/
theorem Ready.intent (h : base.Ready host c moduleId) (ha : c.Ambit m) {l : Ledger}
    (hr : l.rules = c.saved.rules) (hp : l.pendingRules = Transaction.desiredRules c.saved c.before c.after)
    (hu : l.isolatedUids = sortedSet (c.saved.isolatedUids ++ c.introduced))
    (hphase : l.phase = .applying ∨ l.phase = .error) : base.Backed l m where
  rules r hlive hno := by
    rw [hr, hp]
    rcases ha.within.origin r hlive with h0 | ⟨x, hx, rfl⟩
    · obtain ⟨x, hx, hsem⟩ := h.named h0 hno
      exact ⟨x, List.mem_append_left _ hx, hsem⟩
    · refine ⟨x, ?_, semanticEqual_wire x⟩
      rcases List.mem_append.mp hx with hb | haft
      · exact List.mem_append_left _ (h.owned hb)
      · exact List.mem_append_right _ (List.mem_append_right _ haft)
  uids uid hlive hno := by
    rw [hu]
    exact h.isolated ha hlive hno
  clean hc := by
    rcases hphase with hp' | hp'
    · rw [hp'] at hc
      cases hc
    · rw [hp'] at hc
      cases hc
  settled hna hne := by
    rcases hphase with hp' | hp'
    · exact absurd hp' hna
    · exact absurd hp' hne

/-- After a clean rollback the old records name everything again. -/
theorem Ready.recovered (h : base.Ready host c moduleId) (ha : c.Ambit m) (hun : c.Undone m) {r : SavedRule}
    (hr : r ∈ m.rules.rules) (hno : r ∉ base.rules) : ∃ x ∈ c.saved.rules, semanticEqual x r = true := by
  rcases ha.within.origin r hr with h0 | ⟨x, hx, rfl⟩
  · exact h.named h0 hno
  · rcases List.mem_append.mp hx with hb | haft
    · exact ⟨x, h.owned hb, semanticEqual_wire x⟩
    · by_cases hkey : ∃ b ∈ c.before, b.key = x.key
      · obtain ⟨b, hb, hk⟩ := hkey
        obtain ⟨r', hr', hsem⟩ := hun.rules.present b hb
        have hsame := FlatTable.eq_of_key hr' hr ((semanticEqual_key hsem).symm.trans hk)
        exact ⟨b, h.owned hb, hsame ▸ hsem⟩
      · have hder := hun.rules.introduced x haft (fun b hb hk => hkey ⟨b, hb, hk⟩) (wire x) hr rfl
        rw [derivedParent_wire, h.explicit x haft] at hder
        cases hder

theorem Ready.verdict (h : base.Ready host c moduleId) (ha : c.Ambit m) (hv : c.Verdict m) :
    base.Safe host m := by
  have hmarked : c.marked.bootId = host.bootId := h.bootId
  cases hv with
  | untouched hs hr hu => exact h.safe.congr hs hr hu
  | marked hs =>
    have he : m.effective host = c.marked := by simp only [Machine.effective, hs, hmarked, if_true]
    rw [Safe, he]
    exact h.intent ha rfl rfl rfl (.inl rfl)
  | failed err hs =>
    have he : m.effective host = Transaction.concluded c.saved c.marked err false := by
      have hb : (Transaction.concluded c.saved c.marked err false).bootId = host.bootId := h.bootId
      simp only [Machine.effective, hs, hb, if_true]
    rw [Safe, he]
    exact h.intent ha rfl rfl rfl (.inr rfl)
  | recovered err hs hun =>
    have he : m.effective host = Transaction.concluded c.saved c.marked err true := by
      have hb : (Transaction.concluded c.saved c.marked err true).bootId = host.bootId := h.bootId
      simp only [Machine.effective, hs, hb, if_true]
    rw [Safe, he]
    refine ⟨⟨fun r hr hno => ?_, fun uid hu hno => h.backed.uids uid (hun.upper hu) hno,
      fun hc => by cases hc⟩,
      fun _ _ r hr hno => h.recovered ha hun hr hno⟩
    obtain ⟨x, hx, hsem⟩ := h.recovered ha hun hr hno
    exact ⟨x, List.mem_append_left _ hx, hsem⟩

/-- The committed rules name everything that a successful operation leaves. -/
theorem Ready.confirmed (h : base.Ready host c moduleId) (ha : c.Applied m) (hacc : c.Accepted foreign) :
    base.Confirmed c.committed m where
  rules r hr hno := by
    rw [ha.rules] at hr
    rcases (Rules.mem_target hacc.snapshot).mp hr with ⟨a, haft, rfl⟩ | ⟨h0, hobs, hnew⟩
    · exact ⟨a, List.mem_append_right _ haft, semanticEqual_wire a⟩
    · obtain ⟨x, hx, hsem⟩ := h.named h0 hno
      refine ⟨x, List.mem_append_left _ (List.mem_filter.mpr ⟨hx, ?_⟩), hsem⟩
      by_contra hold
      simp only [Bool.not_eq_true', Bool.not_eq_false, List.any_eq_true, beq_iff_eq] at hold
      obtain ⟨old, hold, hid⟩ := hold
      have hxb : x ∈ c.before := by
        rw [h.before] at hold ⊢
        have holdid : old.moduleId = moduleId := by simpa using (List.mem_filter.mp hold).2
        exact List.mem_filter.mpr ⟨hx, by simpa using hid.symm.trans holdid⟩
      have hkey := semanticEqual_key hsem
      refine hobs x (mem_obsoleteRules.mpr ⟨hxb, fun a haft => ?_⟩) hkey.symm
      exact fun hk => hnew a haft (hkey.symm.trans hk)
  uids uid hu hno := h.isolated ha.working.ambit hu hno

theorem preflight_sound {before after : List SavedRule} (h : base.Safe host m₁) :
    Ensures G (base.Sound host) (· = m₁) (Rules.preflight before after)
      (fun _ m => m = m₁ ∧ ∃ foreign, validateSnapshot m₁.rules.rules before after = .ok foreign)
      (fun _ m => m = m₁) := by
  refine Sat.bind ((read_sound h).weaken (fun _ _ hs => hs) fun _ _ hs => hs) fun current => ?_
  refine Sat.given ?_
  rintro rfl
  refine Sat.bind check_sound fun foreign => Sat.pure fun _ hs => ?_
  exact ⟨hs.1, foreign, hs.2⟩

theorem reconcile_sound (h : base.Ready host c moduleId) (hacc : c.Accepted foreign) :
    Ensures G (base.Sound host) (· = c.start) (Transaction.reconcile c.saved c.before c.after c.requested)
      (fun saved m => (base.Safe host m ∧ base.Confirmed c.committed m) ∧ saved = c.committed)
      (fun _ => base.Safe host) := by
  refine ((Attempt.reconcile_guarded hacc).guarantee fun e he => ?_).weaken ?_ ?_
  · exact ⟨h.verdict he.pre he.preVerdict, h.verdict he.post he.postVerdict⟩
  · rintro saved s ⟨hs, ha⟩
    exact ⟨⟨h.verdict ha.working.ambit (.marked ha.working.stored), h.confirmed ha hacc⟩, hs⟩
  · exact fun _ _ he => h.verdict he.1 he.2

/-- Saving the committed ledger in a later phase keeps it true. -/
theorem commit_sound {saved l : Ledger} (hboot : l.bootId = host.bootId) (hr : l.rules = saved.rules)
    (hu : l.isolatedUids = saved.isolatedUids) (hphase : l.phase ≠ .clean) :
    Ensures G (base.Sound host) (fun m => base.Safe host m ∧ base.Confirmed saved m) (Op.persist l)
      (fun _ m => base.Safe host m ∧ base.Confirmed saved m) (fun _ => base.Safe host) := by
  refine Ensures.of_eq fun m hm => ?_
  have hbacked : base.Backed l m := hm.2.backed hr hu hphase
  have hsafe : base.Safe host (m.withStored l) := hbacked.safe_withStored hboot
  refine (persist_sound (l := l) hm.1 hboot hbacked).weaken (fun _ s hs => ?_) fun _ s hs => ?_
  · rw [hs]
    exact ⟨hsafe, hm.2.rules, hm.2.uids⟩
  · rcases hs with hs | hs
    · exact hs ▸ hm.1
    · rw [hs]
      exact hsafe

/-- A hot operation leaves the ledger file true at every point. -/
theorem apply_sound (active : Probe) (guard : Except Error Unit) (action : HotAction) (moduleId : String)
    (request : Except Error Hot.Request) :
    Ensures G (base.Sound host) (base.Safe host) (Hot.apply host active guard action moduleId request)
      (fun _ => base.Safe host) (fun _ => base.Safe host) := by
  refine Ensures.of_eq fun m₁ hm₁ => ?_
  have hkeep : ∀ (_ : Error) (s : Session FlatTable), s.machine = m₁ → base.Safe host s.machine :=
    fun _ _ hs => hs ▸ hm₁
  refine Sat.bind ((load_sound hm₁).weaken (fun _ _ hq => hq) hkeep) fun saved => ?_
  refine Sat.given ?_
  rintro ⟨rfl, -⟩
  refine Sat.bind (check_sound.weaken (fun _ _ hs => hs) hkeep) fun _ => ?_
  refine Sat.given fun hready => ?_
  refine Sat.bind (check_sound.weaken (fun _ _ hs => hs.1) hkeep) fun _ => ?_
  refine Sat.bind (check_sound.weaken (fun _ _ hs => hs.1) hkeep) fun _ => ?_
  refine Sat.bind (check_sound.weaken (fun _ _ hs => hs.1) hkeep) fun provider => ?_
  let saved : Ledger := { m₁.effective host with vfsProvider := some provider.asStr }
  have howned : Ensures G (base.Sound host) (· = m₁) (Rules.verifyOwned saved.rules) (fun _ m => m = m₁)
      (fun _ => base.Safe host) := by
    refine Sat.bind ((read_sound hm₁).weaken (fun _ _ hs => hs.1) hkeep) fun current => ?_
    exact check_sound.weaken (fun _ _ hs => hs.1) hkeep
  refine Sat.bind howned fun _ => ?_
  have hvalidate : Ensures G (base.Sound host) (· = m₁) (Mounts.validate saved.mounts) (fun _ m => m = m₁)
      (fun _ m => m = m₁) := by
    refine Mounts.validate_invariant fun _ m hm => ?_
    rw [hm]
    exact ⟨hm₁, hm₁⟩
  refine Sat.bind (hvalidate.weaken (fun _ _ hs => hs) hkeep) fun _ => ?_
  refine Sat.bind (check_sound.weaken (fun _ _ hs => hs.1) hkeep) fun _ => ?_
  refine Sat.bind (check_sound.weaken (fun _ _ hs => hs.1) hkeep) fun _ => ?_
  refine Sat.bind (check_sound.weaken (fun _ _ hs => hs.1) hkeep) fun wanted => ?_
  refine Sat.bind ((preflight_sound hm₁).weaken (fun _ _ hs => hs) hkeep) fun _ => ?_
  refine Sat.given ?_
  rintro ⟨foreign, hsnapshot⟩
  let c : Attempt := ⟨saved, Hot.ownedBy saved moduleId, plannedRules wanted.plan, wanted.isolateUids, m₁⟩
  have hphase : (m₁.effective host).phase = .ready := requireReady_eq_ok hready
  have hbacked : base.Backed saved m₁ :=
    Backed.of_settled hm₁ (by rw [hphase]; exact Phase.noConfusion)
      (by rw [hphase]; exact Phase.noConfusion) rfl rfl
      (by change (m₁.effective host).phase ≠ _; rw [hphase]; exact Phase.noConfusion)
  have hc : base.Ready host c moduleId := by
    refine ⟨hm₁, effective_bootId m₁, hphase, hbacked, rfl, fun a ha => ?_⟩
    obtain ⟨rule, -, rfl⟩ := List.mem_map.mp ha
    exact savedRule_explicit rule
  have hacc : c.Accepted foreign := ⟨hsnapshot, hc.owned⟩
  have hrec : Ensures G (base.Sound host) (· = m₁)
      (Transaction.reconcile saved (Hot.ownedBy saved moduleId) (plannedRules wanted.plan) wanted.isolateUids)
      (fun saved m => (base.Safe host m ∧ base.Confirmed c.committed m) ∧ saved = c.committed)
      (fun _ => base.Safe host) := reconcile_sound hc hacc
  refine Sat.bind hrec fun committed => ?_
  refine Sat.given ?_
  rintro rfl
  have hboot : (Hot.refreshed c.committed moduleId wanted.updatedModule).bootId = host.bootId := hc.bootId
  refine Sat.bind (@commit_sound base host G c.committed _ hboot rfl rfl Phase.noConfusion) fun _ => ?_
  have hrefresh : Ensures G (base.Sound host) (fun m => base.Safe host m ∧ base.Confirmed c.committed m)
      (Op.query .refresh fun _ => ()) (fun _ m => base.Safe host m ∧ base.Confirmed c.committed m)
      (fun _ => base.Safe host) :=
    Ensures.query (fun _ _ _ hm => ⟨hm.1, hm.1⟩) (fun _ hm => hm) fun _ _ hm _ => hm.1
  refine Sat.bind hrefresh fun _ => ?_
  refine Sat.bind (@commit_sound base host G c.committed _ hboot rfl rfl Phase.noConfusion) fun _ => ?_
  exact Sat.pure fun _ hs => hs.1

end Baseline

end HybridMount
