import HybridMount.Ownership

/-! The cleanup forgets a rule or a uid only once nothing of its kind is live. -/

namespace HybridMount

open Traced

theorem remainingRules_spec {current remaining : List SavedRule} {rules : List SavedRule}
    (h : remainingRules current rules = .ok remaining) :
    remaining ⊆ rules ∧ ∀ x ∈ rules, (∃ r ∈ current, r.key = x.key) → x ∈ remaining := by
  induction rules generalizing remaining with
  | nil =>
    cases h
    exact ⟨List.Subset.refl _, fun x hx => absurd hx List.not_mem_nil⟩
  | cons expected rest ih =>
    rw [remainingRules] at h
    cases hf : current.find? fun r => r.virtualPath == expected.virtualPath && r.uid == expected.uid with
    | none =>
      rw [hf] at h
      obtain ⟨hsub, hall⟩ := ih h
      refine ⟨List.subset_cons_of_subset _ hsub, fun x hx hlive => ?_⟩
      rcases List.mem_cons.mp hx with rfl | hx
      · obtain ⟨r, hr, hk⟩ := hlive
        have hno := List.find?_eq_none.mp hf r hr
        obtain ⟨hpath, huid⟩ := Prod.mk.inj hk
        simp [hpath, huid] at hno
      · exact hall x hx hlive
    | some actual =>
      simp only [hf] at h
      split at h
      · cases hrest : remainingRules current rest with
        | error e =>
          rw [hrest] at h
          cases h
        | ok more =>
          rw [hrest] at h
          cases h
          obtain ⟨hsub, hall⟩ := ih hrest
          refine ⟨List.cons_subset_cons _ hsub, fun x hx hlive => ?_⟩
          rcases List.mem_cons.mp hx with rfl | hx
          · exact List.mem_cons_self
          · exact List.mem_cons_of_mem _ (hall x hx hlive)
      · cases h

namespace Baseline

variable {base : Baseline} {host : Host} {G : Event FlatTable → Prop} {saved : Ledger}
  {m m₁ : Machine FlatTable} {active : Probe}

theorem Idle.safe (h : base.Idle m) (host : Host) : base.Safe host m := h.backed _

theorem idle_sound {action : Action} {x y : Machine FlatTable} (hx : base.Idle x) (hy : base.Idle y) :
    base.Sound host ⟨action, false, x, y⟩ := ⟨hx.safe host, hy.safe host⟩

theorem persist_idle (l : Ledger) :
    Ensures G (base.Sound host) base.Idle (Op.persist l) (fun _ => base.Idle) (fun _ => base.Idle) := by
  refine Ensures.of_eq fun m hm => ?_
  have hstate : ∀ x, x = m ∨ x = m.withStored l → base.Idle x := by
    rintro x (rfl | rfl)
    · exact hm
    · exact ⟨hm.rules, hm.uids⟩
  refine (Ensures.persist l fun action x y _ hx hy => idle_sound (hstate x hx) (hstate y hy)).weaken ?_ ?_
  · exact fun _ s hs => hstate _ (.inr hs)
  · exact fun _ s hs => hstate _ hs

theorem release_idle (paths : List String) :
    Ensures G (base.Sound host) base.Idle (Op.release paths) (fun _ => base.Idle) (fun _ => base.Idle) :=
  Ensures.batch (I := fun _ => base.Idle) (fun _ _ _ _ _ hm => idle_sound hm hm)
    (fun _ _ => Ensures.change fun _ hm _ => ⟨idle_sound hm ⟨hm.rules, hm.uids⟩, hm.rules, hm.uids⟩)
    fun _ _ _ _ hm _ => hm

theorem releaseMounts_idle (saved : Ledger) :
    Ensures G (base.Sound host) base.Idle (Boot.releaseMounts saved)
      (fun out m => base.Idle m ∧ out.1.bootId = saved.bootId) (fun _ _ => False) := by
  have hmounts : Ensures G (base.Sound host) base.Idle (Boot.releaseMountResources saved)
      (fun l m => base.Idle m ∧ l.bootId = saved.bootId) (fun _ => base.Idle) := by
    refine Sat.bind (Q := fun _ s => base.Idle s.machine)
      (Sat.ofExcept (fun _ _ _ hs => hs) fun _ _ _ hs => hs) fun registrations => ?_
    refine Sat.bind (Mounts.cleanup_invariant (fun _ _ hm => ⟨hm.rules, hm.uids⟩)
      fun _ _ _ hx hy => idle_sound hx hy) fun _ => Sat.bind (release_idle registrations) fun _ => ?_
    exact Sat.pure fun _ hs => ⟨hs, rfl⟩
  have htry : Ensures G (base.Sound host) base.Idle (Prog.attempt (Boot.releaseMountResources saved))
      (fun r m => base.Idle m ∧ ∀ l, r = .ok l → l.bootId = saved.bootId) (fun _ _ => False) := by
    refine Sat.attempt (hmounts.weaken ?_ ?_)
    · rintro l s ⟨hs, hl⟩
      exact ⟨hs, fun l' hh => by cases hh; exact hl⟩
    · exact fun _ _ hs => ⟨hs, fun _ hh => by cases hh⟩
  refine Sat.bind htry fun r => ?_
  cases r with
  | error e => exact Sat.pure fun _ hs => ⟨hs.1, rfl⟩
  | ok released =>
    refine Sat.given fun hl => ?_
    have hsave : Ensures G (base.Sound host) base.Idle
        (Prog.attempt (Op.persist released >>= fun _ => Op.query .unmark fun _ => ()))
        (fun _ => base.Idle) (fun _ _ => False) := by
      refine Sat.attempt (Sat.bind (persist_idle released) fun _ => ?_)
      exact (Ensures.read fun _ _ hm => idle_sound hm hm).weaken (fun _ _ hs => hs.1) fun _ _ hs => hs
    exact Sat.bind hsave fun result => Sat.pure fun _ hs => ⟨hs, hl released rfl⟩

/-- The ledger which the cleanup works from is on file and names what is live. -/
structure Marked (base : Baseline) (host : Host) (saved : Ledger) (m : Machine FlatTable) : Prop where
  stored : m.effective host = saved
  backed : base.Backed saved m
  phase : saved.phase = .cleaning

theorem Marked.safe (h : base.Marked host saved m) : base.Safe host m := by
  rw [Safe, h.stored]
  exact h.backed

theorem Marked.shrink (h : base.Marked host saved m₁) (hs : m.stored = m₁.stored)
    (hr : ∀ r ∈ m.rules.rules, r ∈ m₁.rules.rules ∨ ∃ x ∈ saved.rules, semanticEqual x r = true)
    (hu : m.uids ⊆ m₁.uids) : base.Marked host saved m where
  stored := by
    rw [← h.stored, Machine.effective, hs]
    rfl
  backed := h.backed.shrink (by rw [h.phase]; exact Phase.noConfusion) hr hu
  phase := h.phase

theorem Marked.reached (h : base.Marked host saved m₁) {remaining : List SavedRule}
    (hsub : remaining ⊆ saved.rules)
    (hr : Reached remaining [] [] m₁ m) : base.Marked host saved m := by
  refine h.shrink (by rw [hr.same]; rfl) (fun r hm => ?_) (by rw [hr.same]; exact List.Subset.refl _)
  rcases hr.within.origin r hm with h0 | ⟨x, hx, rfl⟩
  · exact .inl h0
  · rw [List.append_nil] at hx
    exact .inr ⟨x, hsub hx, semanticEqual_wire x⟩

theorem Marked.refusal (h : base.Marked host saved m₁) {remaining : List SavedRule}
    (hsub : remaining ⊆ saved.rules)
    {e : Error} (hr : Rules.Refusal G remaining [] m₁ e m) : base.Marked host saved m := by
  cases hr with
  | unlisted _ => exact h
  | rejected _ => exact h
  | restored hreach _ => exact h.reached hsub hreach
  | stuck hreach _ => exact h.reached hsub hreach

/-- The recorded rules that are live are gone, and so is every rule which the daemon added. -/
theorem Marked.rules_gone (h : base.Marked host saved m₁) {remaining : List SavedRule}
    (hrem : remainingRules m₁.rules.rules saved.rules = .ok remaining)
    (hc : Rules.Committed remaining [] m₁ m) :
    m.rules.rules ⊆ base.rules := by
  intro r hr
  by_contra hno
  have horigin : r ∈ m₁.rules.rules := by
    obtain ⟨hm, foreign, hv⟩ := hc
    rw [hm] at hr
    rcases (Rules.mem_target hv).mp hr with ⟨a, ha, -⟩ | ⟨h0, -⟩
    · cases ha
    · exact h0
  have hphase : saved.phase ≠ .applying ∧ saved.phase ≠ .error := by
    rw [h.phase]
    exact ⟨Phase.noConfusion, Phase.noConfusion⟩
  obtain ⟨x, hx, hsem⟩ := h.backed.settled hphase.1 hphase.2 r horigin hno
  have hkey := semanticEqual_key hsem
  have hmem := (remainingRules_spec hrem).2 x hx ⟨r, horigin, hkey.symm⟩
  exact hc.obsolete_gone hmem (fun a ha => absurd ha List.not_mem_nil) hr hkey.symm

theorem removeUids_sound (h : base.Marked host saved m₁) (hrules : m₁.rules.rules ⊆ base.rules) :
    Ensures G (base.Sound host) (· = m₁) (Op.removeUids saved.isolatedUids) (fun _ m => base.Idle m)
      (fun _ m => base.Marked host saved m) := by
  have hpart : ∀ xs : List UInt32, base.Marked host saved (m₁.withUids (xs.foldl dropUid m₁.uids)) :=
    fun xs => h.shrink rfl (fun r hr => .inl hr) fun u hu => (mem_foldl_dropUid.mp hu).1
  have hbatch := Ensures.batch_change (G := G) (T := base.Sound host) (m := m₁) saved.isolatedUids .removeUids
    fun m x => m.withUids (dropUid m.uids x)
  simp only [Ensures.foldl_withUids] at hbatch
  refine Sat.bind ((hbatch ?_).weaken (fun _ _ hq => hq) ?_) fun _ => ?_
  · exact fun _ _ xs ys _ _ _ _ => ⟨(hpart xs).safe, (hpart ys).safe⟩
  · rintro _ s ⟨-, xs, -, hs⟩
    rw [hs]
    exact hpart xs
  · have hend := hpart saved.isolatedUids
    refine Sat.bind ((read_sound hend.safe).weaken (fun _ _ hq => hq) fun _ _ hs => hs ▸ hend)
      fun current => ?_
    refine Sat.given ?_
    rintro rfl
    split
    · exact Sat.fail fun _ hs => hs ▸ hend
    · rename_i hgone
      refine Sat.pure fun s hs => ?_
      rw [hs]
      refine ⟨hrules, fun u hu => ?_⟩
      by_contra hno
      obtain ⟨hu₁, hnot⟩ := mem_foldl_dropUid.mp hu
      exact hnot (h.backed.uids u hu₁ hno)

theorem releaseVfs_sound (h : base.Marked host saved m₁) :
    Ensures G (base.Sound host) (· = m₁) (Boot.releaseVfs active saved) (fun _ m => base.Idle m)
      (fun _ m => base.Marked host saved m) := by
  have hm : ∀ (_ : Error) (s : Session FlatTable), s.machine = m₁ → base.Marked host saved s.machine :=
    fun _ _ hs => hs ▸ h
  refine Sat.bind (check_sound.weaken (fun _ _ hq => hq.1) hm) fun _ => ?_
  refine Sat.bind ((read_sound h.safe).weaken (fun _ _ hq => hq) hm) fun current => ?_
  refine Sat.given ?_
  rintro rfl
  refine Sat.bind (check_sound.weaken (fun _ _ hq => hq) hm) fun remaining => ?_
  refine Sat.given fun hrem => ?_
  have hsub := (remainingRules_spec hrem).1
  have hrec : Ensures G (base.Sound host) (· = m₁) (Rules.reconcile remaining [])
      (fun _ m => Rules.Committed remaining [] m₁ m) (fun _ m => base.Marked host saved m) := by
    refine (Rules.reconcile_spec.guarantee fun e he => ?_).weaken (fun _ _ hq => hq) fun _ _ hr =>
      h.refusal hsub hr
    exact ⟨(h.reached hsub he.pre).safe, (h.reached hsub he.post).safe⟩
  refine Sat.bind hrec fun _ => ?_
  have hrest : Ensures G (base.Sound host) (fun m => Rules.Committed remaining [] m₁ m)
      (Op.removeUids saved.isolatedUids) (fun _ m => base.Idle m) (fun _ m => base.Marked host saved m) := by
    refine Ensures.of_eq fun m hc => ?_
    have hgone := h.rules_gone hrem hc
    have hmark : base.Marked host saved m := by
      refine h.shrink (by rw [hc.1]; rfl) (fun r hr => ?_) (by rw [hc.1]; exact List.Subset.refl _)
      obtain ⟨hm, foreign, hv⟩ := hc
      rw [hm] at hr
      rcases (Rules.mem_target hv).mp hr with ⟨a, ha, -⟩ | ⟨h0, -⟩
      · cases ha
      · exact .inl h0
    exact removeUids_sound hmark hgone
  exact hrest

theorem cleanupOwned_sound (h : base.Marked host saved m₁) :
    Ensures G (base.Sound host) (· = m₁) (Boot.cleanupOwned active saved)
      (fun out m => out.1.bootId = saved.bootId ∧
        (base.Idle m ∨ out.1 = saved ∧ base.Marked host saved m ∧ ∃ e, out.2 = .error e))
      (fun _ _ => False) := by
  have hmounts : ∀ l : Ledger, l.bootId = saved.bootId →
      Ensures G (base.Sound host) base.Idle (Boot.releaseMounts l)
        (fun out m => out.1.bootId = saved.bootId ∧
          (base.Idle m ∨ out.1 = saved ∧ base.Marked host saved m ∧ ∃ e, out.2 = .error e))
          (fun _ _ => False) :=
    fun l hl => (releaseMounts_idle l).weaken (fun _ _ hs => ⟨hs.2.trans hl, .inl hs.1⟩) fun _ _ he => he
  unfold Boot.cleanupOwned
  split
  · rename_i hnone
    have hidle : base.Idle m₁ := by
      refine ⟨fun r hr => ?_, fun u hu => ?_⟩
      · by_contra hno
        have hphase : saved.phase ≠ .applying ∧ saved.phase ≠ .error := by
          rw [h.phase]
          exact ⟨Phase.noConfusion, Phase.noConfusion⟩
        obtain ⟨x, hx, -⟩ := h.backed.settled hphase.1 hphase.2 r hr hno
        rw [hnone.1] at hx
        cases hx
      · by_contra hno
        have hmem := h.backed.uids u hu hno
        rw [hnone.2] at hmem
        cases hmem
    exact (hmounts saved rfl).strengthen fun s hs => hs ▸ hidle
  · have htry : Ensures G (base.Sound host) (· = m₁) (Prog.attempt (Boot.releaseVfs active saved))
        (fun r m => (r = .ok () → base.Idle m) ∧ ∀ e, r = .error e → base.Marked host saved m)
        (fun _ _ => False) := by
      refine Sat.attempt ((releaseVfs_sound h).weaken ?_ ?_)
      · exact fun _ _ hs => ⟨fun _ => hs, fun _ hh => by cases hh⟩
      · exact fun _ _ hs => ⟨fun hh => (by cases hh), fun _ _ => hs⟩
    refine Sat.bind htry fun r => ?_
    cases r with
    | error e =>
      refine Sat.pure fun s hs => ?_
      have hmark := hs.2 e rfl
      exact ⟨rfl, .inr ⟨rfl, hmark, e, rfl⟩⟩
    | ok _ =>
      have hsave : Ensures G (base.Sound host) base.Idle
          (Prog.attempt (Op.persist { saved with rules := [], isolatedUids := [] })) (fun _ => base.Idle)
          (fun _ _ => False) := Sat.attempt (persist_idle _)
      refine Sat.bind (hsave.strengthen fun s hs => hs.1 rfl) fun r => ?_
      cases r with
      | error e => exact Sat.pure fun _ hs => ⟨rfl, .inl hs⟩
      | ok _ => exact hmounts _ rfl

theorem reportUntracked_sound (h : base.Safe host m₁) :
    Ensures G (base.Sound host) (· = m₁) (Device.reportUntrackedVfs active)
      (fun uids m => m = m₁ ∧ uids ⊆ m₁.uids) (fun _ m => m = m₁) := by
  unfold Device.reportUntrackedVfs
  split
  · refine Sat.bind ((read_sound h).weaken (fun _ _ hs => hs.1) fun _ _ hs => hs) fun _ => ?_
    refine (read_sound h).weaken ?_ fun _ _ hs => hs
    rintro uids s ⟨hs, rfl⟩
    exact ⟨hs, List.Subset.refl _⟩
  · exact Sat.pure fun _ hs => ⟨hs, List.nil_subset _⟩

theorem inspectClean_sound (h : base.Safe host m₁) :
    Ensures G (base.Sound host) (· = m₁) (Boot.inspectClean active saved) (fun _ m => m = m₁)
      (fun _ m => m = m₁) := by
  refine Sat.bind (check_sound.weaken (fun _ _ hs => hs.1) fun _ _ hs => hs) fun _ => ?_
  have hlegacy : Ensures G (base.Sound host) (· = m₁) (Boot.reportLegacy saved) (fun _ m => m = m₁)
      (fun _ m => m = m₁) := by
    unfold Boot.reportLegacy
    split
    · exact Sat.bind (read_sound h) fun _ => Sat.pure fun _ hs => hs.1
    · exact Sat.pure fun _ hs => hs
  refine Sat.bind hlegacy fun _ => Sat.bind (reportUntracked_sound h) fun _ => ?_
  exact ((read_sound h).weaken (fun _ _ hs => hs.1) fun _ _ hs => hs).strengthen fun _ hs => hs.1

theorem cleanupRecorded_sound (h : base.Safe host m₁) (hsaved : saved = m₁.effective host)
    (ha : saved.phase ≠ .applying) (he : saved.phase ≠ .error) :
    Ensures G (base.Sound host) (· = m₁) (Boot.cleanupRecorded active saved) (fun _ => base.Safe host)
      (fun _ => base.Safe host) := by
  have hkeep : ∀ (_ : Error) (s : Session FlatTable), s.machine = m₁ → base.Safe host s.machine :=
    fun _ _ hs => hs ▸ h
  refine Sat.bind (check_sound.weaken (fun _ _ hs => hs.1) hkeep) fun _ => ?_
  have hvalidate : Ensures G (base.Sound host) (· = m₁) (Mounts.validate saved.mounts) (fun _ m => m = m₁)
      (fun _ m => m = m₁) := by
    refine Mounts.validate_invariant fun _ m hm => ?_
    rw [hm]
    exact ⟨h, h⟩
  refine Sat.bind (hvalidate.weaken (fun _ _ hs => hs) hkeep) fun _ => ?_
  let marked : Ledger := { saved with phase := .cleaning }
  have hbacked : base.Backed saved m₁ := hsaved ▸ h
  have hboot : marked.bootId = host.bootId := by
    have hh : (m₁.effective host).bootId = host.bootId := effective_bootId m₁
    rwa [← hsaved] at hh
  have hmarked : base.Backed marked m₁ := hbacked.of_settled ha he rfl rfl Phase.noConfusion
  have hstart : base.Marked host marked (m₁.withStored marked) :=
    ⟨effective_withStored hboot, hmarked.congr rfl rfl, rfl⟩
  refine Sat.bind ((persist_sound h hboot hmarked).weaken (fun _ _ hs => hs) ?_) fun _ => ?_
  · rintro _ s (hs | hs)
    · exact hs ▸ h
    · rw [hs]
      exact hstart.safe
  refine Sat.bind ((cleanupOwned_sound hstart).weaken (fun _ _ hq => hq) fun _ _ hno => hno.elim) fun out => ?_
  obtain ⟨left, result⟩ := out
  cases result with
  | ok _ =>
    have hidle : ∀ s : Session FlatTable, (left.bootId = marked.bootId ∧ (base.Idle s.machine ∨
        left = marked ∧ base.Marked host marked s.machine ∧ ∃ e : Error, Except.ok () = .error e)) →
        base.Idle s.machine := by
      rintro s ⟨-, hs | ⟨-, -, e, hbad⟩⟩
      · exact hs
      · cases hbad
    refine Sat.bind (((persist_idle (Boot.cleaned left)).strengthen hidle).weaken (fun _ _ hs => hs)
      fun _ _ hs => hs.safe host) fun _ => ?_
    exact (Ensures.read fun _ _ hm => idle_sound hm hm).weaken (fun _ _ hs => hs.1.safe host) fun _ _ hs =>
      hs.safe host
  | error e =>
    let final : Ledger := { left with error := some e.message }
    have hsave : Ensures G (base.Sound host) (fun m => left.bootId = marked.bootId ∧ (base.Idle m ∨
        left = marked ∧ base.Marked host marked m ∧
          ∃ e' : Error, (Except.error e : Except Error Unit) = .error e'))
        (Op.persist final) (fun _ => base.Safe host) (fun _ => base.Safe host) := by
      refine Ensures.of_eq fun m hm => ?_
      obtain ⟨hb, hm⟩ := hm
      have hstate : base.Safe host m ∧ base.Backed final m := by
        rcases hm with hidle | ⟨rfl, hmark, -⟩
        · exact ⟨hidle.safe host, hidle.backed _⟩
        · exact ⟨hmark.safe, hmark.backed.of_settled Phase.noConfusion Phase.noConfusion rfl rfl
            Phase.noConfusion⟩
      have hfinal : base.Safe host (m.withStored final) := hstate.2.safe_withStored (hb.trans hboot)
      refine (persist_sound (l := final) hstate.1 (hb.trans hboot) hstate.2).weaken (fun _ s hs => ?_)
        fun _ s hs => ?_
      · rw [hs]
        exact hfinal
      · rcases hs with hs | hs
        · exact hs ▸ hstate.1
        · rw [hs]
          exact hfinal
    exact Sat.bind hsave fun _ => Sat.fail fun _ hs => hs

/-- Every save of the cleanup accounts for what is live at that moment. -/
theorem cleanup_sound (host : Host) (active : Probe) :
    Ensures G (base.Sound host) (base.Safe host) (Boot.cleanup host active) (fun _ => base.Safe host)
      (fun _ => base.Safe host) := by
  refine Ensures.of_eq fun m₁ hm₁ => ?_
  have hkeep : ∀ (_ : Error) (s : Session FlatTable), s.machine = m₁ → base.Safe host s.machine :=
    fun _ _ hs => hs ▸ hm₁
  refine Sat.bind ((load_sound hm₁).weaken (fun _ _ hq => hq) hkeep) fun saved => ?_
  refine Sat.given ?_
  rintro ⟨hsaved, -⟩
  split
  · exact (inspectClean_sound hm₁).weaken (fun _ s hs => hs ▸ hm₁) hkeep
  · split
    · exact Sat.fail fun s hs => hs ▸ hm₁
    · rename_i hphase
      rw [not_or] at hphase
      exact cleanupRecorded_sound hm₁ hsaved hphase.1 hphase.2

end Baseline

end HybridMount
