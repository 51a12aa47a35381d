import HybridMount.RulePasses

/-! Ownership and atomicity of one reconciliation: which keys it may touch, what
a success means, and what a report of a clean rollback means. -/

namespace HybridMount

open Traced

/-- Every explicit rule of `xs` outside the excepted keys is an explicit rule of `ys`. -/
def ExplicitIn (except : Key → Prop) (xs ys : List SavedRule) : Prop :=
  ∀ r ∈ xs, derivedParent r = false → ¬ except r.key →
    ∃ r' ∈ ys, derivedParent r' = false ∧ semanticEqual r r' = true

def bareKey (rules : List SavedRule) (key : Key) : Prop := ∃ r ∈ rules, bare r = true ∧ r.key = key

/-- The explicit rules agree, except that a bare owned rule may be listed as
derived in one table and as explicit in the other. -/
structure Restored (before after : List SavedRule) (t₀ t : FlatTable) : Prop where
  kept : ExplicitIn (bareKey before) t₀.rules t.rules
  added : ExplicitIn (bareKey before) t.rules t₀.rules
  present : ∀ b ∈ before, ∃ r ∈ t.rules, semanticEqual b r = true
  introduced : ∀ a ∈ after, (∀ b ∈ before, b.key ≠ a.key) →
    ∀ r ∈ t.rules, r.key = a.key → derivedParent r = true
  foreign : ∀ r, (∀ x ∈ before ++ after, r.key ≠ x.key) → (r ∈ t.rules ↔ r ∈ t₀.rules)

/-- The operations of a compensation all succeed. -/
def RecoveryUndisturbed (e : Event FlatTable) : Prop := e.recovering = true → e.action.isFailed = false

namespace Rules

variable {G : Event FlatTable → Prop} {before after attempted foreign : List SavedRule}
  {m₀ m₁ : Machine FlatTable}

theorem semanticEqual_of_live {t : FlatTable} {a b r : SavedRule} (hk : b.key = a.key)
    (hb : ∃ actual ∈ t.rules, semanticEqual b actual = true) (hr : r ∈ t.rules)
    (ha : semanticEqual a r = true) : semanticEqual b a = true := by
  obtain ⟨actual, hactual, hsem⟩ := hb
  have hkeys : actual.key = r.key :=
    (semanticEqual_key hsem).symm.trans (hk.trans (semanticEqual_key ha))
  have hsame := FlatTable.eq_of_key hactual hr hkeys
  exact semanticEqual_trans (hsame ▸ hsem) (semanticEqual_symm ha)

theorem explicit_of_semanticEqual {b r r' : SavedRule} (hb : b ∈ before) (hr : semanticEqual b r = true)
    (hr' : semanticEqual b r' = true) (hnot : ¬ bareKey before b.key) :
    semanticEqual r r' = true ∧ derivedParent r' = false := by
  refine ⟨semanticEqual_trans (semanticEqual_symm hr) hr', explicit_of_not_bare ?_⟩
  rw [Bool.eq_false_iff]
  exact fun hbare => hnot ⟨b, hb, bare_of_semanticEqual hr' hbare, rfl⟩

/-- The old rules back in place and the new keys cleared make the table restored. -/
theorem restored_of_present {t₀ t : FlatTable} (hv : validateSnapshot t₀.rules before after = .ok foreign)
    (h : Within before after after t₀ t) (hback : ∀ b ∈ before, ∃ r ∈ t.rules, semanticEqual b r = true)
    (hintro : ∀ a ∈ after, (∀ b ∈ before, b.key ≠ a.key) →
      ∀ r ∈ t.rules, r.key = a.key → derivedParent r = true) : Restored before after t₀ t := by
  obtain ⟨-, -, hpresent, hforeign, -⟩ := validateSnapshot_eq_ok.mp hv
  refine ⟨fun r hr hd hnot => ?_, fun r hr hd hnot => ?_, hback, hintro, h.frame⟩
  · by_cases hb : ∃ b ∈ before, b.key = r.key
    · obtain ⟨b, hb, hk⟩ := hb
      obtain ⟨actual, hactual, heq⟩ := hpresent b hb
      have hsame := FlatTable.eq_of_key hactual hr ((semanticEqual_key heq).symm.trans hk)
      obtain ⟨r', hr', heq'⟩ := hback b hb
      obtain ⟨hsem, hd'⟩ := explicit_of_semanticEqual hb (hsame ▸ heq) heq' (hk ▸ hnot)
      exact ⟨r', hr', hd', hsem⟩
    · have hrf : r ∈ foreign := by
        rw [hforeign, mem_foreignRules]
        exact ⟨hr, fun b hb' hk => hb ⟨b, hb', hk⟩⟩
      have hframe := h.frame r fun x hx => key_ne_of_accepted hv hrf hx
      exact ⟨r, hframe.mpr hr, hd, semanticEqual_refl r⟩
  · by_cases hb : ∃ b ∈ before, b.key = r.key
    · obtain ⟨b, hb, hk⟩ := hb
      obtain ⟨r', hr', heq'⟩ := hback b hb
      have hsame := FlatTable.eq_of_key hr' hr ((semanticEqual_key heq').symm.trans hk)
      obtain ⟨actual, hactual, heq⟩ := hpresent b hb
      obtain ⟨hsem, hd'⟩ := explicit_of_semanticEqual hb (hsame ▸ heq') heq (hk ▸ hnot)
      exact ⟨actual, hactual, hd', hsem⟩
    · have hne : ∀ b ∈ before, b.key ≠ r.key := fun b hb' hk => hb ⟨b, hb', hk⟩
      by_cases ha : ∃ a ∈ after, a.key = r.key
      · obtain ⟨a, ha, hk⟩ := ha
        have hder := hintro a ha (fun b hb' => hk ▸ hne b hb') r hr hk.symm
        rw [hder] at hd
        cases hd
      · have hkeys : ∀ x ∈ before ++ after, r.key ≠ x.key := by
          intro x hx hk
          rcases List.mem_append.mp hx with hxb | hxa
          · exact hne x hxb hk.symm
          · exact ha ⟨x, hxa, hk.symm⟩
        exact ⟨r, (h.frame r hkeys).mp hr, hd, semanticEqual_refl r⟩

theorem restored_of_verified {t₀ t : FlatTable} (hv : validateSnapshot t₀.rules before after = .ok foreign)
    (h : Within before after attempted t₀ t) (ha : attempted = [] ∨ attempted = after)
    (hc : Verified attempted before foreign t.rules) : Restored before after t₀ t := by
  obtain ⟨hback, hgone⟩ := verifyResult_eq_ok.mp hc.1
  have hsub : attempted ⊆ after := by
    rcases ha with rfl | rfl
    · exact List.nil_subset _
    · exact List.Subset.refl _
  refine restored_of_present hv (h.mono hsub) hback fun a ha' hb r hr hk => ?_
  rcases ha with rfl | rfl
  · rcases h.origin r hr with h0 | ⟨x, hx, rfl⟩
    · exact absurd hk (no_entry_of_introduced hv ha' hb h0)
    · rw [List.append_nil] at hx
      exact absurd hk (hb x hx)
  · have hrem := hgone a ha'
    by_contra hd
    rw [Bool.not_eq_true] at hd
    rw [remains_iff.mpr ⟨hb, r, hr, hk, hd⟩] at hrem
    cases hrem

/-- How a reconciliation from `m₀` may end with an error. -/
inductive Refusal (G : Event FlatTable → Prop) (before after : List SavedRule) (m₀ : Machine FlatTable) :
    Error → Machine FlatTable → Prop
  | unlisted {detail : String} : G ⟨.failed .list, false, m₀, m₀⟩ → Refusal G before after m₀ (.msg detail) m₀
  | rejected {e : Error} : validateSnapshot m₀.rules.rules before after = .error e →
      Refusal G before after m₀ e m₀
  | restored {m : Machine FlatTable} {cause : Error} : Reached before after after m₀ m →
      Restored before after m₀.rules m.rules → Refusal G before after m₀ (.ruleRolledBack cause) m
  | stuck {m : Machine FlatTable} {cause recovery : Error} : Reached before after after m₀ m →
      ¬ (∀ e, G e → RecoveryUndisturbed e) →
      Refusal G before after m₀ (.ruleRollbackIncomplete cause recovery) m

/-- The state of the rule map after a successful reconciliation. -/
def Committed (before after : List SavedRule) (m₀ m : Machine FlatTable) : Prop :=
  m = m₀.withRules (target before after m₀.rules) ∧ ∃ foreign,
    validateSnapshot m₀.rules.rules before after = .ok foreign

theorem recover_spec {cause : Error} (hv : validateSnapshot m₀.rules.rules before after = .ok foreign)
    (ha : attempted = [] ∨ attempted = after) {Q : Unit → Machine FlatTable → Prop} :
    Ensures G (OwnedStep before after m₀) (Reached before after attempted m₀)
      (recover before attempted foreign cause) Q (Refusal G before after m₀) := by
  have hsub : attempted ⊆ after := by
    rcases ha with rfl | rfl
    · exact List.nil_subset _
    · exact List.Subset.refl _
  let R : Except Error Unit → Machine FlatTable → Prop := fun r m =>
    Reached before after attempted m₀ m ∧ (r = .ok () → Verified attempted before foreign m.rules.rules) ∧
      ((∀ e, G e → RecoveryUndisturbed e) → r = .ok ())
  have hroll : Ensures (fun e => G { e with recovering := true }) (OwnedStep before after m₀)
      (Reached before after attempted m₀) (Prog.attempt (rollback before attempted foreign)) R
      (Refusal G before after m₀) := by
    refine Sat.attempt fun s hs hg => ?_
    obtain ⟨ht, hspec⟩ := @rollback_spec (fun e => G { e with recovering := true })
      before after attempted foreign m₀ hsub s hs hg
    refine ⟨ht, ?_⟩
    cases hres : (rollback before attempted foreign s).result with
    | ok u =>
      rw [hres] at hspec
      exact ⟨hspec.1, fun _ => hspec.2, fun _ => rfl⟩
    | error e =>
      rw [hres] at hspec
      refine ⟨hspec, fun hh => (by cases hh), fun hcalm => ?_⟩
      have hcomplete := rollback_complete (G := fun e => G { e with recovering := true }) hv hsub
        (fun e he => hcalm { e with recovering := true } he rfl) hs s rfl hg
      rw [hres] at hcomplete
      exact hcomplete.2.elim
  have hmarked : Ensures G (OwnedStep before after m₀) (Reached before after attempted m₀)
      (Op.recovering (Prog.attempt (rollback before attempted foreign))) R (Refusal G before after m₀) :=
    Sat.mapEvents fun s hs hg => by
      obtain ⟨ht, hr⟩ := hroll s hs hg
      exact ⟨fun e he => ⟨(ht e he).kind, (ht e he).targets, (ht e he).pre, (ht e he).post⟩, hr⟩
  refine Sat.bind hmarked fun r => ?_
  cases r with
  | ok _ =>
    refine Sat.fail fun s hs => ?_
    obtain ⟨hr, hverified, -⟩ := hs
    exact .restored (reached_mono hr hsub) (restored_of_verified hv hr.within ha (hverified rfl))
  | error recovery =>
    refine Sat.fail fun s hs => ?_
    obtain ⟨hr, -, hcalm⟩ := hs
    exact .stuck (reached_mono hr hsub) fun hall => by cases hcalm hall

theorem reconcile_spec :
    Ensures G (OwnedStep before after m₀) (· = m₀) (reconcile before after)
      (fun _ m => Committed before after m₀ m) (Refusal G before after m₀) := by
  refine Sat.bind ((list_spec (reached_refl before after [] m₀) (List.nil_subset _)).weaken
    (fun _ _ hs => hs) ?_) fun initial => ?_
  · rintro e s ⟨hs, hg, detail, rfl⟩
    rw [hs]
    exact .unlisted hg
  refine Sat.bind (Q := fun foreign s => s.machine = m₀ ∧
    validateSnapshot m₀.rules.rules before after = .ok foreign) (Sat.ofExcept ?_ ?_) fun foreign => ?_
  · rintro foreign s hv ⟨hs, rfl⟩
    exact ⟨hs, hv⟩
  · rintro e s hv ⟨hs, rfl⟩
    rw [hs]
    exact .rejected hv
  by_cases hv : validateSnapshot m₀.rules.rules before after = .ok foreign
  · have happly : Ensures G (OwnedStep before after m₀) (· = m₀) (apply before after foreign)
        (Applied before after m₀) (Refusal G before after m₀) :=
      apply_spec.weaken (fun _ _ hs => hs) fun _ _ he => he.elim
    refine Sat.bind (happly.strengthen fun s hs => hs.1) fun outcome => ?_
    obtain ⟨putAttempted, result⟩ := outcome
    cases result with
    | ok _ => exact Sat.pure fun s hs => ⟨hs.2 rfl, foreign, hv⟩
    | error cause =>
      have ha : attemptedRules after putAttempted = [] ∨ attemptedRules after putAttempted = after := by
        cases putAttempted
        · exact .inl rfl
        · exact .inr rfl
      have hrec : Ensures G (OwnedStep before after m₀)
          (Reached before after (attemptedRules after putAttempted) m₀)
          (recover before (attemptedRules after putAttempted) foreign cause)
          (fun _ m => Committed before after m₀ m) (Refusal G before after m₀) := recover_spec hv ha
      exact hrec.strengthen fun s hs => hs.1
  · exact fun s hs => absurd hs.2 hv

/-- A rejected pair is only read. -/
theorem reconcile_rejected {e : Error} (hv : validateSnapshot m₀.rules.rules before after = .error e) :
    Ensures G (fun e => e.action.operation = .list) (· = m₀) (reconcile before after)
      (fun _ _ => False) (fun _ _ => True) := by
  have hlist : Ensures G (fun e => e.action.operation = .list) (· = m₀) Op.list
      (fun current _ => current = m₀.rules.rules) (fun _ _ => True) := by
    refine Ensures.query (fun _ _ ha _ => ha) ?_ fun _ _ _ _ => trivial
    intro m hm
    rw [hm]
    rfl
  refine Sat.bind hlist fun initial => Sat.bind (Q := fun _ _ => False) ?_ fun _ _ hs => hs.elim
  refine Sat.ofExcept ?_ fun _ _ _ _ => trivial
  intro foreign s hok hs
  rw [hs, hv] at hok
  cases hok

theorem mem_target (hv : validateSnapshot m₀.rules.rules before after = .ok foreign) {r : SavedRule} :
    r ∈ (target before after m₀.rules).rules ↔ (∃ a ∈ after, r = wire a) ∨
      r ∈ m₀.rules.rules ∧ (∀ x ∈ obsoleteRules before after, r.key ≠ x.key) ∧
        ∀ a ∈ after, r.key ≠ a.key := by
  have hna := (validateSnapshot_eq_ok.mp hv).2.1
  rw [target, FlatTable.mem_putAll (keys_nodup_ordered hna), FlatTable.mem_deleteAll]
  simp only [mem_ordered, and_assoc]

theorem Committed.after_present (h : Committed before after m₀ m₁) {a : SavedRule} (ha : a ∈ after) :
    wire a ∈ m₁.rules.rules := by
  obtain ⟨hm, foreign, hv⟩ := h
  rw [hm]
  exact (mem_target hv).mpr (.inl ⟨a, ha, rfl⟩)

theorem Committed.obsolete_gone (h : Committed before after m₀ m₁) {b r : SavedRule} (hb : b ∈ before)
    (hnew : ∀ a ∈ after, a.key ≠ b.key) (hr : r ∈ m₁.rules.rules) : r.key ≠ b.key := by
  obtain ⟨hm, foreign, hv⟩ := h
  rw [hm] at hr
  rcases (mem_target hv).mp hr with ⟨a, ha, rfl⟩ | ⟨-, hobs, -⟩
  · exact hnew a ha
  · exact hobs b (mem_obsoleteRules.mpr ⟨hb, fun a ha => (hnew a ha).symm⟩)

theorem Committed.foreign_unchanged (h : Committed before after m₀ m₁) {r : SavedRule}
    (hr : ∀ x ∈ before ++ after, r.key ≠ x.key) : r ∈ m₁.rules.rules ↔ r ∈ m₀.rules.rules := by
  obtain ⟨hm, foreign, hv⟩ := h
  rw [hm]
  refine (mem_target hv).trans ⟨fun hh => ?_, fun hh => .inr ⟨hh, fun x hx => ?_, fun a ha => ?_⟩⟩
  · rcases hh with ⟨a, ha, rfl⟩ | hh
    · exact absurd (wire_key a) (hr a (List.mem_append_right _ ha))
    · exact hh.1
  · exact hr x (List.mem_append_left _ (mem_obsoleteRules.mp hx).1)
  · exact hr a (List.mem_append_right _ ha)

/-- Every mutation names an owned key, a rejected pair is not mutated at all, and
a success installs the new rules, retires the old ones and keeps the foreign ones. -/
theorem reconcile_frame (before after : List SavedRule) (s : Session FlatTable) :
    let run := reconcile before after s
    (∀ e ∈ run.trace, ∀ r ∈ e.action.operation.targets, ∃ x ∈ before ++ after, x.key = r.key) ∧
    (∀ e, validateSnapshot s.machine.rules.rules before after = .error e →
      ∀ event ∈ run.trace, event.action.operation = .list) ∧
    (run.result = .ok () →
      (∀ a ∈ after, wire a ∈ run.state.machine.rules.rules) ∧
      (∀ b ∈ before, (∀ a ∈ after, a.key ≠ b.key) →
        ∀ r ∈ run.state.machine.rules.rules, r.key = b.key → derivedParent r = true) ∧
      ∀ r, derivedParent r = false → (∀ x ∈ before ++ after, r.key ≠ x.key) →
        (r ∈ run.state.machine.rules.rules ↔ r ∈ s.machine.rules.rules)) := by
  intro run
  have hspec := @reconcile_spec (fun _ => True) before after s.machine
  refine ⟨fun e he r hr => ?_, fun e hv => ?_, fun hok => ?_⟩
  · exact ⟨r, (hspec.events rfl (fun _ _ => trivial) e he).targets hr, rfl⟩
  · exact (reconcile_rejected (G := fun _ => True) hv).events rfl fun _ _ => trivial
  · have hc := hspec.of_ok rfl (fun _ _ => trivial) hok
    refine ⟨fun a ha => hc.after_present ha, fun b hb hnew r hr hk => ?_,
      fun r _ hr => hc.foreign_unchanged hr⟩
    exact absurd hk (hc.obsolete_gone hb hnew hr)

/-- A clean report means that the explicit rules are restored, and an undisturbed
recovery reports clean. -/
theorem reconcile_atomic {before after foreign : List SavedRule} {s : Session FlatTable}
    (hv : validateSnapshot s.machine.rules.rules before after = .ok foreign) :
    let run := reconcile before after s
    (∀ cause, run.result = .error (.ruleRolledBack cause) →
      Restored before after s.machine.rules run.state.machine.rules) ∧
    ((∀ e ∈ run.trace, e.action ≠ .failed .list) → (∀ e ∈ run.trace, RecoveryUndisturbed e) →
      ∀ e, run.result = .error e → ∃ cause, e = .ruleRolledBack cause) := by
  intro run
  constructor
  · intro cause he
    have hr := (reconcile_spec (G := fun _ => True)).of_error rfl (fun _ _ => trivial) he
    change Restored _ _ _ run.state.machine.rules
    generalize run.state.machine = m at hr ⊢
    cases hr with
    | rejected hrej => rw [hv] at hrej; cases hrej
    | restored _ hrest => exact hrest
  · intro hlist hcalm e he
    have hr := (reconcile_spec (G := fun e => e.action ≠ .failed .list ∧ RecoveryUndisturbed e)).of_error
      rfl (fun event hevent => ⟨hlist event hevent, hcalm event hevent⟩) he
    generalize run.state.machine = m at hr
    cases hr with
    | unlisted hg => exact absurd rfl hg.1
    | rejected hrej => rw [hv] at hrej; cases hrej
    | restored _ _ => exact ⟨_, rfl⟩
    | stuck _ hno => exact absurd (fun e he => he.2) hno

/-- One rule, listed as `live`, whose deletion is reported as failed after it took effect. -/
def interruptedDelete (live : SavedRule) : Session FlatTable where
  machine :=
    { rules := ⟨[live], FlatTable.unique_single live⟩, uids := [], stored := none, root := 1, mounts := [],
      unmounts := [] }
  faults := [none, some ⟨1, "injected kernel failure"⟩]

def hostsRule : SavedRule := ⟨"", "/system/etc/hosts", "/data/hosts", 0, 0⟩

theorem reconcile_atomic_hosts :
    Restored [hostsRule] [] (interruptedDelete hostsRule).machine.rules
      (reconcile [hostsRule] [] (interruptedDelete hostsRule)).state.machine.rules :=
  (@reconcile_atomic [hostsRule] [] [] (interruptedDelete hostsRule) (by decide)).1
    (.msg "injected kernel failure") (by decide)

/-- A bare rule, and the derived directory which the kernel lists in its place. -/
def bareRule : SavedRule := ⟨"", "/system/app", "", 0, 0⟩

def derivedDirectory : SavedRule := ⟨"", "/system/app", "", FLAG_VIRTUAL_DIR, 0⟩

/-- The table restored for a bare rule holds an explicit rule which was not there before. -/
theorem reconcile_bare_not_restored :
    ¬ ∀ (before after foreign : List SavedRule) (s : Session FlatTable),
      (∀ r ∈ before ++ after, derivedParent r = false) →
      validateSnapshot s.machine.rules.rules before after = .ok foreign →
      ∀ cause, (reconcile before after s).result = .error (.ruleRolledBack cause) →
        ExplicitIn (fun _ => False) (reconcile before after s).state.machine.rules.rules
          s.machine.rules.rules := by
  intro h
  have hh := h [bareRule] [] [] (interruptedDelete derivedDirectory) (by decide) (by decide)
    (.msg "injected kernel failure") (by decide) bareRule (by decide) (by decide) not_false
  obtain ⟨r, hr, hd, -⟩ := hh
  have hlive : r = derivedDirectory := List.mem_singleton.mp hr
  rw [hlive] at hd
  exact absurd hd (by decide)

end Rules

end HybridMount
