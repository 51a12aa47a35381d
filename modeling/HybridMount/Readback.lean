import HybridMount.BootForeignRules

/-! The boot reads the table back after its batch. What it confirms are paths, so a rule is taken for
installed when anything at all is listed there. -/

namespace HybridMount.Boot

open Traced

/-- A provider that acknowledges every record and does with its table what it likes. -/
structure Provider where
  rules : List SavedRule
  store : SavedRule → List SavedRule → List SavedRule
  erase : SavedRule → List SavedRule → List SavedRule

namespace Provider

def put (provider : Provider) (rule : SavedRule) : Provider :=
  { provider with rules := provider.store rule provider.rules }

def remove (provider : Provider) (rule : SavedRule) : Provider :=
  { provider with rules := provider.erase rule provider.rules }

instance : RuleTable Provider where
  listing := rules
  put rule provider := .ok (provider.put rule)
  delete rule provider := .ok (provider.remove rule)

def putAll (provider : Provider) (batch : List SavedRule) : Provider := batch.foldl put provider

end Provider

/-- A rule is listed under uid 0 with its real path and kind. -/
def Installed (rule : SavedRule) (listed : List SavedRule) : Prop :=
  ∃ e ∈ listed, e.virtualPath = rule.virtualPath ∧ e.uid = 0 ∧ e.realPath = rule.realPath ∧
    e.flags &&& (FLAG_WHITEOUT ||| FLAG_OPAQUE) = rule.flags &&& (FLAG_WHITEOUT ||| FLAG_OPAQUE)

/-- The phase returns. Statistics without a failure mean installed rules, and with one they
advertise nothing. -/
def ReadbackSound (config : Config) (plan : MountPlan) (nomount : Bool) (entry : VfsEntry)
    (s : Session Provider) : Prop :=
  let run := applyVfsPhase config plan nomount entry s
  ∃ registered outcome, run.result = .ok (registered, .returned outcome) ∧ ∀ stats, outcome = .ok stats →
    (stats.failure = none → ∀ rule ∈ batchOf plan, Installed rule run.state.machine.rules.rules) ∧
      (stats.failure ≠ none → stats.activeTargets = [])

/-- The phase ends before it sends the batch of a plan. -/
def Skipped (plan : MountPlan) (nomount : Bool) (entry : VfsEntry) : Prop :=
  plan.vfsModuleIds = [] ∨ entry.guard.isOk = false ∨ entry.arm.isOk = false ∨
    (attach entry.active nomount).isOk = false

/-- The NoMount batch cannot be encoded, or the table has a global rule at one of its paths. -/
def Rejected (plan : MountPlan) (format : RuleFormat) (m : Machine Provider) : Prop :=
  (buildAddRulePayloads format (planRules plan).rules).isOk = false ∨
    ∃ rule ∈ m.rules.rules, rule.uid = 0 ∧ derivedParent rule = false ∧
      rule.virtualPath ∈ (batchOf plan).map SavedRule.virtualPath

/-- One of the next `n` exchanges fails. -/
def Fails (n : Nat) (s : Session Provider) : Prop := ∃ i < n, (s.faults[i]?.join).isSome

/-- The exchanges of an apply: the batch and the uids. -/
def sends (plan : MountPlan) (uids : List UInt32) : Nat :=
  (if (planRules plan).rules = [] then 0 else 1) + if dedupeUids uids = [] then 0 else 1

/-- The exchanges before the table is read back. -/
def exchanges (config : Config) (plan : MountPlan) (nomount : Bool) : Nat :=
  (if nomount then 1 else 0) + sends plan config.isolateUids

/-- The phase does not get as far as the read-back, or the read-back takes place and the provider
has installed every rule of the batch. -/
def Truthful (config : Config) (plan : MountPlan) (nomount : Bool) (entry : VfsEntry)
    (s : Session Provider) : Prop :=
  Skipped plan nomount entry ∨ nomount = true ∧ Rejected plan entry.format s.machine ∨
    Fails (exchanges config plan nomount) s ∨
    s.faults[exchanges config plan nomount]?.join = none ∧
      ∀ rule ∈ batchOf plan, Installed rule (s.machine.rules.putAll (batchOf plan)).rules

variable {config : Config} {plan : MountPlan} {nomount strict : Bool} {entry : VfsEntry}
  {m : Machine Provider} {uids : List UInt32}
  {format : RuleFormat} {s t u : Session Provider} {n k : Nat}

section Exchanges

/-- The next `n` exchanges of a session have taken place. -/
def Passed (n : Nat) (s t : Session Provider) : Prop := ¬ Fails n s ∧ t.faults = s.faults.drop n

theorem Passed.refl (s : Session Provider) :
    Passed 0 s s := ⟨fun ⟨_, hi, _⟩ => absurd hi (Nat.not_lt_zero _), rfl⟩

theorem Fails.mono (h : Fails n s) : Fails (n + k) s := by
  obtain ⟨i, hi, hsome⟩ := h
  exact ⟨i, by omega, hsome⟩

theorem Passed.fails_iff (h : Passed n s t) : Fails k t ↔ Fails (n + k) s := by
  obtain ⟨hcalm, hfaults⟩ := h
  constructor
  · rintro ⟨i, hi, hsome⟩
    refine ⟨n + i, by omega, ?_⟩
    rwa [hfaults, List.getElem?_drop] at hsome
  · rintro ⟨i, hi, hsome⟩
    by_cases hlt : i < n
    · exact absurd ⟨i, hlt, hsome⟩ hcalm
    · refine ⟨i - n, by omega, ?_⟩
      rwa [hfaults, List.getElem?_drop, Nat.add_sub_cancel' (Nat.le_of_not_lt hlt)]

theorem Passed.trans (h : Passed n s t) (h' : Passed k t u) : Passed (n + k) s u :=
  ⟨fun hfails => h'.1 (h.fails_iff.mpr hfails), by rw [h'.2, h.2, List.drop_drop]⟩

theorem fails_one : Fails 1 s ↔ (s.faults.head?.join).isSome := by
  rw [List.head?_eq_getElem?]
  constructor
  · rintro ⟨i, hi, hsome⟩
    obtain rfl : i = 0 := by omega
    exact hsome
  · exact fun hsome => ⟨0, Nat.one_pos, hsome⟩

theorem passed_one (h : s.faults.head?.join = none) (ht : t.faults = s.faults.tail) : Passed 1 s t := by
  refine ⟨fun hfails => ?_, by rw [ht, List.drop_one]⟩
  rw [fails_one, h] at hfails
  cases hfails

/-- The triple of a program from one session. -/
abbrev From {α : Type} (s : Session Provider) (program : Op Provider α) (Q : α → Session Provider → Prop)
    (E : Error → Session Provider → Prop) : Prop := Sat (fun _ => True) (fun _ => True) (· = s) program Q E

theorem From.each {α : Type} {P : Session Provider → Prop} {program : Op Provider α}
    {Q : α → Session Provider → Prop}
    {E : Error → Session Provider → Prop} (h : ∀ s, P s → From s program Q E) :
    Sat (fun _ => True) (fun _ => True) P program Q E :=
  fun s hs hg => h s hs s rfl hg

theorem From.pure {α : Type} {a : α} {Q : α → Session Provider → Prop} {E : Error → Session Provider → Prop}
    (h : Q a s) :
    From s (Pure.pure a) Q E :=
  Sat.pure fun _ hs => hs ▸ h

theorem list_from :
    From s Op.list (fun listed t => Passed 1 s t ∧ t.machine = s.machine ∧ listed = s.machine.rules.rules)
    fun _ t => Fails 1 s ∧ t.machine = s.machine := by
  intro s' hs _
  rw [show s' = s from hs]
  refine ⟨fun _ _ => trivial, ?_⟩
  cases hf : s.faults.head?.join with
  | none =>
    have hresult : (Op.list s).result = .ok s.machine.rules.rules := by
      simp [Op.list, Op.query, Bind.bind, Prog.bind, Op.note, Op.schedule, Op.machine, Prog.update, Pure.pure,
        Prog.pure, hf]
      rfl
    have hstate : (Op.list s).state = ⟨s.machine, s.faults.tail⟩ := by
      simp [Op.list, Op.query, Bind.bind, Prog.bind, Op.note, Op.schedule, Op.machine, Prog.update, Pure.pure,
        Prog.pure, hf]
    rw [hresult, hstate]
    exact ⟨passed_one hf rfl, rfl, rfl⟩
  | some fault =>
    have hresult : (Op.list s).result = .error (.msg fault.detail) := by
      simp [Op.list, Op.query, Bind.bind, Prog.bind, Op.note, Op.schedule, Op.refuse, Prog.fail,
        Prog.update, hf]
    have hstate : (Op.list s).state.machine = s.machine := by
      simp [Op.list, Op.query, Bind.bind, Prog.bind, Op.note, Op.schedule, Op.refuse, Prog.fail,
        Prog.update, hf]
    rw [hresult]
    exact ⟨fails_one.mpr (by rw [hf]; rfl), hstate⟩

theorem batch_from {β : Type} (operation : Operation) (each : β → Operation)
    (step : Machine Provider → β → Machine Provider)
    (records : List β) : From s (Op.batch operation (fun x => Op.change (each x) fun m => step m x) records)
      (fun _ t => Passed 1 s t ∧ t.machine = records.foldl step s.machine) fun _ _ => Fails 1 s := by
  intro s' hs _
  rw [show s' = s from hs]
  refine ⟨fun _ _ => trivial, ?_⟩
  obtain ⟨hresult, hstate, -⟩ := Op.batch_run operation each step records s
  rw [hresult]
  cases hf : s.faults.head?.join with
  | none =>
    rw [hf] at hstate
    exact ⟨passed_one hf (by rw [hstate]), by rw [hstate]; rfl⟩
  | some fault => exact fails_one.mpr (by rw [hf]; rfl)

end Exchanges

section Batches

theorem put_eq (batch : List SavedRule) :
    (Op.put batch : Op Provider Unit) = Op.batch (.put batch)
    (fun rule => Op.change (.put [rule]) fun m => m.withRules (m.rules.put rule)) batch :=
  rfl

theorem foldl_put (m : Machine Provider) (batch : List SavedRule) :
    batch.foldl (fun m rule => m.withRules (m.rules.put rule)) m = m.withRules (m.rules.putAll batch) := by
  induction batch generalizing m with
  | nil => rfl
  | cons rule rest ih => exact ih _

theorem sendRules_from : From s (sendRules (planRules plan).rules)
    (fun _ t => Passed (if (planRules plan).rules = [] then 0 else 1) s t ∧
      t.machine.rules = s.machine.rules.putAll (batchOf plan))
    fun _ _ => Fails (if (planRules plan).rules = [] then 0 else 1) s := by
  unfold sendRules
  split
  · rename_i hnil
    refine From.pure ?_
    rw [batchOf, hnil]
    exact ⟨.refl s, rfl⟩
  · rw [put_eq]
    refine (batch_from (.put (batchOf plan)) (fun rule => .put [rule])
      (fun (m : Machine Provider) rule => m.withRules (m.rules.put rule)) (batchOf plan)).weaken ?_
        fun _ _ hs => hs
    rintro _ t ⟨hpassed, hmachine⟩
    exact ⟨hpassed, by rw [hmachine, foldl_put, Machine.withRules_rules]⟩

theorem applyRules_from : From s (applyRules (planRules plan).rules uids)
    (fun _ t => Passed (sends plan uids) s t ∧
      t.machine.rules = s.machine.rules.putAll (batchOf plan))
    fun _ _ => Fails (sends plan uids) s := by
  unfold sends
  refine Sat.bind (sendRules_from.weaken (fun _ _ hs => hs) fun _ _ hs => hs.mono) fun _ => From.each ?_
  rintro t ⟨hpassed, hrules⟩
  by_cases hnil : dedupeUids uids = []
  · rw [if_neg (not_not.mpr hnil), if_pos hnil]
    exact From.pure ⟨hpassed, hrules⟩
  · rw [if_pos hnil, if_neg hnil]
    refine (batch_from (.addUids (dedupeUids uids)) (fun uid => .addUids [uid])
      (fun (m : Machine Provider) uid => m.withUids (addUid m.uids uid)) (dedupeUids uids)).weaken ?_ ?_
    · rintro _ v ⟨hnext, hmachine⟩
      refine ⟨hpassed.trans hnext, ?_⟩
      rw [hmachine, Ensures.foldl_withUids]
      exact hrules
    · exact fun _ _ hfails => hpassed.fails_iff.mp hfails

/-- An apply without a failure has sent everything; one with a failure has met a failing exchange. -/
theorem policy_from : From s (Prog.attempt (applyRulesWithPolicy (planRules plan).rules uids strict))
    (fun r t =>
      (r = .ok none → Passed (sends plan uids) s t ∧
      t.machine.rules = s.machine.rules.putAll (batchOf plan)) ∧
      (r ≠ .ok none → Fails (sends plan uids) s))
    fun _ _ => False := by
  refine Sat.attempt (Sat.attempt_bind applyRules_from (fun _ => ?_) fun err => ?_)
  · exact Sat.pure fun t ht => ⟨fun _ => ht, fun hne => absurd rfl hne⟩
  · have hremove : Sat (fun _ => True) (fun _ => True) (fun _ => Fails (sends plan uids) s)
        (Prog.attempt (removeRules (planRules plan).rules) : Op Provider _)
        (fun _ _ => Fails (sends plan uids) s)
        fun _ _ => Fails (sends plan uids) s :=
      fun _ hs _ => ⟨fun _ _ => trivial, hs⟩
    have hfailed : ∀ {r : Except Error (Option String)} {t : Session Provider}, r ≠ .ok none →
        Fails (sends plan uids) s →
        (r = .ok none → Passed (sends plan uids) s t ∧
          t.machine.rules = s.machine.rules.putAll (batchOf plan)) ∧
          (r ≠ .ok none → Fails (sends plan uids) s) :=
      fun hne hfails => ⟨fun heq => absurd heq hne, fun _ => hfails⟩
    refine Sat.bind (hremove.weaken (fun _ _ hs => hs) fun _ _ hs => hfailed (by simp) hs) fun r => ?_
    cases r with
    | error cleanup => exact Sat.fail fun _ hs => hfailed (by simp) hs
    | ok _ =>
      show Sat _ _ _ (if strict then _ else _) _ _
      by_cases hstrict : strict = true
      · rw [if_pos hstrict]
        exact Sat.fail fun _ hs => hfailed (by simp) hs
      · rw [if_neg hstrict]
        exact Sat.pure fun _ hs => hfailed (by simp) hs

end Batches

section Outcomes

/-- The phase has ended before its read-back, and says nothing that the table could belie. -/
def Early (plan : MountPlan) (end_ : PhaseEnd) : Prop :=
  ∃ outcome, end_ = .returned outcome ∧ ∀ stats, outcome = .ok stats →
    (stats.failure = none → plan.vfsModuleIds = []) ∧ (stats.failure ≠ none → stats.activeTargets = [])

theorem Early.failed {e : Error} : Early plan (.returned (.error e)) := ⟨_, rfl, fun _ h => by cases h⟩

theorem Early.failure {detail : String} : Early plan (.returned (.ok (vfsFailureStats detail))) := by
  refine ⟨_, rfl, fun stats h => ?_⟩
  obtain rfl : vfsFailureStats detail = stats := Except.ok.inj h
  exact ⟨fun hnone => (by cases hnone), fun _ => rfl⟩

theorem Early.degraded {e : Error} : Early plan (.returned (degrade strict e)) := by
  unfold degrade
  split
  · exact .failed
  · exact .failure

theorem not_rejected (hpayloads : buildAddRulePayloads format (planRules plan).rules = .ok ())
    (hfind : (m.rules.rules.find? fun rule => rule.uid == 0 && !derivedParent rule &&
      ((planRules plan).rules.map EncodedRule.virtualPath).contains rule.virtualPath) = none) :
        ¬ Rejected plan format m := by
  rintro (h | ⟨rule, hrule, huid, hderived, hpath⟩)
  · rw [hpayloads] at h
    cases h
  · have hnot := List.find?_eq_none.mp hfind rule hrule
    have hpath' : rule.virtualPath ∈ (planRules plan).rules.map EncodedRule.virtualPath := by
      simpa [batchOf, EncodedRule.record] using hpath
    simp [huid, hderived, hpath'] at hnot

theorem preflight_from :
    From s (Prog.attempt (if nomount then preflightNomount format (planRules plan).rules else pure ()))
    (fun r t => (r = .ok () → Passed (if nomount then 1 else 0) s t ∧ t.machine = s.machine ∧
        ¬ (nomount = true ∧ Rejected plan format s.machine)) ∧
      (r ≠ .ok () → nomount = true ∧ Rejected plan format s.machine ∨ Fails (if nomount then 1 else 0) s))
    fun _ _ => False := by
  cases nomount with
  | false =>
    exact Sat.attempt (From.pure ⟨fun _ => ⟨.refl s, rfl, fun h => by cases h.1⟩, fun hne => absurd rfl hne⟩)
  | true =>
    refine Sat.attempt ?_
    refine Sat.bind (Q := fun _ t => t = s ∧ buildAddRulePayloads format (planRules plan).rules = .ok ())
      (Sat.ofExcept (fun _ _ hok hs => ⟨hs, hok⟩) fun e _ herr _ => ?_) fun _ => From.each ?_
    · refine ⟨fun heq => (by cases heq), fun _ => .inl ⟨rfl, .inl ?_⟩⟩
      rw [herr]
      rfl
    · rintro s' ⟨hs, hpayloads⟩
      obtain rfl := hs.symm
      refine Sat.bind (list_from.weaken (fun _ _ hs => hs) fun _ _ hs => ?_) fun existing => From.each ?_
      · exact ⟨fun heq => (by cases heq), fun _ => .inr hs.1⟩
      · rintro t ⟨hpassed, hmachine, rfl⟩
        split
        · rename_i rule hfind
          refine Sat.fail fun _ _ => ⟨fun heq => (by cases heq), fun _ => ?_⟩
          have hmatch := List.find?_some hfind
          simp only [Bool.and_eq_true, beq_iff_eq, Bool.not_eq_true', List.contains_iff_mem] at hmatch
          refine .inl ⟨rfl, .inr ⟨rule, List.mem_of_find?_eq_some hfind, hmatch.1.1, hmatch.1.2, ?_⟩⟩
          simpa [batchOf, EncodedRule.record] using hmatch.2
        · rename_i hfind
          exact From.pure ⟨fun _ => ⟨hpassed, hmachine, fun h => not_rejected hpayloads hfind h.2⟩,
            fun hne => absurd rfl hne⟩

/-- The phase gets to its read-back. -/
structure Reaches (config : Config) (plan : MountPlan) (nomount : Bool) (entry : VfsEntry)
    (s : Session Provider) : Prop where
  ready : ¬ Skipped plan nomount entry
  accepted : ¬ (nomount = true ∧ Rejected plan entry.format s.machine)
  calm : ¬ Fails (exchanges config plan nomount) s

/-- How a phase from `s` may end: early, and with a reason, or with what the read-back makes of the table. -/
inductive Ended (config : Config) (plan : MountPlan) (nomount : Bool) (entry : VfsEntry)
    (s t : Session Provider) : PhaseEnd → Prop
  | early {phase : PhaseEnd} : Early plan phase → ¬ Reaches config plan nomount entry s →
      Ended config plan nomount entry s t phase
  | confirmed : Reaches config plan nomount entry s →
      t.machine.rules = s.machine.rules.putAll (batchOf plan) →
      s.faults[exchanges config plan nomount]?.join = none →
      missingRules (planRules plan).rules (s.machine.rules.putAll (batchOf plan)).rules = [] →
      Ended config plan nomount entry s t (.returned (.ok (planRules plan).stats))
  | panicked : Reaches config plan nomount entry s →
      (s.faults[exchanges config plan nomount]?.join = none →
        missingRules (planRules plan).rules (s.machine.rules.putAll (batchOf plan)).rules ≠ []) →
      Ended config plan nomount entry s t .panicked

theorem confirm_from (hreaches : Reaches config plan nomount entry s)
    (hrules : t.machine.rules = s.machine.rules.putAll (batchOf plan))
    (hfaults : t.faults = s.faults.drop (exchanges config plan nomount)) :
    From t (confirmApplied (planRules plan)) (fun out u => Ended config plan nomount entry s u out.2)
      fun _ _ => False := by
  have hnext : t.faults.head?.join = s.faults[exchanges config plan nomount]?.join := by
    rw [hfaults, List.head?_drop]
  refine Sat.attempt_bind list_from (fun listed => From.each ?_) fun err => From.each ?_
  · rintro u ⟨hpassed, hmachine, rfl⟩
    have hread : s.faults[exchanges config plan nomount]?.join = none := by
      rw [← hnext]
      exact Option.not_isSome_iff_eq_none.mp fun hsome => hpassed.1 (fails_one.mpr hsome)
    show Sat _ _ _ (if missingRules (planRules plan).rules t.machine.rules.rules = [] then _ else _) _ _
    rw [hrules]
    split
    · rename_i hmissing
      exact From.pure (.confirmed hreaches (by rw [hmachine, hrules]) hread hmissing)
    · rename_i hmissing
      exact From.pure (.panicked hreaches fun _ => hmissing)
  · rintro u ⟨hfails, -⟩
    refine From.pure (.panicked hreaches fun hnone => ?_)
    rw [fails_one, hnext, hnone] at hfails
    cases hfails

theorem phase_from :
    From s (applyVfsPhase config plan nomount entry) (fun out t => Ended config plan nomount entry s t out.2)
    fun _ _ => False := by
  have hskip : Skipped plan nomount entry → ¬ Reaches config plan nomount entry s := fun h hr => hr.ready h
  unfold applyVfsPhase
  split
  · rename_i hnone
    refine Sat.pure fun _ _ => .early ⟨_, rfl, fun stats hh => ?_⟩ (hskip (.inl hnone))
    cases hh
    exact ⟨fun _ => hnone, fun hne => absurd rfl hne⟩
  · split
    · rename_i hguard
      exact Sat.pure fun _ _ => .early .failure (hskip (.inr (.inl (by rw [hguard]; rfl))))
    · rename_i harm
      exact Sat.pure fun _ _ => .early .failed (hskip (.inr (.inr (.inl (by rw [harm]; rfl)))))
    · rename_i hattach
      exact Sat.pure fun _ _ => .early .degraded (hskip (.inr (.inr (.inr (by rw [hattach]; rfl)))))
    · rename_i hmodules _ _ _ _ _ _ hguard harm hattach
      have hready : ¬ Skipped plan nomount entry := by
        unfold Skipped
        rw [hguard, harm, hattach]
        simp [hmodules, Except.isOk, Except.toBool]
      refine Sat.bind preflight_from fun r => From.each ?_
      rintro t ⟨hpassed, hstopped⟩
      cases r with
      | error err =>
        refine From.pure (.early .degraded fun hr => ?_)
        rcases hstopped (by simp) with h | h
        · exact hr.accepted h
        · exact hr.calm h.mono
      | ok _ =>
        obtain ⟨hfirst, hmachine, haccepted⟩ := hpassed rfl
        refine Sat.bind policy_from fun r => From.each ?_
        rintro u ⟨hsent, hrefused⟩
        have hcalm : Fails (sends plan config.isolateUids) t → ¬ Reaches config plan nomount entry s :=
          fun h hr => hr.calm (hfirst.fails_iff.mp h)
        rcases r with err | _ | failure
        · exact From.pure (.early .failed (hcalm (hrefused (by simp))))
        · obtain ⟨hsecond, hrules⟩ := hsent rfl
          have hall := hfirst.trans hsecond
          exact confirm_from ⟨hready, haccepted, hall.1⟩ (by rw [hrules, hmachine]) hall.2
        · exact From.pure (.early .failure (hcalm (hrefused (by simp))))

end Outcomes

theorem missingRules_nil {listed : List SavedRule} : missingRules (planRules plan).rules listed = [] ↔
    ∀ rule ∈ batchOf plan, ∃ e ∈ listed, e.virtualPath = rule.virtualPath := by
  simp [missingRules, batchOf, EncodedRule.record]

theorem truthful_of_not_reaches (h : ¬ Reaches config plan nomount entry s) :
    Truthful config plan nomount entry s := by
  by_contra hfalse
  simp only [Truthful, not_or] at hfalse
  exact h ⟨hfalse.1, hfalse.2.1, hfalse.2.2.1⟩

theorem Reaches.truthful_iff (h : Reaches config plan nomount entry s) :
    Truthful config plan nomount entry s ↔
    s.faults[exchanges config plan nomount]?.join = none ∧
      ∀ rule ∈ batchOf plan, Installed rule (s.machine.rules.putAll (batchOf plan)).rules := by
  constructor
  · rintro (hs | hs | hs | hs)
    · exact absurd hs h.ready
    · exact absurd hs h.accepted
    · exact absurd hs h.calm
    · exact hs
  · exact fun hs => .inr (.inr (.inr hs))

theorem missingRules_of_installed {listed : List SavedRule}
    (h : ∀ rule ∈ batchOf plan, Installed rule listed) :
    missingRules (planRules plan).rules listed = [] := by
  refine missingRules_nil.mpr fun rule hrule => ?_
  obtain ⟨e, he, hpath, -⟩ := h rule hrule
  exact ⟨e, he, hpath⟩

def hostsPlan : MountPlan :=
    ⟨[⟨.inject "/system/etc/hosts" "/data/adb/modules/hosts/system/etc/hosts", "hosts"⟩], ["hosts"], [], []⟩

def openEntry : VfsEntry := ⟨.ok (), .ok (), .ok .hm, .hybridMount⟩

/-- The table of another program's isolated app, behind a provider that stores records as told. -/
def privateTable (store : SavedRule → List SavedRule → List SavedRule) : Machine Provider where
  rules := ⟨[⟨"", "/system/etc/hosts", "/data/local/hosts", 0, 10123⟩], store, fun _ rules => rules⟩
  uids := []
  stored := none
  root := 1
  mounts := []
  unmounts := []

end HybridMount.Boot
