import HybridMount.TransactionSafety

/-! The contract of a hot transaction: isolation before publication, intent
before mutation, and what the ledger file says after an error. -/

namespace HybridMount

open Traced

namespace Attempt

variable (c : Attempt)

/-- The uids which the transaction introduces; a refused one introduces none. -/
def introduces : List UInt32 :=
  match validateSnapshot c.start.rules.rules c.before c.after with
  | .ok _ => c.introduced
  | .error _ => []

/-- The ledger names every rule and uid that the transaction may leave behind. -/
structure Names (l : Ledger) : Prop where
  owned : c.saved.rules ⊆ l.rules ++ l.pendingRules
  after : c.after ⊆ l.rules ++ l.pendingRules
  isolated : c.saved.isolatedUids ⊆ l.isolatedUids
  introduced : c.introduced ⊆ l.isolatedUids

/-- The file says that nothing happened, and nothing did. -/
structure RolledBack (m : Machine FlatTable) (l : Ledger) : Prop where
  phase : l.phase = .ready
  kept : ExplicitIn (bareKey c.before) c.start.rules.rules m.rules.rules
  added : ExplicitIn (bareKey c.before) m.rules.rules c.start.rules.rules
  uids : ∀ uid, uid ∈ m.uids ↔ uid ∈ c.start.uids
  rules : l.rules = c.saved.rules
  isolated : l.isolatedUids = c.saved.isolatedUids
  pending : l.pendingRules = c.saved.pendingRules

/-- The file demands a recovery and names all that may be live. -/
structure Interrupted (m : Machine FlatTable) (l : Ledger) : Prop where
  phase : l.phase ≠ .ready ∧ l.phase ≠ .clean
  names : c.Names l
  rules : ∀ r ∈ m.rules.rules, r ∈ c.start.rules.rules ∨
    ∃ x ∈ l.rules ++ l.pendingRules, semanticEqual x r = true
  uids : ∀ uid ∈ m.uids, uid ∈ c.start.uids ∨ uid ∈ l.isolatedUids

/-- The ledger as loaded from the file, up to the provider which the caller has found. -/
def Loaded : Prop := ∃ provider, c.start.stored = some { c.saved with vfsProvider := provider }

def run (faults : List (Option Fault)) : Run (Session FlatTable) (Event FlatTable) Error Ledger :=
  Transaction.reconcile c.saved c.before c.after c.requested ⟨c.start, faults⟩

variable {c}

theorem marked_names : c.Names c.marked where
  owned := List.subset_append_left _ _
  after := fun _ ha => List.mem_append_right _ (List.mem_append_right _ ha)
  isolated := fun _ hu => mem_sortedSet.mpr (List.mem_append_left _ hu)
  introduced := fun _ hu => mem_sortedSet.mpr (List.mem_append_right _ hu)

theorem interrupted_of_ambit {m : Machine FlatTable} {l : Ledger} (ha : c.Ambit m) (hn : c.Names l)
    (hp : l.phase ≠ .ready ∧ l.phase ≠ .clean) (howned : c.before ⊆ c.saved.rules) : c.Interrupted m l where
  phase := hp
  names := hn
  rules r hr := by
    rcases ha.within.origin r hr with h0 | ⟨x, hx, rfl⟩
    · exact .inl h0
    · refine .inr ⟨x, ?_, semanticEqual_wire x⟩
      rcases List.mem_append.mp hx with hb | ha'
      · exact hn.owned (howned hb)
      · exact hn.after ha'
  uids u hu := by
    rcases List.mem_append.mp (ha.upper hu) with h0 | hi
    · exact .inl h0
    · exact .inr (hn.introduced hi)

theorem explicitIn_refl {except : Key → Prop} (xs : List SavedRule) : ExplicitIn except xs xs :=
  fun r hr hd _ => ⟨r, hr, hd, semanticEqual_refl r⟩

theorem rolledBack_untouched {m : Machine FlatTable} (hl : c.Loaded) (hready : c.saved.phase = .ready)
    (hs : m.stored = c.start.stored) (hr : m.rules = c.start.rules) (hu : m.uids = c.start.uids) :
    ∃ l, m.stored = some l ∧ c.RolledBack m l := by
  obtain ⟨provider, hl⟩ := hl
  refine ⟨_, hs.trans hl, hready, ?_, ?_, fun uid => hu ▸ Iff.rfl, rfl, rfl, rfl⟩
  · rw [hr]; exact explicitIn_refl _
  · rw [hr]; exact explicitIn_refl _

theorem verdict_sound {m : Machine FlatTable} (hl : c.Loaded) (hready : c.saved.phase = .ready)
    (hpend : c.saved.pendingRules = []) (howned : c.before ⊆ c.saved.rules) (ha : c.Ambit m)
    (hv : c.Verdict m) : ∃ l, m.stored = some l ∧ (c.RolledBack m l ∨ c.Interrupted m l) := by
  have hmarked := @marked_names c
  cases hv with
  | untouched hs hr hu =>
    obtain ⟨l, hl, hrb⟩ := rolledBack_untouched hl hready hs hr hu
    exact ⟨l, hl, .inl hrb⟩
  | marked hs =>
    refine ⟨_, hs, .inr (interrupted_of_ambit ha hmarked ⟨?_, ?_⟩ howned)⟩
    all_goals exact Phase.noConfusion
  | failed err hs =>
    have hn : c.Names (Transaction.concluded c.saved c.marked err false) :=
      ⟨hmarked.owned, hmarked.after, hmarked.isolated, hmarked.introduced⟩
    refine ⟨_, hs, .inr (interrupted_of_ambit ha hn ⟨?_, ?_⟩ howned)⟩
    all_goals exact Phase.noConfusion
  | recovered err hs hundone =>
    refine ⟨_, hs, .inl ⟨rfl, hundone.rules.kept, hundone.rules.added, fun uid => ?_, rfl, rfl, hpend.symm⟩⟩
    exact ⟨fun h => hundone.upper h, fun h => hundone.lower h⟩

section

variable {G : Event FlatTable → Prop}

/-- A refused pair is only read. -/
theorem refused_untouched {e : Error}
    (hv : validateSnapshot c.start.rules.rules c.before c.after = .error e) :
    Ensures G (fun e => e.action.operation = .list) (· = c.start)
      (Transaction.reconcile c.saved c.before c.after c.requested) (fun _ _ => False)
      (fun _ m => m = c.start) := by
  have hlist : Ensures G (fun e => e.action.operation = .list) (· = c.start) Op.list
      (fun current m => m = c.start ∧ current = c.start.rules.rules) (fun _ m => m = c.start) := by
    refine Ensures.query (fun _ _ ha _ => ha) ?_ fun _ _ hm _ => hm
    rintro m rfl
    exact ⟨rfl, rfl⟩
  have hcheck : ∀ current, Ensures G (fun e => e.action.operation = .list)
      (fun m => m = c.start ∧ current = c.start.rules.rules)
      (Prog.ofExcept (validateSnapshot current c.before c.after)) (fun _ _ => False)
      (fun _ m => m = c.start) := by
    intro current
    refine Sat.ofExcept ?_ fun _ _ _ hs => hs.1
    rintro foreign s hok ⟨-, rfl⟩
    rw [hv] at hok
    cases hok
  have hpre : Ensures G (fun e => e.action.operation = .list) (· = c.start)
      (Rules.preflight c.before c.after) (fun _ _ => False) (fun _ m => m = c.start) :=
    Sat.bind hlist fun current => Sat.bind (hcheck current) fun _ _ hs => hs.elim
  exact Sat.bind hpre fun _ _ hs => hs.elim

end

theorem query_quiet {α : Type} {operation : Operation} {read : Machine FlatTable → α}
    {m₀ : Machine FlatTable} (hop : operation.mutates = false) :
    Ensures (fun _ => True) (fun e => ¬ e.action.operation.mutates = true) (· = m₀)
      (Op.query operation read) (fun a m => m = m₀ ∧ a = read m₀) (fun _ _ => True) := by
  refine Ensures.query (fun action m ha _ => ?_) ?_ fun _ _ _ _ => trivial
  · change ¬ action.operation.mutates = true
    rw [ha, hop]
    exact Bool.false_ne_true
  · rintro m rfl
    exact ⟨rfl, rfl⟩

theorem preflight_quiet {m₀ : Machine FlatTable} (before after : List SavedRule) :
    Ensures (fun _ => True) (fun e => ¬ e.action.operation.mutates = true) (· = m₀)
      (Rules.preflight before after) (fun _ m => m = m₀) (fun _ _ => True) := by
  refine Sat.bind (query_quiet rfl) fun current => Sat.bind (Q := fun _ s => s.machine = m₀) ?_ fun _ => ?_
  · exact Sat.ofExcept (fun _ _ _ hs => hs.1) fun _ _ _ _ => trivial
  · exact Sat.pure fun _ hs => hs

theorem persist_quiet (l : Ledger) (s : Session FlatTable) :
    ∀ e ∈ (Op.persist l s).trace, ¬ e.action.operation.mutates = true := by
  have hp : Ensures (fun _ => True) (fun e => ¬ e.action.operation.mutates = true) (· = s.machine)
      (Op.persist l) (fun _ _ => True) (fun _ _ => True) := by
    refine (Ensures.persist l fun action x y ha _ _ => ?_).weaken (fun _ _ _ => trivial) fun _ _ _ => trivial
    change ¬ action.operation.mutates = true
    rw [ha]
    exact Bool.false_ne_true
  exact hp.events rfl fun _ _ => trivial

/-- Nothing is mutated before the intent has been persisted. -/
theorem intent_precedes (c : Attempt) (faults : List (Option Fault)) :
    Precedes (fun e => ∃ l, e.action = .done (.persist l) ∧ c.Names l)
      (fun e => e.action.operation.mutates = true) (c.run faults).trace := by
  have hpre := @preflight_quiet c.start c.before c.after
  refine Precedes.bind (hpre.events rfl fun _ _ => trivial) fun _ hok => .inr ?_
  have hs := hpre.of_ok rfl (fun _ _ => trivial) hok
  generalize (Rules.preflight c.before c.after ⟨c.start, faults⟩).state = s at hs ⊢
  have huids := @query_quiet _ .uids Machine.uids c.start rfl
  refine Precedes.bind (huids.events hs fun _ _ => trivial) fun original hok => .inr ?_
  obtain ⟨-, rfl⟩ := huids.of_ok hs (fun _ _ => trivial) hok
  refine Precedes.bind (fun _ he => absurd he List.not_mem_nil) fun _ _ => .inr ?_
  refine Precedes.bind (persist_quiet c.marked _) fun _ hok => .inl ?_
  obtain ⟨e, he, ha⟩ := Op.batch_done hok
  exact ⟨e, he, c.marked, ha, marked_names⟩

/-- New rules are live only while every new uid is isolated, and a uid is released
only where no new rule is live and every saved rule is. -/
theorem isolation_before_publication (c : Attempt) (faults : List (Option Fault))
    (howned : c.before ⊆ c.saved.rules) (hexplicit : c.Explicit) :
    (∀ e ∈ (c.run faults).trace,
      (c.Published e.before → c.introduces ⊆ e.before.uids) ∧
      (c.Published e.after → c.introduces ⊆ e.after.uids)) ∧
    (c.Published (c.run faults).state.machine → c.introduces ⊆ (c.run faults).state.machine.uids) ∧
    ∀ e ∈ (c.run faults).trace, ∀ uids, e.action.operation = .removeUids uids →
      ¬ c.Published e.before ∧ c.OwnedLive e.before := by
  cases hv : validateSnapshot c.start.rules.rules c.before c.after with
  | error e =>
    have hnone : c.introduces = [] := by simp only [introduces, hv]
    have hspec := refused_untouched (G := fun _ => True) hv
    refine ⟨fun _ _ => ?_, ?_, fun e he uids hop => ?_⟩
    · rw [hnone]
      exact ⟨fun _ => List.nil_subset _, fun _ => List.nil_subset _⟩
    · rw [hnone]
      exact fun _ => List.nil_subset _
    · have hlist := hspec.events rfl (fun _ _ => trivial) e he
      rw [hop] at hlist
      cases hlist
  | ok foreign =>
    have hsome : c.introduces = c.introduced := by simp only [introduces, hv]
    have h : c.Accepted foreign := ⟨hv, howned⟩
    have hspec := reconcile_guarded (G := fun _ => True) h
    have hevents := hspec.events (s := ⟨c.start, faults⟩) rfl fun _ _ => trivial
    rw [hsome]
    refine ⟨fun e he => ?_, ?_, fun e he uids hop => ?_⟩
    · exact ⟨(hevents e he).pre.covered hexplicit, (hevents e he).post.covered hexplicit⟩
    · cases hr : (c.run faults).result with
      | ok saved =>
        obtain ⟨-, happlied⟩ := hspec.of_ok rfl (fun _ _ => trivial) hr
        exact happlied.working.ambit.covered hexplicit
      | error err =>
        obtain ⟨hambit, -⟩ := hspec.of_error rfl (fun _ _ => trivial) hr
        exact hambit.covered hexplicit
    · have hret := (hevents e he).removal uids hop
      exact ⟨not_published_of_retracted h hexplicit (hevents e he).pre.within hret, hret.owned⟩

/-- The intent is on record before any mutation, and after an error the file
either says truly that nothing happened or names all that may be live. -/
theorem recovery_verdict (c : Attempt) (faults : List (Option Fault)) (hloaded : c.Loaded)
    (hready : c.saved.phase = .ready) (hpending : c.saved.pendingRules = [])
    (howned : c.before ⊆ c.saved.rules) :
    Precedes (fun e => ∃ l, e.action = .done (.persist l) ∧ c.Names l)
      (fun e => e.action.operation.mutates = true) (c.run faults).trace ∧
    ∀ err, (c.run faults).result = .error err →
      ∃ l, (c.run faults).state.machine.stored = some l ∧
        (c.RolledBack (c.run faults).state.machine l ∨ c.Interrupted (c.run faults).state.machine l) := by
  refine ⟨intent_precedes c faults, fun err hr => ?_⟩
  cases hv : validateSnapshot c.start.rules.rules c.before c.after with
  | error e =>
    have hsame := (refused_untouched (G := fun _ => True) hv).of_error rfl (fun _ _ => trivial) hr
    have hm : (c.run faults).state.machine = c.start := hsame
    rw [hm]
    obtain ⟨l, hl, hrb⟩ := rolledBack_untouched hloaded hready rfl rfl rfl
    exact ⟨l, hl, .inl hrb⟩
  | ok foreign =>
    have h : c.Accepted foreign := ⟨hv, howned⟩
    obtain ⟨hambit, hverdict⟩ :=
      (reconcile_guarded (G := fun _ => True) h).of_error rfl (fun _ _ => trivial) hr
    exact verdict_sound hloaded hready hpending howned hambit hverdict

def readyLedger (rules : List SavedRule) : Ledger :=
  { Ledger.fresh "boot" "mnt" with phase := .ready, rules := rules }

/-- Replace the one saved rule, listed as `live`, and isolate a uid on the way. -/
def replacement (old live : SavedRule) (after : List SavedRule) (requested : List UInt32) : Attempt where
  saved := readyLedger [old]
  before := [old]
  after := after
  requested := requested
  start :=
    { rules := ⟨[live], FlatTable.unique_single live⟩
      uids := []
      stored := some (readyLedger [old])
      root := 1
      mounts := []
      unmounts := [] }

def newHostsRule : SavedRule := ⟨"hosts", "/system/etc/hosts", "/data/new/hosts", 0, 0⟩

/-- The put of the new rule is reported as failed after it took effect. -/
def interruptedPut : List (Option Fault) :=
  [none, none, none, none, none, none, some ⟨1, "injected kernel failure"⟩]

def hostsReplacement : Attempt :=
  replacement Rules.hostsRule Rules.hostsRule [newHostsRule] [10001]

theorem isolation_before_publication_hosts :
    (∀ e ∈ (hostsReplacement.run interruptedPut).trace,
      (hostsReplacement.Published e.before → hostsReplacement.introduces ⊆ e.before.uids) ∧
      (hostsReplacement.Published e.after → hostsReplacement.introduces ⊆ e.after.uids)) ∧
    ∀ e ∈ (hostsReplacement.run interruptedPut).trace, ∀ uids,
      e.action.operation = .removeUids uids →
        ¬ hostsReplacement.Published e.before ∧ hostsReplacement.OwnedLive e.before :=
  have h := isolation_before_publication hostsReplacement interruptedPut (fun _ h => h)
    (by unfold Explicit; decide)
  ⟨h.1, h.2.2⟩

theorem recovery_verdict_hosts :
    ∃ l, (hostsReplacement.run interruptedPut).state.machine.stored = some l ∧
      (hostsReplacement.RolledBack (hostsReplacement.run interruptedPut).state.machine l ∨
        hostsReplacement.Interrupted (hostsReplacement.run interruptedPut).state.machine l) :=
  (recovery_verdict hostsReplacement interruptedPut ⟨none, rfl⟩ rfl rfl (fun _ h => h)).2
    (.hotRolledBack (.ruleRolledBack (.msg "injected kernel failure"))) (by decide)

/-- The deletion of the only rule is reported as failed after it took effect. -/
def interruptedUnload : List (Option Fault) :=
  [none, none, none, none, none, some ⟨1, "injected kernel failure"⟩]

/-- A ledger in phase ready does not vouch for a bare rule. -/
theorem bare_verdict_unsound :
    ¬ ∀ (c : Attempt) (faults : List (Option Fault)), c.Loaded → c.saved.phase = .ready →
      c.saved.pendingRules = [] → c.before ⊆ c.saved.rules →
      ∀ err, (c.run faults).result = .error err →
        ∃ l, (c.run faults).state.machine.stored = some l ∧
          ((l.phase = .ready ∧ ExplicitIn (fun _ => False) (c.run faults).state.machine.rules.rules
              c.start.rules.rules) ∨ (l.phase ≠ .ready ∧ l.phase ≠ .clean)) := by
  intro h
  obtain ⟨l, hl, hv⟩ := h (replacement Rules.bareRule Rules.derivedDirectory [] []) interruptedUnload
    ⟨none, rfl⟩ rfl rfl (fun _ h => h) (.hotRolledBack (.ruleRolledBack (.msg "injected kernel failure")))
    (by decide)
  have hphase : ((replacement Rules.bareRule Rules.derivedDirectory [] []).run
      interruptedUnload).state.machine.stored.map Ledger.phase = some .ready := by decide
  rw [hl] at hphase
  rcases hv with ⟨-, hexp⟩ | ⟨hno, -⟩
  · obtain ⟨r, hr, hd, -⟩ := hexp Rules.bareRule (by decide) (by decide) not_false
    have hlive : r = Rules.derivedDirectory := List.mem_singleton.mp hr
    rw [hlive] at hd
    exact absurd hd (by decide)
  · exact hno (Option.some.inj hphase)

end Attempt

end HybridMount
