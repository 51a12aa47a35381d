import HybridMount.Transaction

/-! Every intermediate state of a hot transaction: new rules are live only while
the new uids are isolated, and the ledger file accounts for what is live. -/

namespace HybridMount

open Traced

/-- A request to the transaction and the machine which it starts from. -/
structure Attempt where
  saved : Ledger
  before : List SavedRule
  after : List SavedRule
  requested : List UInt32
  start : Machine FlatTable

namespace Attempt

variable (c : Attempt)

def introduced : List UInt32 := Transaction.introducedUids c.start.uids c.requested

def marked : Ledger := Transaction.intent c.saved c.before c.after c.introduced

/-- Some new rule that is not an old one is live. -/
def Published (m : Machine FlatTable) : Prop :=
  ∃ a ∈ c.after, (∀ b ∈ c.before, semanticEqual b a = false) ∧ ∃ r ∈ m.rules.rules, semanticEqual a r = true

/-- No new rule has the form of a generated parent. -/
def Explicit : Prop := ∀ a ∈ c.after, derivedParent a = false

/-- Every saved rule is live with its payload. -/
def OwnedLive (m : Machine FlatTable) : Prop :=
  ∀ rule ∈ c.saved.rules, ∃ r ∈ m.rules.rules, semanticEqual rule r = true

structure Ambit (m : Machine FlatTable) : Prop where
  within : Within c.before c.after c.after c.start.rules m.rules
  lower : c.start.uids ⊆ m.uids
  upper : m.uids ⊆ c.start.uids ++ c.introduced
  covered : c.Explicit → c.Published m → c.introduced ⊆ m.uids

/-- The kernel is as at the start, up to bare owned rules. -/
structure Undone (m : Machine FlatTable) : Prop where
  rules : Restored c.before c.after c.start.rules m.rules
  lower : c.start.uids ⊆ m.uids
  upper : m.uids ⊆ c.start.uids

/-- What the ledger file says about the machine. -/
inductive Verdict (m : Machine FlatTable) : Prop
  | untouched : m.stored = c.start.stored → m.rules = c.start.rules → m.uids = c.start.uids → Verdict m
  | marked : m.stored = some c.marked → Verdict m
  | failed (err : Error) : m.stored = some (Transaction.concluded c.saved c.marked err false) → Verdict m
  | recovered (err : Error) : m.stored = some (Transaction.concluded c.saved c.marked err true) →
      c.Undone m → Verdict m

/-- The old rules are back and no new key is explicit. -/
structure Retracted (m : Machine FlatTable) : Prop where
  owned : c.OwnedLive m
  retired : Transaction.retired m.rules.rules c.before c.after = true

structure Guarded (e : Event FlatTable) : Prop where
  pre : c.Ambit e.before
  post : c.Ambit e.after
  preVerdict : c.Verdict e.before
  postVerdict : c.Verdict e.after
  removal : ∀ l, e.action.operation = .removeUids l → c.Retracted e.before
  marked : e.action.operation.mutates = true → e.before.stored = some c.marked

/-- A state between the persisted intent and the conclusion. -/
structure Working (m : Machine FlatTable) : Prop where
  ambit : c.Ambit m
  stored : m.stored = some c.marked

/-- The rules are applied in full, with every uid in place. -/
structure Applied (m : Machine FlatTable) : Prop where
  working : c.Working m
  isolated : c.start.uids ++ c.introduced ⊆ m.uids
  rules : m.rules = Rules.target c.before c.after c.start.rules

def Installed (outcome : Bool × Except Error Unit) (m : Machine FlatTable) : Prop :=
  c.Working m ∧ (outcome.1 = true → c.Applied m) ∧ (outcome.2 = .ok () → outcome.1 = true)

/-- The request concerns owned rules, and the preflight lets it pass. -/
structure Accepted (foreign : List SavedRule) : Prop where
  snapshot : validateSnapshot c.start.rules.rules c.before c.after = .ok foreign
  owned : c.before ⊆ c.saved.rules

variable {c} {foreign : List SavedRule} {G : Event FlatTable → Prop} {m m₁ : Machine FlatTable}

theorem introduced_not_mem {uid : UInt32} (h : uid ∈ c.introduced) : uid ∉ c.start.uids :=
  (Transaction.mem_introducedUids.mp h).2

theorem start_not_published (h : c.Accepted foreign) (hr : m.rules = c.start.rules) : ¬ c.Published m := by
  rintro ⟨a, ha, hnew, r, hlive, heq⟩
  rw [hr] at hlive
  have hk : r.key = a.key := (semanticEqual_key heq).symm
  by_cases hb : ∀ old ∈ c.before, old.key ≠ a.key
  · exact Rules.no_entry_of_introduced h.snapshot ha hb hlive hk
  · push Not at hb
    obtain ⟨b, hb, hbk⟩ := hb
    have hpresent := (validateSnapshot_eq_ok.mp h.snapshot).2.2.1 b hb
    have hba := Rules.semanticEqual_of_live hbk hpresent hlive heq
    rw [hnew b hb] at hba
    cases hba

/-- The two recovery checks exclude every new rule. -/
theorem not_published_of_retracted (h : c.Accepted foreign) (he : c.Explicit)
    (hw : Within c.before c.after c.after c.start.rules m.rules) (hm : c.Retracted m) : ¬ c.Published m := by
  rintro ⟨a, ha, hnew, r, hr, heq⟩
  have hk : r.key = a.key := (semanticEqual_key heq).symm
  by_cases hb : ∀ old ∈ c.before, old.key ≠ a.key
  · have hder := Transaction.retired_iff.mp hm.retired a ha hb r hr hk
    rcases hw.origin r hr with h0 | ⟨x, hx, rfl⟩
    · exact Rules.no_entry_of_introduced h.snapshot ha hb h0 hk
    · rcases List.mem_append.mp hx with hxb | hxa
      · exact hb x hxb hk
      · rw [derivedParent_wire, he x hxa] at hder
        cases hder
  · push Not at hb
    obtain ⟨b, hb, hbk⟩ := hb
    have hba := Rules.semanticEqual_of_live hbk (hm.owned b (h.owned hb)) hr heq
    rw [hnew b hb] at hba
    cases hba

theorem guarded_of_working {action : Action} {x y : Machine FlatTable} (hx : c.Working x) (hy : c.Working y)
    (hno : ∀ l, action.operation ≠ .removeUids l) : c.Guarded ⟨action, false, x, y⟩ where
  pre := hx.ambit
  post := hy.ambit
  preVerdict := .marked hx.stored
  postVerdict := .marked hy.stored
  removal l hl := absurd hl (hno l)
  marked _ := hx.stored

theorem guarded_mark {e : Event FlatTable} {flag : Bool} (h : c.Guarded e) :
    c.Guarded { e with recovering := flag } :=
  ⟨h.pre, h.post, h.preVerdict, h.postVerdict, h.removal, h.marked⟩

section

variable {α : Type}

theorem query_working {operation : Operation} {read : Machine FlatTable → α} (hw : c.Working m₁)
    (hop : operation.mutates = false) :
    Ensures G c.Guarded (· = m₁) (Op.query operation read) (fun a m => m = m₁ ∧ a = read m₁)
      (fun _ m => m = m₁) := by
  refine Ensures.query ?_ ?_ fun _ _ hm _ => hm
  · rintro action m ha rfl
    refine guarded_of_working hw hw fun l hl => ?_
    rw [ha] at hl
    rw [hl] at hop
    cases hop
  · rintro m rfl
    exact ⟨rfl, rfl⟩

theorem confirmUids_working (hw : c.Working m₁) (expected : List UInt32) :
    Ensures G c.Guarded (· = m₁) (Transaction.confirmUids expected)
      (fun _ m => m = m₁ ∧ expected ⊆ m₁.uids) (fun _ m => m = m₁) := by
  refine Sat.bind (query_working hw rfl) fun actual => Sat.ofExcept ?_ ?_
  · rintro _ s hv ⟨hs, rfl⟩
    exact ⟨hs, verifyUids_eq_ok.mp hv⟩
  · exact fun _ _ _ hs => hs.1

theorem addUids_ambit {us : List UInt32} (ha : c.Ambit m₁) (hrules : ¬ c.Published m₁)
    (hus : us ⊆ c.introduced) :
    c.Ambit (m₁.withUids (us.foldl addUid m₁.uids)) where
  within := ha.within
  lower u hu := mem_foldl_addUid.mpr (.inl (ha.lower hu))
  upper u hu := by
    rcases mem_foldl_addUid.mp hu with h | h
    · exact ha.upper h
    · exact List.mem_append_right _ (hus h)
  covered _ hp := absurd hp hrules

theorem isolate_working (hw : c.Working m₁) (hrules : ¬ c.Published m₁) :
    Ensures G c.Guarded (· = m₁) (Transaction.isolate c.introduced)
      (fun _ m => c.Working m ∧ m.rules = m₁.rules ∧ c.introduced ⊆ m.uids)
      (fun _ m => c.Working m ∧ m.rules = m₁.rules) := by
  have hpart : ∀ xs, xs ⊆ c.introduced → c.Working (m₁.withUids (xs.foldl addUid m₁.uids)) :=
    fun xs hxs => ⟨addUids_ambit hw.ambit hrules hxs, hw.stored⟩
  unfold Transaction.isolate
  split
  · rename_i hnil
    refine Sat.pure fun s hs => ?_
    rw [hs, hnil]
    exact ⟨hw, rfl, List.nil_subset _⟩
  · refine (Ensures.addUids c.introduced ?_).weaken ?_ ?_
    · intro action xs ys _ hno hxs hys
      exact guarded_of_working (hpart xs hxs) (hpart ys hys) hno
    · intro _ s hs
      rw [hs]
      exact ⟨hpart _ (List.Subset.refl _), rfl, fun u hu => mem_foldl_addUid.mpr (.inr hu)⟩
    · rintro _ s ⟨xs, hxs, hs⟩
      rw [hs]
      exact ⟨hpart xs hxs, rfl⟩

theorem within_trans {before after : List SavedRule} {t₀ t₁ t : FlatTable}
    (h : Within before after after t₀ t₁) (h' : Within before after after t₁ t) :
    Within before after after t₀ t where
  frame r hr := (h'.frame r hr).trans (h.frame r hr)
  origin r hr := by
    rcases h'.origin r hr with h1 | hx
    · exact h.origin r h1
    · exact .inr hx

theorem within_swap {before after : List SavedRule} {t₀ t : FlatTable} (h : Within after before before t₀ t) :
    Within before after after t₀ t where
  frame r hr := h.frame r fun x hx => hr x (by
    rcases List.mem_append.mp hx with ha | hb
    · exact List.mem_append_right _ ha
    · exact List.mem_append_left _ hb)
  origin r hr := by
    rcases h.origin r hr with h0 | ⟨x, hx, rfl⟩
    · exact .inl h0
    · refine .inr ⟨x, ?_, rfl⟩
      rcases List.mem_append.mp hx with ha | hb
      · exact List.mem_append_right _ ha
      · exact List.mem_append_left _ hb

theorem working_of_within {t : FlatTable} (hw : c.Working m₁) (hu : c.introduced ⊆ m₁.uids)
    (ht : Within c.before c.after c.after m₁.rules t) : c.Working (m₁.withRules t) :=
  ⟨⟨within_trans hw.ambit.within ht, hw.ambit.lower, hw.ambit.upper, fun _ _ => hu⟩, hw.stored⟩

theorem ruleStep_guarded {before after : List SavedRule} (hw : c.Working m₁) (hu : c.introduced ⊆ m₁.uids)
    (hsame : ∀ t, Within before after after m₁.rules t → Within c.before c.after c.after m₁.rules t)
    {e : Event FlatTable} (he : OwnedStep before after m₁ e) : c.Guarded e := by
  have hstate : ∀ {m}, Reached before after after m₁ m → c.Working m := by
    intro m hr
    rw [hr.same]
    exact working_of_within hw hu (hsame _ hr.within)
  have hno : ∀ l, e.action.operation ≠ .removeUids l := by
    intro l hl
    rcases he.kind with h | ⟨l', h | h⟩
    all_goals rw [hl] at h; cases h
  have hg := @guarded_of_working c e.action _ _ (hstate he.pre) (hstate he.post) hno
  exact ⟨hg.pre, hg.post, hg.preVerdict, hg.postVerdict, hg.removal, hg.marked⟩

theorem reconcile_working (hw : c.Working m₁) (hr : m₁.rules = c.start.rules)
    (hu : c.start.uids ++ c.introduced ⊆ m₁.uids) :
    Ensures G c.Guarded (· = m₁) (Rules.reconcile c.before c.after) (fun _ m => c.Applied m)
      (fun _ m => c.Working m) := by
  have hu' : c.introduced ⊆ m₁.uids := List.Subset.trans (List.subset_append_right _ _) hu
  have hreached : ∀ {m}, Reached c.before c.after c.after m₁ m → c.Working m := by
    intro m hm
    rw [hm.same]
    exact working_of_within hw hu' hm.within
  have hspec := @Rules.reconcile_spec G c.before c.after m₁
  refine (hspec.guarantee fun e he => ruleStep_guarded hw hu' (fun _ ht => ht) he).weaken ?_ ?_
  · rintro _ s ⟨hs, foreign', hv⟩
    have hx : Within c.before c.after c.after m₁.rules (Rules.target c.before c.after m₁.rules) :=
      ((Within.refl _ _ _ _).deleteAll Rules.obsolete_subset).putAll Rules.desired_subset (List.Subset.refl _)
    rw [hs]
    exact ⟨working_of_within hw hu' hx, hu, by rw [← hr]; rfl⟩
  · intro e s hs
    cases hs with
    | unlisted _ => exact hw
    | rejected _ => exact hw
    | restored hm _ => exact hreached hm
    | stuck hm _ => exact hreached hm

theorem install_working (h : c.Accepted foreign) (hw : c.Working m₁) (hr : m₁.rules = c.start.rules) :
    Ensures G c.Guarded (· = m₁)
      (Transaction.install c.before c.after c.introduced (c.start.uids ++ c.introduced))
      (c.Installed) (fun _ _ => False) := by
  have hfirst : Ensures G c.Guarded (· = m₁)
      (Transaction.isolate c.introduced >>= fun _ =>
        Transaction.confirmUids (c.start.uids ++ c.introduced) >>= fun _ =>
          Rules.reconcile c.before c.after) (fun _ m => c.Applied m) (fun _ m => c.Working m) := by
    refine Sat.bind ((isolate_working hw (start_not_published h hr)).weaken (fun _ _ hq => hq)
      fun _ _ he => he.1) fun _ => ?_
    have hrest : Ensures G c.Guarded
        (fun m => c.Working m ∧ m.rules = m₁.rules ∧ c.introduced ⊆ m.uids)
        (Transaction.confirmUids (c.start.uids ++ c.introduced) >>= fun _ =>
          Rules.reconcile c.before c.after) (fun _ m => c.Applied m) (fun _ m => c.Working m) := by
      refine Ensures.of_eq fun m hm => ?_
      obtain ⟨hwm, hrm, -⟩ := hm
      refine Sat.bind ((confirmUids_working hwm _).weaken (fun _ _ hq => hq) fun _ _ he => he ▸ hwm) fun _ =>
        ?_
      rintro s ⟨hs, hu⟩
      exact reconcile_working hwm (hrm.trans hr) hu s hs
    exact hrest
  have hattempt : Ensures G c.Guarded (· = m₁)
      (Prog.attempt (Transaction.isolate c.introduced >>= fun _ =>
        Transaction.confirmUids (c.start.uids ++ c.introduced) >>= fun _ =>
          Rules.reconcile c.before c.after))
      (fun r m => c.Working m ∧ (r = .ok () → c.Applied m)) (fun _ _ => False) := by
    refine Sat.attempt (hfirst.weaken ?_ ?_)
    · exact fun _ _ hs => ⟨hs.working, fun _ => hs⟩
    · exact fun _ _ hs => ⟨hs, fun hh => by cases hh⟩
  refine Sat.bind hattempt fun r => ?_
  cases r with
  | error err => exact Sat.pure fun s hs => ⟨hs.1, (fun hh => by cases hh), (fun hh => by cases hh)⟩
  | ok _ =>
    have hlast : Ensures G c.Guarded (fun m => c.Applied m)
        (Prog.attempt (Transaction.confirmUids (c.start.uids ++ c.introduced)) >>= fun outcome =>
          pure (true, outcome)) (c.Installed) (fun _ _ => False) := by
      refine Ensures.of_eq fun m hm => ?_
      have hconfirm : Ensures G c.Guarded (· = m)
          (Prog.attempt (Transaction.confirmUids (c.start.uids ++ c.introduced)))
          (fun _ m' => m' = m) (fun _ _ => False) :=
        Sat.attempt ((confirmUids_working hm.working _).weaken (fun _ _ hs => hs.1) fun _ _ hs => hs)
      refine Sat.bind hconfirm fun outcome => Sat.pure fun s hs => ?_
      rw [hs]
      exact ⟨hm.working, fun _ => hm, fun _ => rfl⟩
    exact hlast.strengthen fun s hs => hs.2 rfl

theorem retract_working {rulesApplied : Bool} (hw : c.Working m₁) (ha : rulesApplied = true → c.Applied m₁) :
    Ensures G c.Guarded (· = m₁) (Transaction.retract rulesApplied c.before c.after)
      (fun _ m => c.Working m) (fun _ _ => False) := by
  cases rulesApplied with
  | false => exact Sat.pure fun s hs => hs ▸ hw
  | true =>
    have hu : c.introduced ⊆ m₁.uids :=
      List.Subset.trans (List.subset_append_right _ _) (ha rfl).isolated
    have hreached : ∀ {m}, Reached c.after c.before c.before m₁ m → c.Working m := by
      intro m hm
      rw [hm.same]
      exact working_of_within hw hu (within_swap hm.within)
    have hspec := @Rules.reconcile_spec G c.after c.before m₁
    have hrec : Ensures G c.Guarded (· = m₁) (Rules.reconcile c.after c.before)
        (fun _ m => c.Working m) (fun _ m => c.Working m) := by
      refine (hspec.guarantee fun e he => ruleStep_guarded hw hu (fun _ ht => within_swap ht) he).weaken ?_ ?_
      · rintro _ s ⟨hs, -⟩
        have hx : Within c.after c.before c.before m₁.rules (Rules.target c.after c.before m₁.rules) :=
          ((Within.refl _ _ _ _).deleteAll Rules.obsolete_subset).putAll Rules.desired_subset
            (List.Subset.refl _)
        rw [hs]
        exact working_of_within hw hu (within_swap hx)
      · intro e s hs
        cases hs with
        | unlisted _ => exact hw
        | rejected _ => exact hw
        | restored hm _ => exact hreached hm
        | stuck hm _ => exact hreached hm
    exact Sat.attempt_ignore hrec

theorem rulesRecovered_working (hw : c.Working m₁) :
    Ensures G c.Guarded (· = m₁) (Transaction.rulesRecovered c.saved.rules c.before c.after)
      (fun b m => m = m₁ ∧ (b = true → c.Retracted m₁)) (fun _ _ => False) := by
  have howned : Ensures G c.Guarded (· = m₁) (Prog.attempt (Rules.verifyOwned c.saved.rules))
      (fun r m => m = m₁ ∧ (r = .ok () → c.OwnedLive m₁)) (fun _ _ => False) := by
    refine Sat.attempt (Sat.bind ((query_working hw rfl).weaken (fun _ _ hq => hq) ?_) fun current =>
      Sat.ofExcept ?_ ?_)
    · exact fun _ _ hs => ⟨hs, fun hh => by cases hh⟩
    · rintro _ s hv ⟨hs, rfl⟩
      exact ⟨hs, fun _ => verifyPresent_eq_ok.mp hv⟩
    · exact fun _ _ _ hs => ⟨hs.1, fun hh => by cases hh⟩
  refine Sat.bind howned fun r => ?_
  cases r with
  | error _ => exact Sat.pure fun s hs => ⟨hs.1, fun hh => by cases hh⟩
  | ok _ =>
    by_cases hlive : c.OwnedLive m₁
    · have hlist : Ensures G c.Guarded (· = m₁) (Prog.attempt Op.list)
          (fun r m => m = m₁ ∧ (∀ actual, r = .ok actual → actual = m₁.rules.rules)) (fun _ _ => False) := by
        refine Sat.attempt ((query_working hw rfl).weaken ?_ ?_)
        · rintro a s ⟨hs, rfl⟩
          exact ⟨hs, fun actual hh => by cases hh; rfl⟩
        · exact fun _ _ hs => ⟨hs, fun _ hh => by cases hh⟩
      refine Sat.bind (hlist.strengthen fun s hs => hs.1) fun r => ?_
      cases r with
      | error _ => exact Sat.pure fun s hs => ⟨hs.1, fun hh => by cases hh⟩
      | ok actual =>
        refine Sat.pure fun s hs => ⟨hs.1, fun hret => ⟨hlive, ?_⟩⟩
        rw [hs.2 actual rfl] at hret
        exact hret
    · exact fun s hs => absurd (hs.2 rfl) hlive

theorem dropUids_working {xs : List UInt32} (hw : c.Working m₁) (hp : c.Explicit → ¬ c.Published m₁)
    (hxs : xs ⊆ c.introduced) : c.Working (m₁.withUids (xs.foldl dropUid m₁.uids)) where
  ambit :=
    { within := hw.ambit.within
      lower := fun _ hu => mem_foldl_dropUid.mpr ⟨hw.ambit.lower hu, fun hx => introduced_not_mem (hxs hx) hu⟩
      upper := fun _ hu => hw.ambit.upper (mem_foldl_dropUid.mp hu).1
      covered := fun he hpub => absurd hpub (hp he) }
  stored := hw.stored

theorem Retracted.of_rules (h : c.Retracted m₁) (hr : m.rules = m₁.rules) : c.Retracted m :=
  ⟨fun rule hrule => hr ▸ h.owned rule hrule, hr ▸ h.retired⟩

/-- Working states in which the rules are those of `m₁`. -/
def Releasing (c : Attempt) (m₁ m : Machine FlatTable) : Prop := c.Working m ∧ m.rules = m₁.rules

theorem removeUid_working {uid : UInt32} (h : c.Accepted foreign) (hret : c.Retracted m₁)
    (hu : uid ∈ c.introduced) :
    Ensures G c.Guarded (c.Releasing m₁) (Op.removeUids [uid]) (fun _ m => c.Releasing m₁ m)
      (fun _ m => c.Releasing m₁ m) := by
  refine Ensures.of_eq fun m hm => ?_
  obtain ⟨hw, hr⟩ := hm
  have hretm : c.Retracted m := hret.of_rules hr
  have hp : c.Explicit → ¬ c.Published m := fun he => not_published_of_retracted h he hw.ambit.within hretm
  have hpart : ∀ xs, xs <+: [uid] → c.Working (m.withUids (xs.foldl dropUid m.uids)) := by
    intro xs hxs
    refine dropUids_working hw hp fun x hx => ?_
    rw [List.mem_singleton.mp (hxs.subset hx)]
    exact hu
  have hbatch := Ensures.batch_change (G := G) (T := c.Guarded) (m := m) [uid] .removeUids
    fun m x => m.withUids (dropUid m.uids x)
  simp only [Ensures.foldl_withUids] at hbatch
  refine Sat.bind ((hbatch ?_).weaken (fun _ _ hq => hq) ?_) fun _ => ?_
  · intro action l xs ys ha _ hxs hys
    exact ⟨(hpart xs hxs).ambit, (hpart ys hys).ambit, .marked hw.stored, .marked hw.stored,
      fun _ _ => hretm.of_rules rfl, fun _ => hw.stored⟩
  · rintro _ s ⟨-, xs, hxs, hs⟩
    rw [hs]
    exact ⟨hpart xs hxs, hr⟩
  · have hm' := hpart [uid] (List.prefix_refl _)
    have hrel : c.Releasing m₁ (m.withUids ([uid].foldl dropUid m.uids)) := ⟨hm', hr⟩
    refine Sat.bind ((query_working hm' rfl).weaken (fun _ _ hs => hs.1) fun _ _ hs => hs ▸ hrel)
      fun current => ?_
    split
    · exact Sat.fail fun s hs => hs ▸ hrel
    · exact Sat.pure fun s hs => hs ▸ hrel

theorem uidsRecovered_working (hw : c.Working m₁) :
    Ensures G c.Guarded (· = m₁) (Transaction.uidsRecovered c.start.uids c.introduced)
      (fun b m => m = m₁ ∧ (b = true → m₁.uids ⊆ c.start.uids)) (fun _ _ => False) := by
  have hread : Ensures G c.Guarded (· = m₁) (Prog.attempt Op.uids)
      (fun r m => m = m₁ ∧ ∀ actual, r = .ok actual → actual = m₁.uids) (fun _ _ => False) := by
    refine Sat.attempt ((query_working hw rfl).weaken ?_ ?_)
    · rintro a s ⟨hs, rfl⟩
      exact ⟨hs, fun actual hh => by cases hh; rfl⟩
    · exact fun _ _ hs => ⟨hs, fun _ hh => by cases hh⟩
  refine Sat.bind hread fun r => ?_
  cases r with
  | error _ => exact Sat.pure fun s hs => ⟨hs.1, fun hh => by cases hh⟩
  | ok actual =>
    refine Sat.pure fun s hs => ⟨hs.1, fun hb u hu => ?_⟩
    have hactual := hs.2 actual rfl
    rw [Bool.and_eq_true] at hb
    rcases List.mem_append.mp (hw.ambit.upper hu) with h0 | hi
    · exact h0
    · have hgone := List.all_eq_true.mp hb.2 u hi
      rw [hactual] at hgone
      simp [hu] at hgone

/-- The verdict of the compensation is right. -/
theorem compensate_working (h : c.Accepted foreign) {rulesApplied : Bool} (hw : c.Working m₁)
    (ha : rulesApplied = true → c.Applied m₁) :
    Ensures G c.Guarded (· = m₁)
      (Transaction.compensate c.saved.rules c.before c.after c.start.uids c.introduced rulesApplied)
      (fun b m => c.Working m ∧ (b = true → c.Undone m)) (fun _ _ => False) := by
  refine Sat.bind (retract_working hw ha) fun _ => ?_
  refine Ensures.of_eq (P := c.Working) (Q := fun b m => c.Working m ∧ (b = true → c.Undone m))
    (E := fun _ _ => False) fun m hm => ?_
  refine Sat.bind (rulesRecovered_working hm) fun b => ?_
  cases b with
  | false => exact Sat.pure fun s hs => ⟨hs.1 ▸ hm, fun hh => by cases hh⟩
  | true =>
    rintro s ⟨hs, hret⟩
    have hret' := hret rfl
    have hrelease : Ensures G c.Guarded (c.Releasing m)
        (Transaction.releaseUids c.introduced) (fun _ m' => c.Releasing m m') (fun _ _ => False) :=
      Sat.tryEach_invariant _ fun uid hu => removeUid_working h hret' hu
    have hfinish : Ensures G c.Guarded (c.Releasing m)
        (Transaction.releaseUids c.introduced >>= fun _ =>
          Transaction.uidsRecovered c.start.uids c.introduced)
        (fun b m' => c.Working m' ∧ (b = true → c.Undone m')) (fun _ _ => False) := by
      refine Sat.bind hrelease fun _ => ?_
      have hlast : Ensures G c.Guarded (c.Releasing m)
          (Transaction.uidsRecovered c.start.uids c.introduced)
          (fun b m' => c.Working m' ∧ (b = true → c.Undone m')) (fun _ _ => False) := by
        refine Ensures.of_eq fun m' hm' => (uidsRecovered_working hm'.1).weaken ?_ fun _ _ he => he
        intro b s hs
        rw [hs.1]
        have hretm := hret'.of_rules hm'.2
        refine ⟨hm'.1, fun hb => ⟨?_, hm'.1.ambit.lower, hs.2 hb⟩⟩
        exact Rules.restored_of_present h.snapshot hm'.1.ambit.within
          (fun b hb => hretm.owned b (h.owned hb)) (Transaction.retired_iff.mp hretm.retired)
      exact hlast
    exact hfinish s ⟨hs ▸ hm, congrArg Machine.rules hs⟩

theorem conclude_working (hw : c.Working m₁) {recovered : Bool} {cause : Error}
    (hu : recovered = true → c.Undone m₁) {Q : Ledger → Machine FlatTable → Prop} :
    Ensures G c.Guarded (· = m₁) (Transaction.conclude c.saved c.marked cause recovered) Q
      (fun _ m => c.Ambit m ∧ c.Verdict m) := by
  let err := if recovered then Error.hotRolledBack cause else Error.hotRollbackIncomplete cause
  let l := Transaction.concluded c.saved c.marked err recovered
  have hambit : c.Ambit (m₁.withStored l) :=
    ⟨hw.ambit.within, hw.ambit.lower, hw.ambit.upper, hw.ambit.covered⟩
  have hverdict : c.Verdict (m₁.withStored l) := by
    cases recovered with
    | false => exact .failed err rfl
    | true =>
      have hundone := hu rfl
      exact .recovered err rfl ⟨hundone.rules, hundone.lower, hundone.upper⟩
  have hstate : ∀ x, x = m₁ ∨ x = m₁.withStored l → c.Ambit x ∧ c.Verdict x := by
    rintro x (rfl | rfl)
    · exact ⟨hw.ambit, .marked hw.stored⟩
    · exact ⟨hambit, hverdict⟩
  have hpersist : Ensures G c.Guarded (· = m₁) (Op.persist l) (fun _ m => c.Ambit m ∧ c.Verdict m)
      (fun _ m => c.Ambit m ∧ c.Verdict m) := by
    refine (Ensures.persist l ?_).weaken ?_ ?_
    · intro action x y ha hx hy
      obtain ⟨hx₁, hx₂⟩ := hstate x hx
      obtain ⟨hy₁, hy₂⟩ := hstate y hy
      refine ⟨hx₁, hy₁, hx₂, hy₂, fun l' hl => ?_, fun hmut => ?_⟩
      · rw [ha] at hl
        cases hl
      · rw [ha] at hmut
        cases hmut
    · intro _ s hs
      exact hstate _ (.inr hs)
    · intro _ s hs
      exact hstate _ hs
  exact Sat.bind hpersist fun _ => Sat.fail fun _ hs => hs

/-- The ledger which a successful transaction hands to its caller. -/
def committed (c : Attempt) : Ledger :=
  { c.marked with rules := Transaction.desiredRules c.saved c.before c.after, pendingRules := [] }

theorem execute_working (h : c.Accepted foreign) (hw : c.Working m₁) (hr : m₁.rules = c.start.rules) :
    Ensures G c.Guarded (· = m₁)
      (Transaction.execute c.saved c.before c.after c.start.uids c.introduced)
      (fun saved m => saved = c.committed ∧ c.Applied m) (fun _ m => c.Ambit m ∧ c.Verdict m) := by
  refine Sat.bind ((install_working h hw hr).weaken (fun _ _ hq => hq) fun _ _ he => he.elim)
    fun outcome => ?_
  obtain ⟨rulesApplied, result⟩ := outcome
  cases result with
  | ok _ => exact Sat.pure fun s hs => ⟨rfl, hs.2.1 (hs.2.2 rfl)⟩
  | error cause =>
    have hrest : Ensures G c.Guarded (c.Installed (rulesApplied, .error cause))
        (Op.recovering (Transaction.compensate c.saved.rules c.before c.after c.start.uids c.introduced
            rulesApplied) >>= fun recovered => Transaction.conclude c.saved c.marked cause recovered)
        (fun saved m => saved = c.committed ∧ c.Applied m) (fun _ m => c.Ambit m ∧ c.Verdict m) := by
      refine Ensures.of_eq fun m hm => ?_
      have hcomp : Ensures (fun e => G { e with recovering := true })
          (fun e => c.Guarded { e with recovering := true }) (· = m)
          (Transaction.compensate c.saved.rules c.before c.after c.start.uids c.introduced rulesApplied)
          (fun b m' => c.Working m' ∧ (b = true → c.Undone m')) (fun _ m' => c.Ambit m' ∧ c.Verdict m') :=
        ((compensate_working h hm.1 hm.2.1).guarantee fun e he => guarded_mark he).weaken
          (fun _ _ hq => hq) fun _ _ he => he.elim
      refine Sat.bind (Sat.mapEvents hcomp) fun recovered => ?_
      have hconclude : Ensures G c.Guarded (fun m' => c.Working m' ∧ (recovered = true → c.Undone m'))
          (Transaction.conclude c.saved c.marked cause recovered)
          (fun saved m => saved = c.committed ∧ c.Applied m) (fun _ m => c.Ambit m ∧ c.Verdict m) :=
        Ensures.of_eq fun m' hm' => conclude_working hm'.1 hm'.2
      exact hconclude
    exact hrest

theorem untouched_ambit (h : c.Accepted foreign) : c.Ambit c.start :=
  ⟨Within.refl _ _ _ _, List.Subset.refl _, List.subset_append_left _ _,
    fun _ hp => absurd hp (start_not_published h rfl)⟩

theorem marked_working (h : c.Accepted foreign) : c.Working (c.start.withStored c.marked) :=
  ⟨⟨Within.refl _ _ _ _, List.Subset.refl _, List.subset_append_left _ _,
    fun _ hp => absurd hp (start_not_published h rfl)⟩, rfl⟩

theorem guarded_untouched (h : c.Accepted foreign) {action : Action}
    (hop : action.operation.mutates = false) : c.Guarded ⟨action, false, c.start, c.start⟩ := by
  have hv : c.Verdict c.start := .untouched rfl rfl rfl
  refine ⟨untouched_ambit h, untouched_ambit h, hv, hv, fun l hl => ?_, fun hmut => ?_⟩
  · rw [hl] at hop
    cases hop
  · rw [hop] at hmut
    cases hmut

theorem query_untouched {α : Type} (h : c.Accepted foreign) {operation : Operation}
    {read : Machine FlatTable → α} (hop : operation.mutates = false) :
    Ensures G c.Guarded (· = c.start) (Op.query operation read)
      (fun a m => m = c.start ∧ a = read c.start) (fun _ m => m = c.start) := by
  refine Ensures.query ?_ ?_ fun _ _ hm _ => hm
  · rintro action m ha rfl
    exact guarded_untouched h (ha ▸ hop)
  · rintro m rfl
    exact ⟨rfl, rfl⟩

theorem preflight_untouched (h : c.Accepted foreign) :
    Ensures G c.Guarded (· = c.start) (Rules.preflight c.before c.after)
      (fun _ m => m = c.start) (fun _ m => m = c.start) := by
  refine Sat.bind ((query_untouched h rfl).weaken (fun _ _ hq => hq) fun _ _ he => he) fun current => ?_
  have hcheck : Ensures G c.Guarded (fun m => m = c.start ∧ current = c.start.rules.rules)
      (Prog.ofExcept (validateSnapshot current c.before c.after)) (fun _ m => m = c.start)
      (fun _ m => m = c.start) := Sat.ofExcept (fun _ _ _ hs => hs.1) fun _ _ _ hs => hs.1
  exact Sat.bind hcheck fun _ => Sat.pure fun _ hs => hs

theorem verdict_of_start (h : c.Accepted foreign) (hm : m = c.start) : c.Ambit m ∧ c.Verdict m := by
  rw [hm]
  exact ⟨untouched_ambit h, .untouched rfl rfl rfl⟩

/-- Everything a hot transaction does once its preflight passes. -/
theorem reconcile_guarded (h : c.Accepted foreign) :
    Ensures G c.Guarded (· = c.start)
      (Transaction.reconcile c.saved c.before c.after c.requested)
      (fun saved m => saved = c.committed ∧ c.Applied m) (fun _ m => c.Ambit m ∧ c.Verdict m) := by
  refine Sat.bind ((preflight_untouched h).weaken (fun _ _ hq => hq) fun _ _ he => verdict_of_start h he)
    fun _ => ?_
  refine Sat.bind ((query_untouched h rfl).weaken (fun _ _ hq => hq) fun _ _ he => verdict_of_start h he)
    fun original => ?_
  rintro s ⟨hs, rfl⟩
  have hrest : Ensures G c.Guarded (· = c.start)
      (Prog.ofExcept (verifyUids c.start.uids c.saved.isolatedUids) >>= fun _ =>
        Op.persist c.marked >>= fun _ =>
          Transaction.execute c.saved c.before c.after c.start.uids c.introduced)
      (fun saved m => saved = c.committed ∧ c.Applied m) (fun _ m => c.Ambit m ∧ c.Verdict m) := by
    have hcheck : Ensures G c.Guarded (· = c.start)
        (Prog.ofExcept (verifyUids c.start.uids c.saved.isolatedUids)) (fun _ m => m = c.start)
        (fun _ m => c.Ambit m ∧ c.Verdict m) :=
      Sat.ofExcept (fun _ _ _ hs => hs) fun _ _ _ hs => verdict_of_start h hs
    refine Sat.bind hcheck fun _ => ?_
    have hw := marked_working h
    have hstate : ∀ x, x = c.start ∨ x = c.start.withStored c.marked → c.Ambit x ∧ c.Verdict x := by
      rintro x (rfl | rfl)
      · exact verdict_of_start h rfl
      · exact ⟨hw.ambit, .marked rfl⟩
    have hpersist : Ensures G c.Guarded (· = c.start) (Op.persist c.marked)
        (fun _ m => m = c.start.withStored c.marked) (fun _ m => c.Ambit m ∧ c.Verdict m) := by
      refine (Ensures.persist c.marked ?_).weaken (fun _ _ hq => hq) fun _ s hs => hstate _ hs
      intro action x y ha hx hy
      obtain ⟨hx₁, hx₂⟩ := hstate x hx
      obtain ⟨hy₁, hy₂⟩ := hstate y hy
      refine ⟨hx₁, hy₁, hx₂, hy₂, fun l hl => ?_, fun hmut => ?_⟩
      · rw [ha] at hl
        cases hl
      · rw [ha] at hmut
        cases hmut
    exact Sat.bind hpersist fun _ => execute_working h hw rfl
  exact hrest s hs

end

end Attempt

end HybridMount
