import HybridMount.RuleReconcile

/-! The two passes of a reconciliation over a finite rule map. Every point of
them stays within the owned keys, and an undisturbed recovery verifies. -/

namespace HybridMount

open Traced

/-- `t` differs from `t₀` at owned keys only, and by owned records only. -/
structure Within (before after attempted : List SavedRule) (t₀ t : FlatTable) : Prop where
  frame : ∀ r, (∀ x ∈ before ++ after, r.key ≠ x.key) → (r ∈ t.rules ↔ r ∈ t₀.rules)
  origin : ∀ r ∈ t.rules, r ∈ t₀.rules ∨ ∃ x ∈ before ++ attempted, r = wire x

/-- The machine differs from `m₀` in the rule table only, and there by owned records. -/
structure Reached (before after attempted : List SavedRule) (m₀ m : Machine FlatTable) : Prop where
  same : m = m₀.withRules m.rules
  within : Within before after attempted m₀.rules m.rules

/-- An event of a reconciliation: it names owned records and stays within them. -/
structure OwnedStep (before after : List SavedRule) (m₀ : Machine FlatTable)
    (e : Event FlatTable) : Prop where
  kind : e.action.operation = .list ∨ ∃ l, e.action.operation = .put l ∨ e.action.operation = .delete l
  targets : e.action.operation.targets ⊆ before ++ after
  pre : Reached before after after m₀ e.before
  post : Reached before after after m₀ e.after

namespace Within

variable {before after attempted : List SavedRule} {t₀ t : FlatTable}

theorem refl (before after attempted : List SavedRule) (t : FlatTable) :
    Within before after attempted t t where
  frame _ _ := Iff.rfl
  origin _ hr := .inl hr

theorem mono (h : Within before after attempted t₀ t) (hsub : attempted ⊆ after) :
    Within before after after t₀ t where
  frame := h.frame
  origin r hr := by
    rcases h.origin r hr with h0 | ⟨x, hx, rfl⟩
    · exact .inl h0
    · refine .inr ⟨x, ?_, rfl⟩
      rcases List.mem_append.mp hx with hb | ha
      · exact List.mem_append_left _ hb
      · exact List.mem_append_right _ (hsub ha)

theorem weaken (h : Within before after [] t₀ t) : Within before after attempted t₀ t where
  frame := h.frame
  origin r hr := by
    rcases h.origin r hr with h0 | ⟨x, hx, rfl⟩
    · exact .inl h0
    · rw [List.append_nil] at hx
      exact .inr ⟨x, List.mem_append_left _ hx, rfl⟩

theorem put {x : SavedRule} (h : Within before after attempted t₀ t) (hx : x ∈ before ++ attempted)
    (hsub : attempted ⊆ after) : Within before after attempted t₀ (t.put x) where
  frame r hr := by
    have hown : x ∈ before ++ after := by
      rcases List.mem_append.mp hx with hb | ha
      · exact List.mem_append_left _ hb
      · exact List.mem_append_right _ (hsub ha)
    have hne := hr x hown
    rw [FlatTable.mem_put, h.frame r hr]
    constructor
    · intro hh
      rcases hh with rfl | hh
      · exact absurd (wire_key x) hne
      · exact hh.1
    · intro hh
      exact .inr ⟨hh, hne⟩
  origin r hr := by
    rcases FlatTable.mem_put.mp hr with rfl | hh
    · exact .inr ⟨x, hx, rfl⟩
    · exact h.origin r hh.1

theorem delete {x : SavedRule} (h : Within before after attempted t₀ t) (hx : x ∈ before ++ after) :
    Within before after attempted t₀ (t.delete x) where
  frame r hr := by
    rw [FlatTable.mem_delete, h.frame r hr]
    exact and_iff_left (hr x hx)
  origin r hr := h.origin r (FlatTable.mem_delete.mp hr).1

theorem putAll {xs : List SavedRule} (h : Within before after attempted t₀ t)
    (hxs : xs ⊆ before ++ attempted) (hsub : attempted ⊆ after) :
    Within before after attempted t₀ (t.putAll xs) := by
  induction xs generalizing t with
  | nil => exact h
  | cons x xs ih =>
    obtain ⟨hx, hrest⟩ := List.cons_subset.mp hxs
    exact ih (h.put hx hsub) hrest

theorem deleteAll {xs : List SavedRule} (h : Within before after attempted t₀ t)
    (hxs : xs ⊆ before ++ after) : Within before after attempted t₀ (t.deleteAll xs) := by
  induction xs generalizing t with
  | nil => exact h
  | cons x xs ih =>
    obtain ⟨hx, hrest⟩ := List.cons_subset.mp hxs
    exact ih (h.delete hx) hrest

end Within

namespace Rules

variable {G T : Event FlatTable → Prop} {before after attempted foreign : List SavedRule}
  {m₀ m₁ : Machine FlatTable} {rules : List SavedRule}

theorem reached_withRules {t : FlatTable} (h : Reached before after attempted m₀ m₁)
    (ht : Within before after attempted m₀.rules t) :
    Reached before after attempted m₀ (m₁.withRules t) := by
  refine ⟨?_, ht⟩
  rw [h.same, Machine.withRules_withRules, Machine.withRules_rules]

theorem reached_refl (before after attempted : List SavedRule) (m : Machine FlatTable) :
    Reached before after attempted m m :=
  ⟨rfl, Within.refl _ _ _ _⟩

theorem reached_mono (h : Reached before after attempted m₀ m₁) (hsub : attempted ⊆ after) :
    Reached before after after m₀ m₁ :=
  ⟨h.same, h.within.mono hsub⟩

theorem list_spec (h : Reached before after attempted m₀ m₁) (hsub : attempted ⊆ after) :
    Ensures G (OwnedStep before after m₀) (· = m₁) Op.list
      (fun current m => m = m₁ ∧ current = m₁.rules.rules)
      (fun e m => m = m₁ ∧ G ⟨.failed .list, false, m₁, m₁⟩ ∧ ∃ detail, e = .msg detail) := by
  have hr := reached_mono h hsub
  have hstep : ∀ action : Action, action.operation = .list →
      OwnedStep before after m₀ ⟨action, false, m₁, m₁⟩ := by
    intro action ha
    exact ⟨.inl ha, by simp [ha, Operation.targets], hr, hr⟩
  refine Ensures.query ?_ ?_ ?_
  · intro action m ha hm
    subst hm
    exact hstep action ha
  · intro m hm
    subst hm
    exact ⟨rfl, rfl⟩
  · intro m detail hm hg
    subst hm
    exact ⟨rfl, hg, detail, rfl⟩

theorem put_spec (h : Reached before after attempted m₀ m₁) (hsub : attempted ⊆ after)
    (hrules : rules ⊆ before ++ attempted) :
    Ensures G (OwnedStep before after m₀) (· = m₁) (Op.put rules)
      (fun _ m => m = m₁.withRules (m₁.rules.putAll rules))
      (fun _ m => Reached before after attempted m₀ m ∧ G ⟨.failed (.put rules), false, m, m⟩) := by
  have hpart : ∀ xs, xs <+: rules → Reached before after attempted m₀ (m₁.withRules (m₁.rules.putAll xs)) :=
    fun xs hxs => reached_withRules h (h.within.putAll (List.Subset.trans hxs.subset hrules) hsub)
  refine (Ensures.put ?_).weaken (fun _ _ hq => hq) ?_
  · intro action l xs ys ha hl hxs hys
    refine ⟨.inr ⟨l, .inl ha⟩, ?_, reached_mono (hpart xs hxs) hsub, reached_mono (hpart ys hys) hsub⟩
    rw [ha]
    intro x hx
    rcases List.mem_append.mp (hrules (hl hx)) with hb | ha
    · exact List.mem_append_left _ hb
    · exact List.mem_append_right _ (hsub ha)
  · rintro _ s ⟨hg, xs, hxs, hs⟩
    exact ⟨hs ▸ hpart xs hxs, hg⟩

theorem delete_spec (h : Reached before after attempted m₀ m₁) (hsub : attempted ⊆ after)
    (hrules : rules ⊆ before ++ after) :
    Ensures G (OwnedStep before after m₀) (· = m₁) (Op.delete rules)
      (fun _ m => m = m₁.withRules (m₁.rules.deleteAll rules))
      (fun _ m => Reached before after attempted m₀ m ∧ G ⟨.failed (.delete rules), false, m, m⟩) := by
  have hpart : ∀ xs, xs <+: rules →
      Reached before after attempted m₀ (m₁.withRules (m₁.rules.deleteAll xs)) :=
    fun xs hxs => reached_withRules h (h.within.deleteAll (List.Subset.trans hxs.subset hrules))
  refine (Ensures.delete ?_).weaken (fun _ _ hq => hq) ?_
  · intro action l xs ys ha hl hxs hys
    refine ⟨.inr ⟨l, .inr ha⟩, ?_, reached_mono (hpart xs hxs) hsub, reached_mono (hpart ys hys) hsub⟩
    rw [ha]
    exact List.Subset.trans hl hrules
  · rintro _ s ⟨hg, xs, hxs, hs⟩
    exact ⟨hs ▸ hpart xs hxs, hg⟩

/-- Both readback checks of a pass hold of the table. -/
def Verified (before after foreign current : List SavedRule) : Prop :=
  verifyResult current after before = .ok () ∧ verifyPresent current (preserved foreign) = .ok ()

theorem verify_spec {x y : List SavedRule} (h : Reached before after attempted m₀ m₁)
    (hsub : attempted ⊆ after) :
    Ensures G (OwnedStep before after m₀) (· = m₁) (verify x y foreign)
      (fun _ m => m = m₁ ∧ Verified x y foreign m₁.rules.rules)
      (fun _ m => m = m₁ ∧ (G ⟨.failed .list, false, m₁, m₁⟩ ∨ ¬ Verified x y foreign m₁.rules.rules)) := by
  refine Sat.bind ((list_spec h hsub).weaken (fun _ _ hq => hq) fun _ _ he => ⟨he.1, .inl he.2.1⟩)
    fun current => ?_
  refine Sat.bind (Q := fun _ s => s.machine = m₁ ∧ current = m₁.rules.rules ∧
    verifyResult m₁.rules.rules y x = .ok ()) (Sat.ofExcept ?_ ?_) fun _ => Sat.ofExcept ?_ ?_
  · intro _ s hv hs
    exact ⟨hs.1, hs.2, hs.2 ▸ hv⟩
  · intro e s hv hs
    refine ⟨hs.1, .inr fun hh => ?_⟩
    rw [hs.2, hh.1] at hv
    cases hv
  · intro _ s hv hs
    exact ⟨hs.1, hs.2.2, hs.2.1 ▸ hv⟩
  · intro e s hv hs
    refine ⟨hs.1, .inr fun hh => ?_⟩
    rw [hs.2.1, hh.2] at hv
    cases hv

theorem deleteObsolete_spec (h : Reached before after attempted m₀ m₁) (hsub : attempted ⊆ after)
    (hrules : rules ⊆ before ++ after) :
    Ensures G (OwnedStep before after m₀) (· = m₁) (deleteObsolete rules)
      (fun _ m => m = m₁.withRules (m₁.rules.deleteAll rules))
      (fun _ m => Reached before after attempted m₀ m) := by
  unfold deleteObsolete
  split
  · rename_i hnil
    subst hnil
    exact Sat.pure fun _ hs => hs
  · exact (delete_spec h hsub hrules).weaken (fun _ _ hq => hq) fun _ _ he => he.1

theorem obsolete_subset : obsoleteRules before after ⊆ before ++ after := fun _ hr =>
  List.mem_append_left _ (mem_obsoleteRules.mp hr).1

theorem desired_subset : ordered after false ⊆ before ++ after := fun _ hr =>
  List.mem_append_right _ (mem_ordered.mp hr)

/-- The table which the forward pass works towards. -/
def target (before after : List SavedRule) (t : FlatTable) : FlatTable :=
  (t.deleteAll (obsoleteRules before after)).putAll (ordered after false)

/-- The records which the forward pass may have put. -/
def attemptedRules (after : List SavedRule) (putAttempted : Bool) : List SavedRule :=
  if putAttempted then after else []

def Applied (before after : List SavedRule) (m₀ : Machine FlatTable)
    (outcome : Bool × Except Error Unit) (m : Machine FlatTable) : Prop :=
  Reached before after (attemptedRules after outcome.1) m₀ m ∧
    (outcome.2 = .ok () → m = m₀.withRules (target before after m₀.rules))

theorem publish_spec (h : Reached before after [] m₀ m₁)
    (hm : m₁ = m₀.withRules (m₀.rules.deleteAll (obsoleteRules before after))) :
    Ensures G (OwnedStep before after m₀) (· = m₁) (publish before after foreign)
      (Applied before after m₀) (fun _ _ => False) := by
  unfold publish
  split
  · rename_i hnil
    have hv : Ensures G (OwnedStep before after m₀) (· = m₁) (Prog.attempt (verify before after foreign))
        (fun _ m => m = m₁) (fun _ _ => False) :=
      Sat.attempt ((verify_spec h (List.nil_subset _)).weaken (fun _ _ hs => hs.1) fun _ _ hs => hs.1)
    refine Sat.bind hv fun outcome => Sat.pure fun s hs => ⟨hs ▸ h, fun _ => ?_⟩
    rw [hs, hm, target, hnil]
    rfl
  · have hw : Reached before after after m₀ m₁ := reached_mono h (List.nil_subset _)
    have hput : Reached before after after m₀ (m₁.withRules (m₁.rules.putAll (ordered after false))) :=
      reached_withRules hw (hw.within.putAll desired_subset (List.Subset.refl _))
    have hpv : Ensures G (OwnedStep before after m₀) (· = m₁)
        (Op.put (ordered after false) >>= fun _ => verify before after foreign)
        (fun _ m => m = m₁.withRules (m₁.rules.putAll (ordered after false)))
        (fun _ m => Reached before after after m₀ m) := by
      refine Sat.bind ((put_spec hw (List.Subset.refl _) desired_subset).weaken (fun _ _ hq => hq)
        fun _ _ he => he.1) fun _ => ?_
      exact (verify_spec hput (List.Subset.refl _)).weaken (fun _ _ hs => hs.1)
        fun _ _ hs => hs.1 ▸ hput
    have ha : Ensures G (OwnedStep before after m₀) (· = m₁)
        (Prog.attempt (Op.put (ordered after false) >>= fun _ => verify before after foreign))
        (fun outcome m => Applied before after m₀ (true, outcome) m) (fun _ _ => False) := by
      refine Sat.attempt (hpv.weaken ?_ ?_)
      · intro _ s hs
        refine ⟨hs ▸ hput, fun _ => ?_⟩
        rw [hs, hm]
        rfl
      · intro e s hs
        exact ⟨hs, fun hh => by cases hh⟩
    exact Sat.bind ha fun outcome => Sat.pure fun s hs => hs

theorem apply_spec :
    Ensures G (OwnedStep before after m₀) (· = m₀) (apply before after foreign)
      (Applied before after m₀) (fun _ _ => False) := by
  let Q : Except Error Unit → Machine FlatTable → Prop := fun r m =>
    Reached before after [] m₀ m ∧
      (r = .ok () → m = m₀.withRules (m₀.rules.deleteAll (obsoleteRules before after)))
  have hrefl := reached_refl before after [] m₀
  have hdel : Ensures G (OwnedStep before after m₀) (· = m₀)
      (Prog.attempt (deleteObsolete (obsoleteRules before after))) Q (fun _ _ => False) := by
    have hd := deleteObsolete_spec (G := G) hrefl (List.nil_subset _) (@obsolete_subset before after)
    refine Sat.attempt (hd.weaken ?_ ?_)
    · intro _ s hs
      refine ⟨?_, fun _ => hs⟩
      rw [hs]
      exact reached_withRules hrefl (hrefl.within.deleteAll obsolete_subset)
    · intro e s hs
      exact ⟨hs, fun hh => by cases hh⟩
  refine Sat.bind hdel fun r => ?_
  cases r with
  | error cause => exact Sat.pure fun s hs => ⟨hs.1, fun hh => by cases hh⟩
  | ok _ =>
    have hp : Ensures G (OwnedStep before after m₀) (Q (.ok ())) (publish before after foreign)
        (Applied before after m₀) (fun _ _ => False) :=
      Ensures.of_eq fun m hm => publish_spec hm.1 (hm.2 rfl)
    exact hp

/-- A rollback stays within the owned records and reports what it read back. -/
theorem rollback_spec (hsub : attempted ⊆ after) :
    Ensures G (OwnedStep before after m₀) (Reached before after attempted m₀)
      (rollback before attempted foreign)
      (fun _ m => Reached before after attempted m₀ m ∧ Verified attempted before foreign m.rules.rules)
      (fun _ m => Reached before after attempted m₀ m) := by
  have hlist : Ensures G (OwnedStep before after m₀) (Reached before after attempted m₀) Op.list
      (fun _ m => Reached before after attempted m₀ m) (fun _ m => Reached before after attempted m₀ m) :=
    Ensures.of_eq fun m hm => (list_spec hm hsub).weaken (fun _ _ hs => hs.1 ▸ hm) fun _ _ hs => hs.1 ▸ hm
  refine Sat.bind hlist fun current => Sat.bind (Sat.tryEach_invariant _ ?_) fun _ => ?_
  · intro x hx
    have hown : [x] ⊆ before ++ after := by
      simpa using .inr (hsub (mem_introducedRules.mp hx).1)
    refine Ensures.of_eq fun m hm => (delete_spec hm hsub hown).weaken ?_ fun _ _ he => he.1
    intro _ s hs
    exact hs ▸ reached_withRules hm (hm.within.deleteAll hown)
  refine Sat.bind hlist fun current => Sat.bind (Sat.tryEach_invariant _ ?_) fun _ => ?_
  · intro x hx
    have hown : [x] ⊆ before ++ attempted := by
      simpa using .inl (mem_restoredRules.mp hx).1
    refine Ensures.of_eq fun m hm => (put_spec hm hsub hown).weaken ?_ fun _ _ he => he.1
    intro _ s hs
    exact hs ▸ reached_withRules hm (hm.within.putAll hown hsub)
  have hv : Ensures G (OwnedStep before after m₀) (Reached before after attempted m₀)
      (verify attempted before foreign)
      (fun _ m => Reached before after attempted m₀ m ∧ Verified attempted before foreign m.rules.rules)
      (fun _ m => Reached before after attempted m₀ m) := by
    refine Ensures.of_eq fun m hm => (verify_spec hm hsub).weaken ?_ fun _ _ hs => hs.1 ▸ hm
    intro _ s hs
    exact ⟨hs.1 ▸ hm, hs.1 ▸ hs.2⟩
  exact hv

theorem no_entry_of_introduced {t₀ : FlatTable} (hv : validateSnapshot t₀.rules before after = .ok foreign)
    {a r : SavedRule} (ha : a ∈ after) (hb : ∀ old ∈ before, old.key ≠ a.key) (hr : r ∈ t₀.rules) :
    r.key ≠ a.key := by
  intro hk
  have hf := (validateSnapshot_eq_ok.mp hv).2.2.2.1
  have hmem : r ∈ foreign := by
    rw [hf, mem_foreignRules]
    exact ⟨hr, fun old ho => hk ▸ hb old ho⟩
  exact key_ne_of_accepted hv hmem (List.mem_append_right _ ha) hk

/-- What an undisturbed recovery leaves passes both readback checks. -/
theorem recovery_verifies {t₀ t : FlatTable} (hv : validateSnapshot t₀.rules before after = .ok foreign)
    (hsub : attempted ⊆ after) (h : Within before after attempted t₀ t) :
    let t₁ := t.deleteAll (introducedRules t.rules before attempted)
    let t₂ := t₁.putAll (restoredRules t₁.rules before attempted)
    Verified attempted before foreign t₂.rules := by
  intro t₁ t₂
  obtain ⟨hnb, hna, hpresent, hforeign, -⟩ := validateSnapshot_eq_ok.mp hv
  have hnr : ((restoredRules t₁.rules before attempted).map SavedRule.key).Nodup :=
    keys_nodup_ordered (hnb.sublist (List.filter_sublist.map _))
  have ht₁ : ∀ r, r ∈ t₁.rules ↔ r ∈ t.rules ∧
      ∀ x ∈ introducedRules t.rules before attempted, r.key ≠ x.key := fun r => FlatTable.mem_deleteAll
  have ht₂ : ∀ r, r ∈ t₂.rules ↔ (∃ x ∈ restoredRules t₁.rules before attempted, r = wire x) ∨
      r ∈ t₁.rules ∧ ∀ x ∈ restoredRules t₁.rules before attempted, r.key ≠ x.key :=
    fun r => FlatTable.mem_putAll hnr
  have horigin : ∀ b ∈ before, ∀ r ∈ t.rules, b.key = r.key →
      semanticEqual b r = true ∨ ∃ new ∈ attempted, semanticEqual new r = true := by
    intro b hb r hr hk
    rcases h.origin r hr with h0 | ⟨x, hx, rfl⟩
    · obtain ⟨actual, hactual, heq⟩ := hpresent b hb
      have hsame := FlatTable.eq_of_key h0 hactual (hk.symm.trans (semanticEqual_key heq))
      exact .inl (hsame ▸ heq)
    · rcases List.mem_append.mp hx with hxb | hxa
      · have hsame := List.inj_on_of_nodup_map hnb hb hxb hk
        exact .inl (hsame ▸ semanticEqual_wire x)
      · exact .inr ⟨x, hxa, semanticEqual_wire x⟩
  constructor
  · refine verifyResult_eq_ok.mpr ⟨fun b hb => ?_, fun a ha => ?_⟩
    · by_cases hrest : b ∈ restoredRules t₁.rules before attempted
      · exact ⟨wire b, (ht₂ _).mpr (.inl ⟨b, hrest, rfl⟩), semanticEqual_wire b⟩
      · by_cases hany : ∃ r ∈ t₁.rules, semanticEqual b r = true
        · obtain ⟨r, hr, heq⟩ := hany
          refine ⟨r, (ht₂ r).mpr (.inr ⟨hr, fun x hx hk => ?_⟩), heq⟩
          have hxb := (mem_restoredRules.mp hx).1
          have hsame := List.inj_on_of_nodup_map hnb hb hxb ((semanticEqual_key heq).trans hk)
          exact hrest (hsame ▸ hx)
        · have hnone : ∀ r ∈ t₁.rules, semanticEqual b r = false := by
            intro r hr
            exact Bool.eq_false_iff.mpr fun heq => hany ⟨r, hr, heq⟩
          refine absurd (mem_restoredRules.mpr ⟨hb, hnone, fun r hr hk => ?_⟩) hrest
          rcases horigin b hb r ((ht₁ r).mp hr).1 hk with heq | hnew
          · rw [hnone r hr] at heq
            cases heq
          · exact .inr hnew
    · rw [Bool.eq_false_iff]
      intro hrem
      obtain ⟨hkeys, r, hr, hk, -⟩ := remains_iff.mp hrem
      rcases (ht₂ r).mp hr with ⟨x, hx, rfl⟩ | ⟨hr₁, -⟩
      · exact hkeys x (mem_restoredRules.mp hx).1 hk
      · obtain ⟨hrt, hne⟩ := (ht₁ r).mp hr₁
        rcases h.origin r hrt with h0 | ⟨x, hx, rfl⟩
        · exact no_entry_of_introduced hv (hsub ha) hkeys h0 hk
        · rcases List.mem_append.mp hx with hxb | hxa
          · exact hkeys x hxb hk
          · refine hne x (mem_introducedRules.mpr ⟨hxa, fun old ho => ?_, wire x, hrt, semanticEqual_wire x⟩) rfl
            exact fun he => hkeys old ho (he.trans hk)
  · refine verifyPresent_eq_ok.mpr fun r hr => ⟨r, ?_, semanticEqual_refl r⟩
    have hrf := (mem_preserved.mp hr).1
    have hne : ∀ x ∈ before ++ after, r.key ≠ x.key := fun x hx => key_ne_of_accepted hv hrf hx
    rw [hforeign, mem_foreignRules] at hrf
    have hrt := (h.frame r hne).mpr hrf.1
    refine (ht₂ r).mpr (.inr ⟨(ht₁ r).mpr ⟨hrt, fun x hx => ?_⟩, fun x hx => ?_⟩)
    · exact hne x (List.mem_append_right _ (hsub (mem_introducedRules.mp hx).1))
    · exact hne x (List.mem_append_left _ (mem_restoredRules.mp hx).1)

/-- Without a failure among its own operations a rollback succeeds. -/
theorem rollback_complete (hv : validateSnapshot m₀.rules.rules before after = .ok foreign)
    (hsub : attempted ⊆ after) (hG : ∀ e, G e → e.action.isFailed = false)
    (h : Reached before after attempted m₀ m₁) :
    Ensures G (OwnedStep before after m₀) (· = m₁) (rollback before attempted foreign)
      (fun _ _ => True) (fun _ _ => False) := by
  have hno : ∀ {operation : Operation} {m : Machine FlatTable}, ¬ G ⟨.failed operation, false, m, m⟩ :=
    fun hg => absurd (hG _ hg) (by simp [Action.isFailed])
  let t₁ := m₁.rules.deleteAll (introducedRules m₁.rules.rules before attempted)
  have hdel : introducedRules m₁.rules.rules before attempted ⊆ before ++ after := fun x hx =>
    List.mem_append_right _ (hsub (mem_introducedRules.mp hx).1)
  have hput : restoredRules t₁.rules before attempted ⊆ before ++ attempted := fun x hx =>
    List.mem_append_left _ (mem_restoredRules.mp hx).1
  have h₁ : Reached before after attempted m₀ (m₁.withRules t₁) :=
    reached_withRules h (h.within.deleteAll hdel)
  refine Sat.bind ((list_spec h hsub).weaken (fun _ _ hs => hs) fun _ _ he => hno he.2.1) fun current => ?_
  refine Sat.bind (Q := fun _ s => s.machine = m₁.withRules t₁) ?_ fun _ => ?_
  · have hloop := Sat.tryEach_done (G := G) (T := OwnedStep before after m₀)
      (E := fun (_ : Error) (_ : Session FlatTable) => False) (f := fun rule => Op.delete [rule])
      (I := fun done s => s.machine = m₁.withRules (m₁.rules.deleteAll done))
      (introducedRules m₁.rules.rules before attempted) ?_
    · rintro s ⟨hs, rfl⟩ hg
      exact hloop s hs hg
    · intro done x hx
      have hown : done ++ [x] ⊆ before ++ after := List.Subset.trans hx.subset hdel
      have hr := reached_withRules h (h.within.deleteAll (List.append_subset.mp hown).1)
      refine (delete_spec hr hsub (List.append_subset.mp hown).2).weaken ?_ fun _ _ he => hno he.2
      intro _ s hs
      rw [FlatTable.deleteAll_append]
      exact hs
  refine Sat.bind ((list_spec h₁ hsub).weaken (fun _ _ hs => hs) fun _ _ he => hno he.2.1) fun current => ?_
  let t₂ := t₁.putAll (restoredRules t₁.rules before attempted)
  have h₂ : Reached before after attempted m₀ (m₁.withRules t₂) :=
    reached_withRules h (h₁.within.putAll hput hsub)
  refine Sat.bind (Q := fun _ s => s.machine = m₁.withRules t₂) ?_ fun _ => ?_
  · have hloop := Sat.tryEach_done (G := G) (T := OwnedStep before after m₀)
      (E := fun (_ : Error) (_ : Session FlatTable) => False) (f := fun rule => Op.put [rule])
      (I := fun done s => s.machine = m₁.withRules (t₁.putAll done))
      (restoredRules t₁.rules before attempted) ?_
    · rintro s ⟨hs, rfl⟩ hg
      exact hloop s hs hg
    · intro done x hx
      have hown : done ++ [x] ⊆ before ++ attempted := List.Subset.trans hx.subset hput
      have hr := reached_withRules h (h₁.within.putAll (List.append_subset.mp hown).1 hsub)
      refine (put_spec hr hsub (List.append_subset.mp hown).2).weaken ?_ fun _ _ he => hno he.2
      intro _ s hs
      rw [FlatTable.putAll_append]
      exact hs
  refine (verify_spec h₂ hsub).weaken (fun _ _ _ => trivial) ?_
  intro e s hs
  rcases hs.2 with hg | hnot
  · exact hno hg
  · exact hnot (recovery_verifies hv hsub h.within)

end Rules

end HybridMount
