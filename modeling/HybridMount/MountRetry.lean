import HybridMount.MountSafety

/-! Which mount tables the cleanup clears completely, however often a failure has
stopped it before. -/

namespace HybridMount

open Traced

theorem insertionSort_pairwise {α : Type} {r D : α → α → Prop} [DecidableRel r] (hr : ∀ a b, r a b → D a b)
    (hn : ∀ a b, ¬ r a b → D b a) (ht : ∀ a b c, D a b → D b c → D a c) (xs : List α) :
    (xs.insertionSort r).Pairwise D := by
  have hinsert : ∀ (x : α) (ys : List α), ys.Pairwise D → (ys.orderedInsert r x).Pairwise D := by
    intro x ys hys
    induction ys with
    | nil => exact List.pairwise_singleton _ _
    | cons y ys ih =>
      obtain ⟨hy, hys'⟩ := List.pairwise_cons.mp hys
      by_cases h : r x y
      · rw [List.orderedInsert_cons_of_le _ _ h]
        refine List.pairwise_cons.mpr ⟨fun z hz => ?_, hys⟩
        rcases List.mem_cons.mp hz with rfl | hz
        · exact hr _ _ h
        · exact ht _ _ _ (hr _ _ h) (hy z hz)
      · rw [List.orderedInsert_of_not_le _ _ h]
        refine List.pairwise_cons.mpr ⟨fun z hz => ?_, ih hys'⟩
        rcases (List.mem_orderedInsert _).mp hz with rfl | hz
        · exact hn _ _ h
        · exact hy z hz
  induction xs with
  | nil => exact List.Pairwise.nil
  | cons x xs ih => exact hinsert x _ ih

/-- Deeper paths come before the paths above them. -/
theorem deepestFirst_pairwise (mounts : List OwnedMount) :
    (deepestFirst mounts).Pairwise fun left right =>
      (Path.components right.target).length ≤ (Path.components left.target).length := by
  rw [deepestFirst]
  refine insertionSort_pairwise ?_ ?_ ?_ mounts
  · intro a b h
    by_contra hlt
    have hgt : compare (Path.components b.target).length (Path.components a.target).length = .gt :=
      Nat.compare_eq_gt.mpr (by omega)
    simp [deepestFirstOrder, hgt] at h
  · intro a b h
    by_contra hlt
    have hgt : compare (Path.components b.target).length (Path.components a.target).length = .lt :=
      Nat.compare_eq_lt.mpr (by omega)
    simp [deepestFirstOrder, hgt] at h
  · intro a b c hab hbc
    exact Nat.le_trans hbc hab

namespace Mounts

/-- The owned records name distinct mounts, and nobody else uses their paths: a
mount at an owned path is owned or lies underneath, one below it is owned. -/
structure Settled (owned : List OwnedMount) (table : List MountEntry) : Prop where
  forest : Forest.WellFormed MountTable.shape table
  unique : (table.map MountEntry.mntId).Nodup
  spelled : ∀ x ∈ table, ∀ y ∈ table, Path.components x.mountPoint = Path.components y.mountPoint →
    x.mountPoint = y.mountPoint
  distinct : (ownedIds owned).Nodup
  valid : ∀ expected ∈ owned, Path.isAbsolute expected.target = true ∧ 0 < expected.id ∧
    expected.id ∉ expected.baselineIds
  identity : ∀ expected ∈ owned, ∀ x ∈ table, x.mntId = expected.id →
    sameIdentity expected x.identity = true
  exact : ∀ expected ∈ owned, ∀ x ∈ table, x.mountPoint = expected.target → x.mntId ∉ ownedIds owned →
    x.mntId ∈ expected.baselineIds ∧ ∀ o ∈ table, o.mntId ∈ ownedIds owned → o.mountPoint = expected.target →
      Forest.Under MountTable.shape table x.mntId o.mntId
  clear : ∀ expected ∈ owned, (∃ o ∈ table, o.mntId = expected.id) → ∀ x ∈ table,
    x.mountPoint ≠ expected.target → Path.startsWith x.mountPoint expected.target = true →
      x.mntId ∈ ownedIds owned

/-- A settled table in which no mount on an ancestor path covers an owned one. -/
structure Cleanable (owned : List OwnedMount) (root : Int) (table : List MountEntry) : Prop
    extends Settled owned table where
  rooted : ∀ o ∈ table, o.mntId ∈ ownedIds owned → Forest.Under MountTable.shape table root o.mntId
  uncovered : ∀ o ∈ table, o.mntId ∈ ownedIds owned → ¬ Forest.Covered MountTable.shape table root o

/-- What the cleanup keeps of a cleanable table. -/
structure Tidy (owned : List OwnedMount) (root : Int) (table : List MountEntry) : Prop
    extends Settled owned table where
  reached : ∀ o ∈ table, o.mntId ∈ ownedIds owned → Forest.Reached MountTable.shape table root o

variable {τ : Type} {G : Event τ → Prop} {owned active : List OwnedMount} {table table' : List MountEntry}
  {root : Int} {m₁ : Machine τ} {next : OwnedMount} {rest : List OwnedMount}

theorem Cleanable.tidy (h : Cleanable owned root table) : Tidy owned root table where
  toSettled := h.toSettled
  reached o ho hown := Forest.reached_of_uncovered h.forest ho (h.rooted o ho hown) (h.uncovered o ho hown)

theorem Settled.cleared (h : Settled owned table) : Cleared owned (identities table) where
  unique := by
    have he : ownedIds (identities table) = table.map MountEntry.mntId := by
      simp only [ownedIds, identities, List.map_map]
      rfl
    rw [he]
    exact h.unique
  distinct := h.distinct
  valid := h.valid
  identity expected he actual ha hid := by
    obtain ⟨x, hx, rfl⟩ := mem_identities.mp ha
    exact h.identity expected he x hx hid
  exact expected he actual ha := by
    obtain ⟨x, hx, rfl⟩ := mem_identities.mp ha
    refine replaces_eq_false.mpr fun htarget => ?_
    by_cases hown : x.mntId ∈ ownedIds owned
    · exact .inl hown
    · exact .inr (h.exact expected he x hx htarget hown).1
  clear expected he actual ha := by
    obtain ⟨x, hx, rfl⟩ := mem_identities.mp ha
    obtain ⟨hmem, actual, hactual, hid⟩ := mem_liveOwned.mp he
    obtain ⟨o, ho, rfl⟩ := mem_identities.mp hactual
    exact blocks_eq_false.mpr fun hne hbelow => h.clear expected hmem ⟨o, ho, hid⟩ x hx hne hbelow

theorem Settled.mount (h : Settled owned table) {entry : OwnedMount}
    (he : entry ∈ liveOwned owned (identities table)) :
    ∃ o ∈ table, o.mntId = entry.id ∧ o.mountPoint = entry.target ∧ o.mntId ∈ ownedIds owned := by
  obtain ⟨hmem, actual, hactual, hid⟩ := mem_liveOwned.mp he
  obtain ⟨o, ho, rfl⟩ := mem_identities.mp hactual
  have hsame := sameIdentity_iff.mp (h.identity entry hmem o ho hid)
  exact ⟨o, ho, hid, hsame.2.1.symm, List.mem_map.mpr ⟨entry, hmem, hid.symm⟩⟩

theorem Settled.record (h : Settled owned table) {o : MountEntry} (ho : o ∈ table)
    (hown : o.mntId ∈ ownedIds owned) :
    ∃ entry ∈ liveOwned owned (identities table), entry.id = o.mntId ∧ entry.target = o.mountPoint := by
  obtain ⟨entry, hentry, hid⟩ := List.mem_map.mp hown
  have hsame := sameIdentity_iff.mp (h.identity entry hentry o ho hid.symm)
  exact ⟨entry, mem_liveOwned.mpr ⟨hentry, o.identity, mem_identities.mpr ⟨o, ho, rfl⟩, hid.symm⟩,
    hid, hsame.2.1⟩

/-- Where the table is tidy, an owned path shows an owned mount of that path. -/
theorem Tidy.visible (h : Tidy owned root table) {entry : OwnedMount}
    (he : entry ∈ liveOwned owned (identities table)) :
    ∃ w ∈ table, w.mntId = MountTable.visibleId table root entry.target ∧ w.mountPoint = entry.target ∧
      w.mntId ∈ ownedIds owned := by
  obtain ⟨o, ho, hid, htarget, hown⟩ := h.mount he
  obtain ⟨w, hw, hvis, hpoint, hu⟩ := (h.reached o ho hown).visible h.forest ho
  have hspell : w.mountPoint = entry.target := (h.spelled w hw o ho hpoint).trans htarget
  refine ⟨w, hw, ?_, hspell, ?_⟩
  · rw [← htarget]
    exact hvis
  · by_contra hno
    have hback := (h.exact entry (mem_liveOwned.mp he).1 w hw hspell hno).2 o ho hown htarget
    have heq : w.mntId = o.mntId := hu.antisymm h.forest hback
    exact hno (heq ▸ hown)

theorem Tidy.shows (h : Tidy owned root table) {entry : OwnedMount}
    (he : entry ∈ liveOwned owned (identities table)) :
    shows (deepestFirst (liveOwned owned (identities table))) entry.target
      (MountTable.visibleId table root entry.target) = true := by
  obtain ⟨w, hw, hvis, hpoint, hown⟩ := h.visible he
  obtain ⟨top, htop, hid, htarget⟩ := h.record hw hown
  refine List.any_eq_true.mpr ⟨top, mem_deepestFirst.mpr htop, ?_⟩
  rw [htarget, hpoint, hid, hvis, beq_self_eq_true, beq_self_eq_true]
  rfl

/-- The visible mount at the deepest owned path carries nothing. -/
theorem Tidy.leaf (h : Tidy owned root table)
    (hd : deepestFirst (liveOwned owned (identities table)) = next :: rest) :
    ∀ y ∈ table, y.parentId ≠ MountTable.visibleId table root next.target := by
  intro y hy hp
  have hnext : next ∈ liveOwned owned (identities table) :=
    mem_deepestFirst.mp (by rw [hd]; exact List.mem_cons_self)
  obtain ⟨w, hw, hvis, hpoint, -⟩ := h.visible hnext
  have hbelow : Path.components next.target <+: Path.components y.mountPoint := by
    rw [← hpoint]
    exact h.forest.below w hw y hy (hp.trans hvis.symm)
  have hnot : ¬ Path.components y.mountPoint <+: Path.components next.target :=
    Forest.entered_eq_none.mp (Forest.entered_visible h.forest) y hy hp
  have hne : y.mountPoint ≠ next.target := by
    intro heq
    rw [heq] at hnot
    exact hnot (List.prefix_refl _)
  obtain ⟨o, ho, hid, -, -⟩ := h.mount hnext
  have hown := h.clear next (mem_liveOwned.mp hnext).1 ⟨o, ho, hid⟩ y hy hne (Path.startsWith_iff.mpr hbelow)
  obtain ⟨entry, hentry, -, htarget⟩ := h.record hy hown
  have hle : (Path.components entry.target).length ≤ (Path.components next.target).length := by
    have hpair := deepestFirst_pairwise (liveOwned owned (identities table))
    rw [hd] at hpair
    have hmem := mem_deepestFirst.mpr hentry
    rw [hd] at hmem
    rcases List.mem_cons.mp hmem with rfl | hmem
    · exact Nat.le_refl _
    · exact (List.pairwise_cons.mp hpair).1 entry hmem
  rw [htarget] at hle
  rw [hbelow.eq_of_length_le hle] at hnot
  exact hnot (List.prefix_refl _)

theorem Settled.of_leaf (h : Settled owned table) {id : Int} (hleaf : ∀ y ∈ table, y.parentId ≠ id)
    (hsub : List.Sublist table' table) (hkeep : ∀ y ∈ table, y.mntId ≠ id → y ∈ table')
    (hgone : ∀ y ∈ table', y.mntId ≠ id) :
    Settled owned table' where
  forest := h.forest.of_subset hsub.subset
  unique := h.unique.sublist (hsub.map _)
  spelled x hx y hy := h.spelled x (hsub.subset hx) y (hsub.subset hy)
  distinct := h.distinct
  valid := h.valid
  identity expected he x hx := h.identity expected he x (hsub.subset hx)
  exact expected he x hx htarget hno := by
    obtain ⟨hbase, hunder⟩ := h.exact expected he x (hsub.subset hx) htarget hno
    refine ⟨hbase, fun o ho hown hpoint => ?_⟩
    exact (hunder o (hsub.subset ho) hown hpoint).of_leaf hleaf hkeep (hgone o ho)
  clear expected he hlive x hx := by
    obtain ⟨o, ho, hid⟩ := hlive
    exact h.clear expected he ⟨o, hsub.subset ho, hid⟩ x (hsub.subset hx)

theorem Tidy.detach (h : Tidy owned root table)
    (hd : deepestFirst (liveOwned owned (identities table)) = next :: rest) :
    Tidy owned root (MountTable.detach table root next.target) := by
  have hleaf := h.leaf hd
  have hkeep : ∀ y ∈ table, y.mntId ≠ MountTable.visibleId table root next.target →
      y ∈ MountTable.detach table root next.target := fun y hy hne => Forest.mem_detach_of_leaf hleaf hy hne
  have hgone : ∀ y ∈ MountTable.detach table root next.target,
      y.mntId ≠ MountTable.visibleId table root next.target := fun y hy => Forest.detach_id hy
  refine ⟨h.toSettled.of_leaf hleaf List.filter_sublist hkeep hgone, fun o ho hown => ?_⟩
  exact (h.reached o (Forest.detach_subset ho) hown).of_leaf h.forest Forest.detach_subset hleaf hkeep
    (hgone o ho)

/-- From a tidy table only a failing step stops the cleanup, and it leaves a tidy table. -/
theorem loop_tidy (fuel : Nat) :
    ∀ m₁ : Machine τ, Tidy owned m₁.root m₁.mounts → (liveOwned owned (identities m₁.mounts)).length < fuel →
      Ensures G (fun _ => True) (· = m₁) (cleanupLoop owned fuel (identities m₁.mounts))
        (fun _ m => Tidy owned m.root m.mounts)
        (fun _ m => Tidy owned m.root m.mounts ∧ ∃ operation m', G ⟨.failed operation, false, m', m'⟩) := by
  induction fuel with
  | zero => exact fun m₁ _ hlt => absurd hlt (Nat.not_lt_zero _)
  | succ fuel ih =>
    intro m₁ ht hlt
    have hc := ht.toSettled.cleared
    rw [cleanupLoop]
    refine Sat.bind (Q := fun active s => s.machine = m₁ ∧
      active = deepestFirst (liveOwned owned (identities m₁.mounts)))
      (Sat.ofExcept ?_ ?_) fun active => ?_
    · exact fun active s hpre hs => ⟨hs, (preflight_eq_ok.mp hpre).2⟩
    · intro e s hpre hs
      rw [preflight_eq_ok.mpr ⟨hc, rfl⟩] at hpre
      cases hpre
    refine Sat.given fun hactive => ?_
    have hshown : Shown active m₁ := by
      intro entry hentry
      rw [hactive] at hentry ⊢
      exact ht.shows (mem_deepestFirst.mp hentry)
    refine Sat.bind ((verifyVisible_spec fun _ _ _ => trivial).weaken (fun _ _ hq => hq) ?_) fun _ => ?_
    · rintro e s ⟨hs, -, hfailed⟩
      obtain ⟨operation, hg⟩ := hfailed hshown
      exact ⟨hs ▸ ht, operation, m₁, hg⟩
    cases active with
    | nil => exact Sat.pure fun s hs => hs ▸ ht
    | cons next rest =>
      refine Sat.bind ((checkVisible_spec fun _ _ => trivial).weaken (fun _ _ hq => hq) ?_) fun visible => ?_
      · rintro e s ⟨hs, -, hg | hno⟩
        · exact ⟨hs ▸ ht, _, m₁, hg⟩
        · rw [hshown next List.mem_cons_self] at hno
          cases hno
      refine Sat.given ?_
      rintro ⟨rfl, hshow⟩
      have hd : Tidy owned (m₁.detached next.target).root (m₁.detached next.target).mounts :=
        ht.detach hactive.symm
      refine Sat.bind ((detach_spec fun _ _ _ _ _ _ => trivial).weaken (fun _ _ hq => hq) ?_) fun _ => ?_
      · rintro e s ⟨hs, -, hg⟩
        refine ⟨?_, _, _, hg⟩
        rcases hs with hs | hs
        · exact hs ▸ ht
        · exact hs ▸ hd
      refine Sat.bind ((snapshot_spec fun _ _ => trivial).weaken (fun _ _ hq => hq) ?_) fun current => ?_
      · rintro e s ⟨hs, -, hg⟩
        exact ⟨hs ▸ hd, _, _, hg⟩
      refine Sat.given ?_
      rintro rfl
      split
      · rename_i hstill
        obtain ⟨actual, hactual, hid⟩ := List.any_eq_true.mp hstill
        obtain ⟨x, hx, rfl⟩ := mem_identities.mp hactual
        exact absurd (beq_iff_eq.mp hid) (Forest.detach_id hx)
      · refine ih _ hd ?_
        rw [hactive] at hshow
        obtain ⟨entry, hentry, -, hid, -⟩ := exists_of_shows hc hshow
        have hlt' := detach_lt (Forest.detach_subset : (m₁.detached next.target).mounts ⊆ m₁.mounts) hentry hid
          fun x hx => Forest.detach_id hx
        exact Nat.lt_of_lt_of_le hlt' (Nat.lt_succ_iff.mp hlt)

theorem liveOwned_length_lt (owned : List OwnedMount) (current : List OwnedMount) :
    (liveOwned owned current).length < owned.length + 1 :=
  Nat.lt_succ_of_le (List.length_filter_le _ _)

theorem cleanup_kept (hf : Forest.WellFormed MountTable.shape m₁.mounts) :
    Ensures G (fun e => Kept owned m₁ e.before ∧ Kept owned m₁ e.after) (· = m₁) (cleanup owned)
      (fun _ m => Kept owned m₁ m ∧ ∀ x ∈ m.mounts, x.mntId ∉ ownedIds owned)
      (fun e m => Kept owned m₁ m ∧ e ≠ .unfinished) := by
  have hk : Kept owned m₁ m₁ := ⟨rfl, List.Subset.refl _, fun x hx hno => absurd hx hno⟩
  refine Sat.bind ((snapshot_spec fun _ _ => ⟨hk, hk⟩).weaken (fun _ _ hq => hq) ?_) fun current => ?_
  · exact fun e s he => ⟨he.1 ▸ hk, he.2.1⟩
  · refine Sat.given ?_
    rintro rfl
    exact loop_spec hf _ m₁ hk (liveOwned_length_lt owned _)

theorem cleanup_costs : Costs Event.detaches (fun s : Session τ => s.machine = m₁)
    (liveOwned owned (identities m₁.mounts)).length (cleanup owned) (fun _ _ => True) 0 := by
  refine Costs.bind (Costs.of_free (snapshot_spec fun action ha => detaches_eq_zero fun path hp => ?_))
    fun current => ?_
  · rw [hp] at ha
    cases ha
  · refine Costs.given ?_
    rintro rfl
    exact loop_costs _ m₁

theorem cleanup_tidy (ht : Tidy owned m₁.root m₁.mounts) :
    Ensures G (fun _ => True) (· = m₁) (cleanup owned) (fun _ m => Tidy owned m.root m.mounts)
      (fun _ m => Tidy owned m.root m.mounts ∧ ∃ operation m', G ⟨.failed operation, false, m', m'⟩) := by
  refine Sat.bind ((snapshot_spec fun _ _ => trivial).weaken (fun _ _ hq => hq) ?_) fun current => ?_
  · rintro e s ⟨hs, -, hg⟩
    exact ⟨hs ▸ ht, _, _, hg⟩
  · refine Sat.given ?_
    rintro rfl
    exact loop_tidy _ m₁ ht (liveOwned_length_lt owned _)

/-- The machine after earlier calls, each with its own schedule of failures. -/
def retried (owned : List OwnedMount) (m : Machine τ) (calls : List (List (Option Fault))) : Machine τ :=
  calls.foldl (fun m faults => (cleanup owned ⟨m, faults⟩).state.machine) m

theorem retried_tidy (calls : List (List (Option Fault))) (ht : Tidy owned m₁.root m₁.mounts) :
    Tidy owned (retried owned m₁ calls).root (retried owned m₁ calls).mounts := by
  induction calls generalizing m₁ with
  | nil => exact ht
  | cons faults calls ih =>
    refine ih ?_
    have hh := cleanup_tidy (G := fun _ => True) ht ⟨m₁, faults⟩ rfl fun _ _ => trivial
    cases hr : (cleanup owned ⟨m₁, faults⟩).result with
    | ok u =>
      rw [hr] at hh
      exact hh.2
    | error e =>
      rw [hr] at hh
      exact hh.2.1

/-- The cleanup detaches owned mounts only and each of them once; what it leaves
behind after a success is not owned, and on a cleanable table only a failing step
keeps it, or any later call, from succeeding. -/
theorem cleanup_safe (owned : List OwnedMount) (s : Session τ)
    (hf : Forest.WellFormed MountTable.shape s.machine.mounts) :
    (∀ e ∈ (cleanup owned s).trace, ∀ x ∈ e.before.mounts, x ∉ e.after.mounts → x.mntId ∈ ownedIds owned) ∧
      (∀ x ∈ s.machine.mounts, x.mntId ∉ ownedIds owned → x ∈ (cleanup owned s).state.machine.mounts) ∧
      ((cleanup owned s).trace.map Event.detaches).sum ≤
        (liveOwned owned (identities s.machine.mounts)).length ∧
      ((cleanup owned s).result = .ok () →
        ∀ x ∈ (cleanup owned s).state.machine.mounts, x.mntId ∉ ownedIds owned) ∧
      (cleanup owned s).result ≠ .error .unfinished ∧
      (Cleanable owned s.machine.root s.machine.mounts → ∀ calls faults,
        (∀ e ∈ (cleanup owned ⟨retried owned s.machine calls, faults⟩).trace, e.action.isFailed = false) →
        (cleanup owned ⟨retried owned s.machine calls, faults⟩).result = .ok ()) := by
  have hkept := @cleanup_kept τ (fun _ => True) owned s.machine hf
  have hevents := hkept.events (s := s) rfl fun _ _ => trivial
  have hend : Kept owned s.machine (cleanup owned s).state.machine := by
    cases hr : (cleanup owned s).result with
    | ok u => exact (hkept.of_ok (s := s) rfl (fun _ _ => trivial) hr).1
    | error e => exact (hkept.of_error (s := s) rfl (fun _ _ => trivial) hr).1
  have hcost := (@cleanup_costs τ owned s.machine).sum_le (s := s) rfl
  refine ⟨fun e he x hx hlost => ?_, fun x hx hno => ?_, hcost, fun hr => ?_, fun hr => ?_, ?_⟩
  · obtain ⟨hbefore, hafter⟩ := hevents e he
    exact hafter.lost x (hbefore.sub hx) hlost
  · by_contra hlost
    exact hno (hend.lost x hx hlost)
  · exact (hkept.of_ok (s := s) rfl (fun _ _ => trivial) hr).2
  · exact (hkept.of_error (s := s) rfl (fun _ _ => trivial) hr).2 rfl
  · intro hc calls faults hquiet
    have hh := cleanup_tidy (G := fun e => e.action.isFailed = false) (retried_tidy calls hc.tidy)
      ⟨retried owned s.machine calls, faults⟩ rfl hquiet
    cases hr : (cleanup owned ⟨retried owned s.machine calls, faults⟩).result with
    | ok u => rfl
    | error e =>
      rw [hr] at hh
      obtain ⟨-, -, operation, m', hfailed⟩ := hh
      cases hfailed

/-- An overlay stacked on a stock partition, and a child mount of its own below it. -/
def vendorTable : List MountEntry :=
  [⟨1, 0, "/", "254:1", "ext4", none⟩, ⟨2, 1, "/vendor", "254:2", "ext4", none⟩,
    ⟨3, 2, "/vendor", "0:40", "overlay", none⟩, ⟨4, 3, "/vendor/firmware", "0:41", "overlay", none⟩,
    ⟨5, 1, "/data", "254:3", "f2fs", none⟩]

def vendorOwned : List OwnedMount :=
  [⟨"/vendor", 3, [2], "0:40", "overlay", none⟩, ⟨"/vendor/firmware", 4, [], "0:41", "overlay", none⟩]

def vendorMachine : Machine Unit := ⟨(), [], none, 1, vendorTable, []⟩

/-- A schedule in which the first detach fails after it took effect. -/
def failingDetach : List (Option Fault) := [none, none, none, none, some ⟨1, "EIO"⟩]

theorem vendorTable_forest : Forest.WellFormed MountTable.shape vendorTable :=
  ⟨by decide, by decide +kernel, by decide +kernel, Int.toNat, by decide⟩

theorem vendorTable_cleanable : Cleanable vendorOwned 1 vendorTable := by
  have hstep : ∀ y : MountEntry, y ∈ vendorTable →
      Forest.Under MountTable.shape vendorTable y.parentId y.mntId :=
    fun y hy => .step .refl hy rfl
  have h2 := hstep ⟨2, 1, "/vendor", "254:2", "ext4", none⟩ (by decide)
  have h3 := hstep ⟨3, 2, "/vendor", "0:40", "overlay", none⟩ (by decide)
  have h4 := hstep ⟨4, 3, "/vendor/firmware", "0:41", "overlay", none⟩ (by decide)
  have howned : ∀ o ∈ vendorTable, o.mntId ∈ ownedIds vendorOwned → o.mntId = 3 ∨ o.mntId = 4 := by decide
  refine ⟨⟨vendorTable_forest, by decide, by decide +kernel, by decide, by decide, by decide,
    ?_, by decide +kernel⟩, ?_, ?_⟩
  · have hbase : ∀ expected ∈ vendorOwned, ∀ x ∈ vendorTable, x.mountPoint = expected.target →
        x.mntId ∉ ownedIds vendorOwned → x.mntId = 2 ∧ x.mntId ∈ expected.baselineIds := by decide
    intro expected he x hx htarget hno
    obtain ⟨hx2, hmem⟩ := hbase expected he x hx htarget hno
    refine ⟨hmem, fun o ho hown _ => ?_⟩
    rcases howned o ho hown with ho3 | ho4
    · rw [hx2, ho3]
      exact h3
    · rw [hx2, ho4]
      exact h3.trans h4
  · intro o ho hown
    rcases howned o ho hown with ho3 | ho4
    · rw [ho3]
      exact h2.trans h3
    · rw [ho4]
      exact (h2.trans h3).trans h4
  · have habove : ∀ o ∈ vendorTable, o.mntId ∈ ownedIds vendorOwned →
        ∀ c ∈ Forest.walk MountTable.shape vendorTable 5 1 (MountTable.shape.point o),
          Forest.depth MountTable.shape c < Forest.depth MountTable.shape o →
          (c.mntId = 2 ∨ c.mntId = 3) ∧ o.mntId = 4 := by decide +kernel
    rintro o ho hown ⟨c, hc, hlt, hno⟩
    obtain ⟨hid, ho4⟩ := habove o ho hown c hc hlt
    refine hno ?_
    change Forest.Under MountTable.shape vendorTable c.mntId o.mntId
    rw [ho4]
    rcases hid with hid | hid
    · rw [hid]
      exact h3.trans h4
    · rw [hid]
      exact h4

theorem cleanup_safe_vendor :
    (cleanup vendorOwned ⟨retried vendorOwned vendorMachine [failingDetach], []⟩).result = .ok () :=
  (cleanup_safe vendorOwned ⟨vendorMachine, []⟩ vendorTable_forest).2.2.2.2.2 vendorTable_cleanable
    [failingDetach] []
    (by decide +kernel)

end Mounts

end HybridMount
