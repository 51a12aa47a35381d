import HybridMount.MountCleanup

/-! What the cleanup may detach, how often it tries, and when it gets through. -/

namespace HybridMount

open Traced

/-- How many detaches an event requests. -/
def Event.detaches {τ : Type} (e : Event τ) : Nat :=
  match e.action with
  | .request (.detach _) => 1
  | _ => 0

namespace Mounts

/-- The mount table lost owned mounts at most. -/
structure Kept {τ : Type} (owned : List OwnedMount) (m₀ m : Machine τ) : Prop where
  same : m = m₀.withMounts m.mounts
  sub : m.mounts ⊆ m₀.mounts
  lost : ∀ x ∈ m₀.mounts, x ∉ m.mounts → x.mntId ∈ ownedIds owned

variable {τ : Type} {G : Event τ → Prop} {owned active : List OwnedMount} {table : List MountEntry}
  {root : Int} {m₀ m₁ m : Machine τ} {next : OwnedMount}

theorem mem_identities {entry : OwnedMount} : entry ∈ identities table ↔ ∃ x ∈ table, x.identity = entry :=
  List.mem_map

theorem exists_of_shows (hc : Cleared owned (identities table)) {visible : Int}
    (hs : shows (deepestFirst (liveOwned owned (identities table))) next.target visible = true) :
    ∃ entry ∈ liveOwned owned (identities table), entry.target = next.target ∧ entry.id = visible ∧
      ∃ z ∈ table, z.mntId = visible ∧ z.mountPoint = next.target := by
  obtain ⟨entry, hentry, hh⟩ := List.any_eq_true.mp hs
  rw [mem_deepestFirst] at hentry
  rw [Bool.and_eq_true, beq_iff_eq, beq_iff_eq] at hh
  obtain ⟨hown, actual, hactual, hid⟩ := mem_liveOwned.mp hentry
  obtain ⟨z, hz, rfl⟩ := mem_identities.mp hactual
  have hsame := sameIdentity_iff.mp (hc.identity entry hown _ hactual hid)
  exact ⟨entry, hentry, hh.1, hh.2, z, hz, hid.trans hh.2, hsame.2.1.symm.trans hh.1⟩

/-- Everything the visible mount carries is owned, once the checks have passed. -/
theorem detached_owned (hf : Forest.WellFormed MountTable.shape table) (hc : Cleared owned (identities table))
    (hs : shows (deepestFirst (liveOwned owned (identities table))) next.target
      (MountTable.visibleId table root next.target) = true) {x : MountEntry} (hx : x ∈ table)
    (hd : x ∉ MountTable.detach table root next.target) : x.mntId ∈ ownedIds owned := by
  obtain ⟨entry, hentry, htarget, hid, z, hz, hzid, hzpoint⟩ := exists_of_shows hc hs
  have hunder := Forest.under_of_detached hx hd
  by_cases hpoint : x.mountPoint = entry.target
  · have hpre : MountTable.shape.point x <+: Path.components next.target := by
      rw [← htarget, ← hpoint]
      exact List.prefix_refl _
    have hvis : x.mntId = MountTable.visibleId table root next.target :=
      Forest.eq_of_under_visible hf hx hunder hpre
    rw [hvis, ← hid]
    exact List.mem_map_of_mem (mem_liveOwned.mp hentry).1
  · have hbelow : Path.startsWith x.mountPoint entry.target = true := by
      rw [Path.startsWith_iff, htarget, ← hzpoint]
      have hu : Forest.Under MountTable.shape table (MountTable.shape.id z) (MountTable.shape.id x) := by
        change Forest.Under MountTable.shape table z.mntId x.mntId
        rw [hzid]
        exact hunder
      exact hu.prefix_point hf hz hx
    exact blocks_eq_false.mp (hc.clear entry hentry x.identity (mem_identities.mpr ⟨x, hx, rfl⟩)) hpoint hbelow

theorem detach_lt {visible : Int} {table' : List MountEntry} (hsub : table' ⊆ table)
    {entry : OwnedMount} (hentry : entry ∈ liveOwned owned (identities table)) (hid : entry.id = visible)
    (hgone : ∀ x ∈ table', x.mntId ≠ visible) :
    (liveOwned owned (identities table')).length < (liveOwned owned (identities table)).length := by
  have he : liveOwned owned (identities table') = (liveOwned owned (identities table)).filter
      fun entry => (identities table').any fun actual => actual.id == entry.id := by
    rw [liveOwned, liveOwned, List.filter_filter]
    refine List.filter_congr fun o _ => ?_
    cases hlive : (identities table').any fun actual => actual.id == o.id with
    | false => rfl
    | true =>
      obtain ⟨actual, hactual, hh⟩ := List.any_eq_true.mp hlive
      obtain ⟨x, hx, rfl⟩ := mem_identities.mp hactual
      exact (List.any_eq_true.mpr ⟨x.identity, mem_identities.mpr ⟨x, hsub hx, rfl⟩, hh⟩).symm
  rw [he]
  refine List.length_filter_lt_length_iff_exists.mpr ⟨entry, hentry, fun hlive => ?_⟩
  obtain ⟨actual, hactual, hh⟩ := List.any_eq_true.mp hlive
  obtain ⟨x, hx, rfl⟩ := mem_identities.mp hactual
  rw [beq_iff_eq] at hh
  exact hgone x hx (hh.trans hid)

theorem Kept.detached (h : Kept owned m₀ m₁) (hf : Forest.WellFormed MountTable.shape m₁.mounts)
    (hc : Cleared owned (identities m₁.mounts))
    (hs : shows (deepestFirst (liveOwned owned (identities m₁.mounts))) next.target
      (MountTable.visibleId m₁.mounts m₁.root next.target) = true) :
    Kept owned m₀ (m₁.detached next.target) := by
  have hsub : (m₁.detached next.target).mounts ⊆ m₁.mounts := Forest.detach_subset
  refine ⟨?_, List.Subset.trans hsub h.sub, fun x hx hlost => ?_⟩
  · rw [h.same]
    rfl
  · by_cases hmem : x ∈ m₁.mounts
    · exact detached_owned hf hc hs hmem hlost
    · exact h.lost x hx hmem

theorem validateLiveFrom_error {ids : List Int} {current : List OwnedMount} {e : Error}
    (h : validateLiveFrom ids current = .error e) : e ≠ .unfinished := by
  induction current generalizing ids with
  | nil => cases h
  | cons entry rest ih =>
    rw [validateLiveFrom] at h
    split at h
    · cases h
      exact Error.noConfusion
    · exact ih h

theorem validateOwnedFrom_error {ids : List Int} {current : List OwnedMount} {e : Error}
    (h : validateOwnedFrom ids current owned = .error e) : e ≠ .unfinished := by
  induction owned generalizing ids with
  | nil => cases h
  | cons entry rest ih =>
    rw [validateOwnedFrom] at h
    split at h
    · cases h
      exact Error.noConfusion
    · split at h
      · cases h
        exact Error.noConfusion
      · exact ih h

theorem preflight_error {current : List OwnedMount} {e : Error} (h : preflight owned current = .error e) :
    e ≠ .unfinished := by
  unfold preflight at h
  cases hl : validateLiveFrom [] current with
  | error e' =>
    rw [hl] at h
    cases h
    exact validateLiveFrom_error hl
  | ok u =>
    cases ho : validateOwnedFrom [] current owned with
    | error e' =>
      rw [hl, ho] at h
      cases h
      exact validateOwnedFrom_error ho
    | ok u' =>
      simp only [hl, ho, bind, Except.bind] at h
      split at h
      · cases h
        exact Error.noConfusion
      · split at h
        · cases h
          exact Error.noConfusion
        · cases h

/-- One round from a table that passes the checks, with its visible mount `next`. -/
theorem loop_spec (hf : Forest.WellFormed MountTable.shape m₀.mounts) (fuel : Nat) :
    ∀ m₁, Kept owned m₀ m₁ → (liveOwned owned (identities m₁.mounts)).length < fuel →
      Ensures G (fun e => Kept owned m₀ e.before ∧ Kept owned m₀ e.after) (· = m₁)
        (cleanupLoop owned fuel (identities m₁.mounts))
        (fun _ m => Kept owned m₀ m ∧ ∀ x ∈ m.mounts, x.mntId ∉ ownedIds owned)
        (fun e m => Kept owned m₀ m ∧ e ≠ .unfinished) := by
  induction fuel with
  | zero => exact fun m₁ _ hlt => absurd hlt (Nat.not_lt_zero _)
  | succ fuel ih =>
    intro m₁ hk hlt
    have hf₁ := hf.of_subset hk.sub
    rw [cleanupLoop]
    refine Sat.bind (Q := fun active s => s.machine = m₁ ∧ Cleared owned (identities m₁.mounts) ∧
      active = deepestFirst (liveOwned owned (identities m₁.mounts))) (Sat.ofExcept ?_ ?_) fun active => ?_
    · exact fun active s hpre hs => ⟨hs, preflight_eq_ok.mp hpre⟩
    · intro e s hpre hs
      exact ⟨hs ▸ hk, preflight_error hpre⟩
    refine Sat.given ?_
    rintro ⟨hc, hactive⟩
    refine Sat.bind ((verifyVisible_spec fun _ _ _ => ⟨hk, hk⟩).weaken (fun _ _ hq => hq) ?_) fun _ => ?_
    · exact fun e s he => ⟨he.1 ▸ hk, he.2.1⟩
    cases active with
    | nil =>
      refine Sat.pure fun s hs => ?_
      rw [hs]
      refine ⟨hk, fun x hx hown => ?_⟩
      obtain ⟨entry, hentry, hid⟩ := List.mem_map.mp hown
      have hlive : entry ∈ deepestFirst (liveOwned owned (identities m₁.mounts)) :=
        mem_deepestFirst.mpr (mem_liveOwned.mpr
          ⟨hentry, x.identity, mem_identities.mpr ⟨x, hx, rfl⟩, hid.symm⟩)
      rw [← hactive] at hlive
      cases hlive
    | cons next rest =>
      refine Sat.bind ((checkVisible_spec fun _ _ => ⟨hk, hk⟩).weaken (fun _ _ hq => hq) ?_) fun visible => ?_
      · exact fun e s he => ⟨he.1 ▸ hk, he.2.1⟩
      refine Sat.given ?_
      rintro ⟨rfl, hshow⟩
      rw [hactive] at hshow
      have hd := hk.detached hf₁ hc hshow
      have hcase : ∀ x, x = m₁ ∨ x = m₁.detached next.target → Kept owned m₀ x := by
        rintro x (rfl | rfl)
        · exact hk
        · exact hd
      refine Sat.bind ((detach_spec fun _ x y _ hx hy => ⟨hcase x hx, hcase y hy⟩).weaken
        (fun _ _ hq => hq) ?_)
        fun _ => ?_
      · exact fun e s he => ⟨hcase _ he.1, he.2.1⟩
      refine Sat.bind ((snapshot_spec fun _ _ => ⟨hd, hd⟩).weaken (fun _ _ hq => hq) ?_) fun current => ?_
      · exact fun e s he => ⟨he.1 ▸ hd, he.2.1⟩
      refine Sat.given ?_
      rintro rfl
      split
      · exact Sat.fail fun s hs => ⟨hs ▸ hd, Error.noConfusion⟩
      · rename_i hgone
        refine ih _ hd ?_
        obtain ⟨entry, hentry, -, hid, -⟩ := exists_of_shows hc hshow
        have hlt' := detach_lt (Forest.detach_subset : (m₁.detached next.target).mounts ⊆ m₁.mounts) hentry hid
          fun x hx => Forest.detach_id hx
        exact Nat.lt_of_lt_of_le hlt' (Nat.lt_succ_iff.mp hlt)

theorem detaches_eq_zero {action : Action} {recovering : Bool} {x y : Machine τ}
    (h : ∀ path, action ≠ .request (.detach path)) : Event.detaches ⟨action, recovering, x, y⟩ = 0 := by
  unfold Event.detaches
  split
  · rename_i path he
    exact absurd he (h path)
  · rfl

theorem detach_costs {path : String} {n : Nat} :
    Costs Event.detaches (fun s : Session τ => s.machine = m₁) (n + 1) (Op.detach path)
      (fun _ s => s.machine = m₁.detached path) n := by
  have hfree : ∀ action x y, action.operation = .detach path → action ≠ .request (.detach path) →
      Event.detaches (τ := τ) ⟨action, false, x, y⟩ = 0 := by
    intro action x y ha hr
    refine detaches_eq_zero fun p hp => hr ?_
    rw [hp] at ha
    cases ha
    exact hp
  refine Costs.bind (Costs.update fun s hs => ⟨hs, ?_⟩) fun _ =>
    Costs.of_free (detach_perform fun action x y ha hr _ _ => hfree action x y ha hr)
  simp only [Event.detaches]
  omega

/-- The live owned mounts pay for the detaches. -/
theorem loop_costs (fuel : Nat) :
    ∀ m₁ : Machine τ, Costs Event.detaches (fun s => s.machine = m₁)
      (liveOwned owned (identities m₁.mounts)).length (cleanupLoop owned fuel (identities m₁.mounts))
      (fun _ _ => True) 0 := by
  have hread : ∀ {operation : Operation} {action : Action} {x y : Machine τ}, action.operation = operation →
      (∀ path, operation ≠ .detach path) → Event.detaches ⟨action, false, x, y⟩ = 0 := by
    intro operation action x y ha hne
    refine detaches_eq_zero fun path hp => hne path ?_
    rw [← ha, hp]
    rfl
  induction fuel with
  | zero =>
    intro m₁
    exact (Costs.of_free (n := 0) (E := fun _ _ => True) (Sat.fail fun _ _ => trivial)).mono
      (Nat.zero_le _) (Nat.le_refl _)
  | succ fuel ih =>
    intro m₁
    rw [cleanupLoop]
    refine Costs.bind (Q := fun active s => s.machine = m₁ ∧ Cleared owned (identities m₁.mounts) ∧
      active = deepestFirst (liveOwned owned (identities m₁.mounts)))
      (Costs.of_free (E := fun _ _ => True) (Sat.ofExcept ?_ fun _ _ _ _ => trivial)) fun active => ?_
    · exact fun active s hpre hs => ⟨hs, preflight_eq_ok.mp hpre⟩
    refine Costs.given ?_
    rintro ⟨hc, hactive⟩
    refine Costs.bind (Costs.of_free (verifyVisible_spec fun action path ha =>
      hread ha fun _ => Operation.noConfusion)) fun _ => ?_
    cases active with
    | nil =>
      exact (Costs.of_free (E := fun _ _ => True) (Sat.pure fun _ _ => trivial)).mono (Nat.le_refl _)
        (Nat.zero_le _)
    | cons next rest =>
      refine Costs.bind (Costs.of_free (checkVisible_spec fun action ha =>
        hread ha fun _ => Operation.noConfusion)) fun visible => ?_
      refine Costs.given ?_
      rintro ⟨rfl, hshow⟩
      rw [hactive] at hshow
      obtain ⟨entry, hentry, -, hid, -⟩ := exists_of_shows hc hshow
      have hlt := detach_lt (Forest.detach_subset : (m₁.detached next.target).mounts ⊆ m₁.mounts) hentry hid
        fun x hx => Forest.detach_id hx
      refine Costs.bind (detach_costs.mono hlt (Nat.le_refl _)) fun _ => ?_
      refine Costs.bind (Costs.of_free (snapshot_spec fun action ha =>
        hread ha fun _ => Operation.noConfusion)) fun current => ?_
      refine Costs.given ?_
      rintro rfl
      split
      · exact (Costs.of_free (E := fun _ _ => True) (Sat.fail fun _ _ => trivial)).mono (Nat.le_refl _)
          (Nat.zero_le _)
      · exact ih _

end Mounts

end HybridMount
