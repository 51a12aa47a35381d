import HybridMount.Mounts

/-! A boot records its new mounts as owned. The checks of the next operation
accept the fresh record unless an old mount sits below a new one. -/

namespace HybridMount

/-- The state of the mount table after a boot that reported all its targets. -/
structure Booted (targets : List String) (baseline current : List OwnedMount) : Prop where
  unique : (ownedIds current).Nodup
  positive : ∀ entry ∈ current, 0 < entry.id
  kept : baseline ⊆ current
  absolute : ∀ target ∈ targets, Path.isAbsolute target = true
  placed : ∀ entry ∈ current, entry ∉ baseline → entry.target ∈ targets

def newMounts (baseline current : List OwnedMount) : List OwnedMount :=
  current.filter fun entry => !(ownedIds baseline).contains entry.id

def ownedAfterBoot (baseline current : List OwnedMount) : List OwnedMount :=
  (newMounts baseline current).map (recordMount baseline)

/-- The capture yields exactly the new mounts and the next preflight finds all of them active. -/
def Validates (targets : List String) (baseline current : List OwnedMount) : Prop :=
  captureSnapshot targets baseline current = .ok (ownedAfterBoot baseline current) ∧
    ∃ active, Mounts.preflight (ownedAfterBoot baseline current) current = .ok active ∧
      active.Perm (ownedAfterBoot baseline current)

/-- Some mount of the baseline sits strictly below the path of a new mount. -/
def HiddenDescendant (baseline current : List OwnedMount) : Prop :=
  ∃ old ∈ baseline, ∃ new ∈ newMounts baseline current,
    old.target ≠ new.target ∧ Path.startsWith old.target new.target = true

variable {targets : List String} {baseline current : List OwnedMount}

theorem mem_newMounts {entry : OwnedMount} :
    entry ∈ newMounts baseline current ↔ entry ∈ current ∧ entry.id ∉ ownedIds baseline := by
  simp [newMounts]

theorem ownedIds_ownedAfterBoot :
    ownedIds (ownedAfterBoot baseline current) = ownedIds (newMounts baseline current) := by
  simp [ownedIds, ownedAfterBoot, recordMount]

theorem sameIdentity_refl (entry : OwnedMount) : sameIdentity entry entry = true :=
  sameIdentity_iff.mpr ⟨rfl, rfl, rfl, rfl, rfl⟩

namespace Booted

theorem eq_of_id (h : Booted targets baseline current) {a b : OwnedMount} (ha : a ∈ current)
    (hb : b ∈ current) (hid : a.id = b.id) : a = b :=
  List.inj_on_of_nodup_map h.unique ha hb hid

theorem old_or_new (h : Booted targets baseline current) {entry : OwnedMount} (he : entry ∈ current) :
    entry ∈ baseline ∨ entry ∈ newMounts baseline current := by
  by_cases hid : entry.id ∈ ownedIds baseline
  · obtain ⟨old, hold, heq⟩ := List.mem_map.mp hid
    rw [← h.eq_of_id (h.kept hold) he heq]
    exact .inl hold
  · exact .inr (mem_newMounts.mpr ⟨he, hid⟩)

theorem new_placed (h : Booted targets baseline current) {entry : OwnedMount}
    (he : entry ∈ newMounts baseline current) : entry.target ∈ targets := by
  obtain ⟨hcur, hid⟩ := mem_newMounts.mp he
  exact h.placed entry hcur fun hold => hid (List.mem_map_of_mem hold)

theorem captured (h : Booted targets baseline current) :
    captureSnapshot targets baseline current = .ok (ownedAfterBoot baseline current) := by
  have hrec : ∀ rest, rest ⊆ current →
      captureSnapshot targets baseline rest = .ok (ownedAfterBoot baseline rest) := by
    intro rest hsub
    induction rest with
    | nil => rfl
    | cons entry rest ih =>
      obtain ⟨he, hrest⟩ := List.cons_subset.mp hsub
      have hh := ih hrest
      by_cases hid : entry.id ∈ ownedIds baseline
      · have hskip : ownedAfterBoot baseline (entry :: rest) = ownedAfterBoot baseline rest := by
          simp [ownedAfterBoot, newMounts, hid]
        rw [hskip]
        obtain ⟨old, hold, heq⟩ := List.mem_map.mp hid
        cases hf : baseline.find? fun old => old.id == entry.id with
        | none =>
          have hno := List.find?_eq_none.mp hf old hold
          simp [heq] at hno
        | some previous =>
          have hprev := List.mem_of_find?_eq_some hf
          have hpid : previous.id = entry.id := by simpa using List.find?_some hf
          have hsame := h.eq_of_id (h.kept hprev) he hpid
          simp only [captureSnapshot, hf, hsame, sameIdentity_refl, if_true, hh, ite_self]
      · have htake : ownedAfterBoot baseline (entry :: rest) =
            recordMount baseline entry :: ownedAfterBoot baseline rest := by
          simp [ownedAfterBoot, newMounts, hid]
        rw [htake]
        have hf : (baseline.find? fun old => old.id == entry.id) = none := by
          refine List.find?_eq_none.mpr fun old hold => ?_
          have hne : old.id ≠ entry.id := fun heq => hid (heq ▸ List.mem_map_of_mem hold)
          simpa using hne
        have htarget := h.new_placed (mem_newMounts.mpr ⟨he, hid⟩)
        simp only [captureSnapshot, List.contains_iff_mem.mpr htarget, if_true, hf, hh]
        rfl
  exact hrec current (List.Subset.refl _)

theorem liveOwned_eq (_ : Booted targets baseline current) :
    liveOwned (ownedAfterBoot baseline current) current = ownedAfterBoot baseline current := by
  refine List.filter_eq_self.mpr fun entry he => ?_
  obtain ⟨new, hnew, rfl⟩ := List.mem_map.mp he
  exact List.any_eq_true.mpr ⟨new, (mem_newMounts.mp hnew).1, by simp [recordMount]⟩

/-- Among the checks only the one for foreign descendants can refuse a fresh record. -/
theorem cleared_iff (h : Booted targets baseline current) :
    Mounts.Cleared (ownedAfterBoot baseline current) current ↔ ¬ HiddenDescendant baseline current := by
  constructor
  · rintro hc ⟨old, hold, new, hnew, hne, hbelow⟩
    have hlive : recordMount baseline new ∈ liveOwned (ownedAfterBoot baseline current) current := by
      rw [h.liveOwned_eq]
      exact List.mem_map_of_mem hnew
    have hid := blocks_eq_false.mp (hc.clear _ hlive old (h.kept hold)) hne hbelow
    rw [ownedIds_ownedAfterBoot] at hid
    obtain ⟨other, hother, heq⟩ := List.mem_map.mp hid
    exact (mem_newMounts.mp hother).2 (heq ▸ List.mem_map_of_mem hold)
  · intro hno
    refine ⟨h.unique, ?_, ?_, ?_, ?_, ?_⟩
    · rw [ownedIds_ownedAfterBoot]
      exact h.unique.sublist (List.filter_sublist.map _)
    · intro expected he
      obtain ⟨new, hnew, rfl⟩ := List.mem_map.mp he
      obtain ⟨hcur, hid⟩ := mem_newMounts.mp hnew
      refine ⟨h.absolute new.target (h.new_placed hnew), h.positive new hcur, fun hin => ?_⟩
      obtain ⟨old, hold, heq⟩ := List.mem_map.mp hin
      exact hid (List.mem_map.mpr ⟨old, (List.mem_filter.mp hold).1, heq⟩)
    · intro expected he actual hactual hid
      obtain ⟨new, hnew, rfl⟩ := List.mem_map.mp he
      rw [h.eq_of_id hactual (mem_newMounts.mp hnew).1 hid]
      exact sameIdentity_iff.mpr ⟨rfl, rfl, rfl, rfl, rfl⟩
    · intro expected he actual hactual
      obtain ⟨new, hnew, rfl⟩ := List.mem_map.mp he
      refine replaces_eq_false.mpr fun htarget => ?_
      change actual.target = new.target at htarget
      rw [ownedIds_ownedAfterBoot]
      rcases h.old_or_new hactual with hold | hnew'
      · exact .inr (List.mem_map.mpr ⟨actual, List.mem_filter.mpr ⟨hold, by simpa using htarget⟩, rfl⟩)
      · exact .inl (List.mem_map_of_mem hnew')
    · intro expected he actual hactual
      rw [h.liveOwned_eq] at he
      obtain ⟨new, hnew, rfl⟩ := List.mem_map.mp he
      refine blocks_eq_false.mpr fun hne hbelow => ?_
      rw [ownedIds_ownedAfterBoot]
      rcases h.old_or_new hactual with hold | hnew'
      · exact absurd ⟨actual, hold, new, hnew, hne, hbelow⟩ hno
      · exact List.mem_map_of_mem hnew'

end Booted

/-- A fresh ownership record validates exactly where no old mount sits below a new one. -/
theorem fresh_ownership_validates (h : Booted targets baseline current) :
    Validates targets baseline current ↔ ¬ HiddenDescendant baseline current := by
  rw [← h.cleared_iff]
  constructor
  · rintro ⟨-, active, hpre, -⟩
    exact (Mounts.preflight_eq_ok.mp hpre).1
  · intro hc
    refine ⟨h.captured, _, Mounts.preflight_eq_ok.mpr ⟨hc, rfl⟩, ?_⟩
    rw [h.liveOwned_eq]
    exact List.perm_insertionSort _ _

def plainMount (id : Int) (target : String) : OwnedMount := ⟨target, id, [], "0:1", "ext4", none⟩

/-- Mounts stacked on an old one, and one below them. -/
theorem fresh_ownership_validates_system :
    Validates ["/system", "/system/etc"] [plainMount 1 "/", plainMount 2 "/system"]
      [plainMount 1 "/", plainMount 2 "/system", plainMount 3 "/system", plainMount 4 "/system",
        plainMount 5 "/system/etc"] := by
  refine (fresh_ownership_validates ⟨by decide, by decide, by decide, by decide, by decide⟩).mpr ?_
  unfold HiddenDescendant
  decide

/-- An overlay over a partition with a child mount leaves a record that is refused. -/
theorem overlay_over_child_mount_refused :
    ¬ ∀ (targets : List String) (baseline current : List OwnedMount),
      Booted targets baseline current → Validates targets baseline current := by
  intro h
  have hb : Booted ["/vendor", "/vendor/firmware"]
      [plainMount 1 "/vendor", plainMount 2 "/vendor/firmware"]
      [plainMount 1 "/vendor", plainMount 2 "/vendor/firmware", plainMount 3 "/vendor",
        plainMount 4 "/vendor/firmware"] :=
    ⟨by decide, by decide, by decide, by decide, by decide⟩
  obtain ⟨-, active, hpre, -⟩ := h _ _ _ hb
  exact hb.cleared_iff.mp (Mounts.preflight_eq_ok.mp hpre).1 ⟨plainMount 2 "/vendor/firmware", by decide,
    plainMount 3 "/vendor", by decide, by decide, by decide⟩

end HybridMount
