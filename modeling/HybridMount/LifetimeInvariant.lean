import HybridMount.DirLifetime

/-! What the counts, the references and the read sections of a directory node say of each other,
kept by every step of every lookup, of every eviction and of the free of its rule. -/

namespace HybridMount.Vfs.Lifetime

/-- The phases before the inode is counted. -/
def Creator.early : Creator → Bool
  | .idle => true
  | .looking => true
  | .got => true
  | _ => false

/-- The phases between the count and the end of the publication. -/
def Creator.young : Creator → Bool
  | .counted => true
  | .looping => true
  | .aimed _ => true
  | .crashed => true
  | _ => false

/-- The phases which hold what the section found in the child set. -/
def Creator.sheltered : Creator → Bool
  | .looking => true
  | .got => true
  | .counted => true
  | _ => false

def Check.decides : Check → Bool
  | .users => true
  | .slot => true
  | .put => true
  | _ => false

/-- What the phases of one number say of each other. -/
structure Matched (c : Creator) (e : Evictor) (k : Check) : Prop where
  unborn : e = .unborn ↔ c.early = true
  young : c.young = true → e = .live
  passed : k = .idle ↔ e ≠ .passed

/-- The reference the rule was given is there until somebody who retired the slot drops it. -/
def Based (slot : Slot) (check : Retirer → Check) : Prop := slot ≠ .retired ∨ ∃ r, check r = .put

/-- The references are those of the lookups and the one the rule was given. -/
def Ledger (s : State) : Prop :=
  ∃ p b, Tally Creator.pins s.creator p ∧ s.refs = p + Bool.toNat b ∧ (b = true ↔ Based s.slot s.check)

/-- Somebody will still look whether the inodes of an orphan are gone. -/
def Watched (check : Retirer → Check) (evictor : Nat → Evictor) : Prop :=
  (∃ r, check r = .users ∨ check r = .slot) ∨ ∃ i, evictor i = .dropped

structure Inv (s : State) : Prop where
  safe : s.fault = false
  users : Tally Evictor.counts s.evictor s.users
  refs : Ledger s
  matched : ∀ i, Matched (s.creator i) (s.evictor i) (s.check (.evictor i))
  aimed : ∀ i previous, s.creator i = .aimed previous → previous ≠ .retired
  published : ∀ j, s.slot = .inode j → s.evictor j = .live ∨ s.evictor j = .evicting
  retired : s.slot = .retired → s.users = 0 ∧ s.orphan = true
  freer : s.check .freer = .idle ↔ s.orphan = false
  deciding : ∀ r, (s.check r).decides = true → s.orphan = true
  detached : s.orphan = true → s.attached = false ∧ ∀ i, (s.creator i).sheltered = false
  unused : ∀ r, s.check r = .slot → s.users = 0
  putting : ∀ r, s.check r = .put → s.slot = .retired ∧ ∀ r', s.check r' = .put → r' = r
  pending : s.orphan = true → s.slot = .empty → s.users = 0 → Watched s.check s.evictor
  condemned : s.condemned = true ↔ s.refs = 0
  waits : s.condemned = true → ∀ t, s.waiting t = s.inSection t
  freed : s.freed = true → s.condemned = true ∧ ∀ t, s.waiting t = false
  childless : s.orphan = true → s.stranded = false → s.children = 0
  stale : s.stale = true → s.stranded = true

theorem inv_fresh : Inv fresh where
  safe := rfl
  users := Tally.none fun _ => rfl
  refs := ⟨0, true, Tally.none fun _ => rfl, rfl, by simp [Based, fresh]⟩
  matched i := ⟨by simp [fresh, Creator.early], by simp [fresh, Creator.young], by simp [fresh]⟩
  aimed i previous h := by cases h
  published j h := by cases h
  retired h := by cases h
  freer := by simp [fresh]
  deciding r h := by cases h
  detached h := by cases h
  unused r h := rfl
  putting r h := by cases h
  pending h := by cases h
  condemned := by simp [fresh]
  waits h := by cases h
  freed h := by cases h
  childless h := by cases h
  stale h := by cases h

namespace Inv

variable {s s' : State}

theorem based_pos (h : Inv s) (hb : Based s.slot s.check) : s.refs ≠ 0 := by
  obtain ⟨p, b, -, hrefs, hbased⟩ := h.refs
  rw [hrefs, hbased.mpr hb]
  simp

theorem pinned_pos (h : Inv s) {i : Nat} (hi : (s.creator i).pins = true) : s.refs ≠ 0 := by
  obtain ⟨p, b, htally, hrefs, -⟩ := h.refs
  have hpos := htally.pos hi
  omega

theorem counted_pos (h : Inv s) {i : Nat} (hi : (s.evictor i).counts = true) : s.refs ≠ 0 := by
  refine h.based_pos (.inl fun hr => ?_)
  have hpos := h.users.pos hi
  rw [(h.retired hr).1] at hpos
  exact lt_irrefl 0 hpos

theorem owned_pos (h : Inv s) (ho : s.orphan = false) : s.refs ≠ 0 := by
  refine h.based_pos (.inl fun hr => ?_)
  rw [(h.retired hr).2] at ho
  cases ho

theorem attached_pos (h : Inv s) (ha : s.attached = true) : s.refs ≠ 0 := by
  refine h.owned_pos ?_
  cases ho : s.orphan with
  | false => rfl
  | true =>
    rw [(h.detached ho).1] at ha
    cases ha

theorem freer_pos (h : Inv s) (hf : s.check .freer = .idle) : s.refs ≠ 0 := h.owned_pos (h.freer.mp hf)

theorem not_condemned (h : Inv s) (hpos : s.refs ≠ 0) : s.condemned = false := by
  cases hc : s.condemned with
  | false => rfl
  | true => exact absurd (h.condemned.mp hc) hpos

/-- Whoever has a reference or is in a section has the node. -/
theorem alive (h : Inv s) (hpos : s.refs ≠ 0) : s.freed = false := by
  cases hf : s.freed with
  | false => rfl
  | true => exact absurd (h.condemned.mp (h.freed hf).1) hpos

theorem alive_inside (h : Inv s) {t : Thread} (ht : s.inSection t = true) : s.freed = false := by
  cases hf : s.freed with
  | false => rfl
  | true =>
    obtain ⟨hc, hnone⟩ := h.freed hf
    rw [← h.waits hc t, hnone t] at ht
    cases ht

theorem touch_safe (h : Inv s) (hfreed : s.freed = false) : s.touch.fault = false := by
  simp [State.touch, h.safe, hfreed]

theorem inside_creator (h : Inv s) {i : Nat} (hi : (s.creator i).reads = true) : s.freed = false :=
  h.alive_inside (t := .creator i) hi

theorem inside_evictor (h : Inv s) {i : Nat} (hi : (s.evictor i).reads = true) : s.freed = false :=
  h.alive_inside (t := .retirer (.evictor i)) (by simp [State.inSection, hi])

theorem inside_check (h : Inv s) {r : Retirer} (hr : (s.check r).reads = true) : s.freed = false := by
  cases r with
  | evictor i => exact h.alive_inside (t := .retirer (.evictor i)) (by simp [State.inSection, hr])
  | freer => exact h.alive_inside (t := .retirer .freer) hr

theorem step_safe (h : Inv s) (hs : Step s s') : s'.fault = false := by
  cases hs with
  | look i hi ha => exact h.safe
  | peek i hi => exact h.touch_safe (h.inside_creator (by rw [hi]; rfl))
  | get i hi hrefs => exact h.touch_safe (h.alive hrefs)
  | missed i hi hrefs => exact h.touch_safe (h.inside_creator (by rw [hi]; rfl))
  | count i hi => exact h.touch_safe (h.alive (h.pinned_pos (by rw [hi]; rfl)))
  | publish i hi hslot => exact h.touch_safe (h.alive (h.pinned_pos (by rw [hi]; rfl)))
  | lose i hi hslot => exact h.touch_safe (h.alive (h.pinned_pos (by rw [hi]; rfl)))
  | retry i j hi hslot => exact h.touch_safe (h.alive (h.pinned_pos (by rw [hi]; rfl)))
  | aim i hi hslot => exact h.touch_safe (h.alive (h.pinned_pos (by rw [hi]; rfl)))
  | aimRetired i hi hslot => exact h.touch_safe (h.alive (h.pinned_pos (by rw [hi]; rfl)))
  | swap i previous hi hslot => exact h.touch_safe (h.alive (h.pinned_pos (by rw [hi]; rfl)))
  | swapLost i previous hi hslot hsome => exact h.touch_safe (h.alive (h.pinned_pos (by rw [hi]; rfl)))
  | swapRetry i j previous hi hslot hinode => exact h.touch_safe (h.alive (h.pinned_pos (by rw [hi]; rfl)))
  | swapEmptied i previous hi hslot hempty => exact h.touch_safe (h.alive (h.pinned_pos (by rw [hi]; rfl)))
  | release i hi =>
    have hpos := h.pinned_pos (i := i) (by rw [hi]; rfl)
    simp [State.put, State.setCreator, State.touch, h.safe, h.alive hpos, hpos]
  | use i hi => exact h.touch_safe (h.alive (h.counted_pos (i := i) (by rw [hi]; rfl)))
  | link ha => exact h.touch_safe (h.alive (h.attached_pos ha))
  | adopt ha => exact h.touch_safe (h.alive (h.attached_pos ha))
  | unlink hc => exact h.safe
  | relink hc => exact h.safe
  | preserve ha => exact h.touch_safe (h.alive (h.attached_pos ha))
  | evict i hi hdone => exact h.safe
  | clear i hi => exact h.touch_safe (h.inside_evictor (by rw [hi]; rfl))
  | drop i hi => exact h.touch_safe (h.inside_evictor (by rw [hi]; rfl))
  | owned i hi ho => exact h.touch_safe (h.inside_evictor (by rw [hi]; rfl))
  | orphaned i hi ho => exact h.touch_safe (h.inside_evictor (by rw [hi]; rfl))
  | unused r hr hzero => exact h.touch_safe (h.inside_check (by rw [hr]; rfl))
  | used r hr hsome => exact h.touch_safe (h.inside_check (by rw [hr]; rfl))
  | retire r hr hslot => exact h.touch_safe (h.inside_check (by rw [hr]; rfl))
  | beaten r hr hslot => exact h.touch_safe (h.inside_check (by rw [hr]; rfl))
  | put r hr =>
    have hpos := h.based_pos (.inr ⟨r, hr⟩)
    simp [State.put, State.setCheck, State.touch, h.safe, h.alive hpos, hpos]
  | leave r hr => exact h.safe
  | detach ha => exact h.safe
  | orphan ha hf hgrace => exact h.touch_safe (h.alive (h.freer_pos hf))
  | reclaim hc hgrace => exact h.safe

theorem step_users (h : Inv s) (hs : Step s s') : Tally Evictor.counts s'.evictor s'.users := by
  cases hs with
  | count i hi =>
    refine h.users.gain ?_ rfl
    rw [(h.matched i).unborn.mpr (by rw [hi]; rfl)]
    rfl
  | evict i hi hdone => exact h.users.keep (by rw [hi]; rfl)
  | clear i hi => exact h.users.keep (by rw [hi]; rfl)
  | drop i hi => exact h.users.loss (by rw [hi]; rfl) rfl
  | owned i hi ho => exact h.users.keep (by rw [hi]; rfl)
  | orphaned i hi ho => exact h.users.keep (by rw [hi]; rfl)
  | _ => exact h.users

theorem based_of_check {slot : Slot} {check : Retirer → Check} {r : Retirer} {phase : Check}
    (hr : check r ≠ .put)
    (hphase : phase ≠ .put) : Based slot (Function.update check r phase) ↔ Based slot check := by
  have hput : ∀ r', Function.update check r phase r' = .put ↔ check r' = .put := by
    intro r'
    by_cases heq : r' = r
    · rw [heq, Function.update_self]
      exact ⟨fun hp => absurd hp hphase, fun hp => absurd hp hr⟩
    · rw [Function.update_of_ne heq]
  simp only [Based, hput]

/-- Neither the references nor the slot's mark change. -/
theorem ledger_keep (h : Inv s) {i : Nat} {phase : Creator} (hpins : phase.pins = (s.creator i).pins)
    (hcreator : s'.creator = Function.update s.creator i phase) (hrefs : s'.refs = s.refs)
    (hbased : Based s'.slot s'.check ↔ Based s.slot s.check) : Ledger s' := by
  obtain ⟨p, b, htally, hp, hb⟩ := h.refs
  refine ⟨p, b, ?_, by rw [hrefs, hp], hb.trans hbased.symm⟩
  rw [hcreator]
  exact htally.keep hpins

theorem ledger_same (h : Inv s) (hcreator : s'.creator = s.creator) (hrefs : s'.refs = s.refs)
    (hbased : Based s'.slot s'.check ↔ Based s.slot s.check) : Ledger s' := by
  obtain ⟨p, b, htally, hp, hb⟩ := h.refs
  exact ⟨p, b, by rw [hcreator]; exact htally, by rw [hrefs, hp], hb.trans hbased.symm⟩

theorem attached_slot (h : Inv s) (ha : s.attached = true) : s.slot ≠ .retired := by
  intro hr
  rw [(h.detached (h.retired hr).2).1] at ha
  cases ha

theorem step_refs (h : Inv s) (hs : Step s s') : Ledger s' := by
  cases hs with
  | look i hi ha => exact h.ledger_keep (by rw [hi]; rfl) rfl rfl Iff.rfl
  | peek i hi => exact h.ledger_keep (by rw [hi]; rfl) rfl rfl Iff.rfl
  | get i hi hrefs =>
    obtain ⟨p, b, htally, hp, hb⟩ := h.refs
    refine ⟨p + 1, b, htally.gain (by rw [hi]; rfl) rfl, ?_, hb⟩
    change s.refs + 1 = _
    rw [hp]
    omega
  | missed i hi hrefs => exact h.ledger_keep (by rw [hi]; rfl) rfl rfl Iff.rfl
  | count i hi => exact h.ledger_keep (by rw [hi]; rfl) rfl rfl Iff.rfl
  | publish i hi hslot =>
    refine h.ledger_keep (by rw [hi]; rfl) rfl rfl
      ⟨fun _ => .inl ?_, fun _ => .inl (by simp [State.quit, State.setCreator, State.store])⟩
    rw [hslot]
    simp
  | lose i hi hslot => exact h.ledger_keep (by rw [hi]; rfl) rfl rfl Iff.rfl
  | retry i j hi hslot => exact h.ledger_keep (by rw [hi]; rfl) rfl rfl Iff.rfl
  | aim i hi hslot => exact h.ledger_keep (by rw [hi]; rfl) rfl rfl Iff.rfl
  | aimRetired i hi hslot => exact h.ledger_keep (by rw [hi]; rfl) rfl rfl Iff.rfl
  | swap i previous hi hslot =>
    refine h.ledger_keep (by rw [hi]; rfl) rfl rfl
      ⟨fun _ => .inl ?_, fun _ => .inl (by simp [State.quit, State.setCreator, State.store])⟩
    rw [hslot]
    exact h.aimed i previous hi
  | swapLost i previous hi hslot hsome => exact h.ledger_keep (by rw [hi]; rfl) rfl rfl Iff.rfl
  | swapRetry i j previous hi hslot hinode => exact h.ledger_keep (by rw [hi]; rfl) rfl rfl Iff.rfl
  | swapEmptied i previous hi hslot hempty => exact h.ledger_keep (by rw [hi]; rfl) rfl rfl Iff.rfl
  | release i hi =>
    obtain ⟨p, b, htally, hp, hb⟩ := h.refs
    have hpins : (s.creator i).pins = true := by rw [hi]; rfl
    have hpos := htally.pos hpins
    refine ⟨p - 1, b, htally.loss hpins rfl, ?_, hb⟩
    change s.refs - 1 = _
    omega
  | preserve ha =>
    exact h.ledger_same rfl rfl ⟨fun _ => .inl (h.attached_slot ha), fun _ => .inl (by simp [State.store])⟩
  | clear i hi =>
    refine h.ledger_same rfl rfl ?_
    simp only [State.setEvictor, State.store, State.touch]
    split
    · rename_i hslot
      simp [Based, hslot]
    · exact Iff.rfl
  | owned i hi ho =>
    have hidle := (h.matched i).passed.mpr (by rw [hi]; simp)
    exact h.ledger_same rfl rfl (based_of_check (by simp [State.touch, State.setEvictor, hidle]) (by simp))
  | orphaned i hi ho =>
    have hidle := (h.matched i).passed.mpr (by rw [hi]; simp)
    exact h.ledger_same rfl rfl (based_of_check (by simp [State.touch, State.setEvictor, hidle]) (by simp))
  | unused r hr hzero => exact h.ledger_same rfl rfl (based_of_check (by simp [State.touch, hr]) (by simp))
  | used r hr hsome => exact h.ledger_same rfl rfl (based_of_check (by simp [State.touch, hr]) (by simp))
  | retire r hr hslot =>
    refine h.ledger_same rfl rfl ⟨fun _ => .inl ?_, fun _ => .inr ⟨r, by simp [State.setCheck]⟩⟩
    rw [hslot]
    simp
  | beaten r hr hslot => exact h.ledger_same rfl rfl (based_of_check (by simp [State.touch, hr]) (by simp))
  | put r hr =>
    obtain ⟨hslot, honly⟩ := h.putting r hr
    obtain ⟨p, b, htally, hp, hb⟩ := h.refs
    have htrue : b = true := hb.mpr (.inr ⟨r, hr⟩)
    refine ⟨p, false, htally, ?_, ?_⟩
    · change s.refs - 1 = _
      rw [hp, htrue]
      simp
    · refine ⟨fun hf => Bool.noConfusion hf, fun hbased => ?_⟩
      rcases hbased with hne | ⟨r', hr'⟩
      · exact absurd hslot hne
      · by_cases heq : r' = r
        · simp [State.put, State.setCheck, heq] at hr'
        · simp only [State.put, State.setCheck, State.touch, Function.update_of_ne heq] at hr'
          exact absurd (honly r' hr') heq
  | leave r hr => exact h.ledger_same rfl rfl (based_of_check (by simp [hr]) (by simp))
  | orphan ha hf hgrace => exact h.ledger_same rfl rfl (based_of_check (by simp [State.touch, hf]) (by simp))
  | _ => exact h.refs

theorem matched_creator (h : Inv s) {i : Nat} {phase : Creator} (hearly : phase.early = (s.creator i).early)
    (hyoung : phase.young = true → (s.creator i).young = true) :
    ∀ j, Matched (Function.update s.creator i phase j) (s.evictor j) (s.check (.evictor j)) := by
  intro j
  by_cases hj : j = i
  · subst hj
    rw [Function.update_self]
    exact ⟨by rw [hearly]; exact (h.matched j).unborn, fun hy => (h.matched j).young (hyoung hy),
      (h.matched j).passed⟩
  · rw [Function.update_of_ne hj]
    exact h.matched j

/-- An inode goes on; its lookup is past the publication. -/
theorem matched_evictor (h : Inv s) {i : Nat} {phase : Evictor} (hborn : s.evictor i ≠ .unborn)
    (hyoung : (s.creator i).young = false)
    (hphase : phase ≠ .unborn) (hpassed : s.check (.evictor i) = .idle) (hlast : phase ≠ .passed) :
    ∀ j, Matched (s.creator j) (Function.update s.evictor i phase j) (s.check (.evictor j)) := by
  intro j
  by_cases hj : j = i
  · subst hj
    rw [Function.update_self]
    refine ⟨⟨fun hu => absurd hu hphase, fun he => absurd ((h.matched j).unborn.mpr he) hborn⟩, fun hy => ?_,
      ⟨fun _ => hlast, fun _ => hpassed⟩⟩
    rw [hyoung] at hy
    cases hy
  · rw [Function.update_of_ne hj]
    exact h.matched j

theorem matched_passed (h : Inv s) {i : Nat} {phase : Check} (hi : s.evictor i = .dropped)
    (hphase : phase ≠ .idle) :
    ∀ j, Matched (s.creator j) (Function.update s.evictor i .passed j)
      (Function.update s.check (.evictor i) phase (.evictor j)) := by
  intro j
  by_cases hj : j = i
  · subst hj
    rw [Function.update_self, Function.update_self]
    refine ⟨⟨fun hu => Evictor.noConfusion hu, fun he => ?_⟩, fun hy => ?_,
      ⟨fun hk => absurd hk hphase, fun hp => absurd rfl hp⟩⟩
    · have hunborn := (h.matched j).unborn.mpr he
      rw [hi] at hunborn
      cases hunborn
    · have hlive := (h.matched j).young hy
      rw [hi] at hlive
      cases hlive
  · rw [Function.update_of_ne hj, Function.update_of_ne (by simpa using hj)]
    exact h.matched j

theorem matched_check (h : Inv s) {r : Retirer} {phase : Check} (hr : s.check r ≠ .idle)
    (hphase : phase ≠ .idle) :
    ∀ j, Matched (s.creator j) (s.evictor j) (Function.update s.check r phase (.evictor j)) := by
  intro j
  by_cases hj : Retirer.evictor j = r
  · subst hj
    rw [Function.update_self]
    exact ⟨(h.matched j).unborn, (h.matched j).young,
      ⟨fun hk => absurd hk hphase, fun hp => absurd ((h.matched j).passed.mpr hp) hr⟩⟩
  · rw [Function.update_of_ne hj]
    exact h.matched j

theorem matched_count (h : Inv s) {i : Nat} (hi : s.creator i = .got) :
    ∀ j, Matched (Function.update s.creator i .counted j) (Function.update s.evictor i .live j)
      (s.check (.evictor j)) := by
  intro j
  by_cases hj : j = i
  · subst hj
    rw [Function.update_self, Function.update_self]
    have hunborn := (h.matched j).unborn.mpr (by rw [hi]; rfl)
    have hidle := (h.matched j).passed.mpr (by rw [hunborn]; simp)
    exact ⟨by simp [Creator.early], fun _ => rfl, ⟨fun _ => by simp, fun _ => hidle⟩⟩
  · rw [Function.update_of_ne hj, Function.update_of_ne hj]
    exact h.matched j

theorem settled (h : Inv s) {i : Nat} (hi : s.evictor i = .evicting ∨ s.evictor i = .cleared) :
    (s.creator i).young = false ∧ s.check (.evictor i) = .idle := by
  constructor
  · cases hy : (s.creator i).young with
    | false => rfl
    | true =>
      have hlive := (h.matched i).young hy
      rcases hi with hi | hi <;> rw [hi] at hlive <;> cases hlive
  · refine (h.matched i).passed.mpr ?_
    rcases hi with hi | hi <;> rw [hi] <;> simp

theorem step_matched (h : Inv s) (hs : Step s s') :
    ∀ i, Matched (s'.creator i) (s'.evictor i) (s'.check (.evictor i)) := by
  cases hs with
  | look i hi ha => exact h.matched_creator (by rw [hi]; rfl) (by simp [Creator.young])
  | peek i hi => exact h.matched_creator (by rw [hi]; rfl) (by simp [Creator.young])
  | get i hi hrefs => exact h.matched_creator (by rw [hi]; rfl) (by simp [Creator.young])
  | missed i hi hrefs => exact h.matched_creator (by rw [hi]; rfl) (by simp [Creator.young])
  | count i hi => exact h.matched_count hi
  | publish i hi hslot => exact h.matched_creator (by rw [hi]; rfl) (by simp [Creator.young])
  | lose i hi hslot => exact h.matched_creator (by rw [hi]; rfl) (by simp [Creator.young])
  | retry i j hi hslot => exact h.matched_creator (by rw [hi]; rfl) (fun _ => by rw [hi]; rfl)
  | aim i hi hslot => exact h.matched_creator (by rw [hi]; rfl) (fun _ => by rw [hi]; rfl)
  | aimRetired i hi hslot => exact h.matched_creator (by rw [hi]; rfl) (by simp [Creator.young])
  | swap i previous hi hslot => exact h.matched_creator (by rw [hi]; rfl) (by simp [Creator.young])
  | swapLost i previous hi hslot hsome => exact h.matched_creator (by rw [hi]; rfl) (by simp [Creator.young])
  | swapRetry i j previous hi hslot hinode =>
    exact h.matched_creator (by rw [hi]; rfl) (fun _ => by rw [hi]; rfl)
  | swapEmptied i previous hi hslot hempty =>
    exact h.matched_creator (by rw [hi]; rfl) (fun _ => by rw [hi]; rfl)
  | release i hi => exact h.matched_creator (by rw [hi]; rfl) (by simp [Creator.young])
  | evict i hi hdone =>
    refine h.matched_evictor (by rw [hi]; simp) ?_ (by simp)
      ((h.matched i).passed.mpr (by rw [hi]; simp)) (by simp)
    rcases hdone with hd | hd <;> rw [hd] <;> rfl
  | clear i hi =>
    exact h.matched_evictor (by rw [hi]; simp) (h.settled (.inl hi)).1 (by simp)
      (h.settled (.inl hi)).2 (by simp)
  | drop i hi =>
    exact h.matched_evictor (by rw [hi]; simp) (h.settled (.inr hi)).1 (by simp)
      (h.settled (.inr hi)).2 (by simp)
  | owned i hi ho => exact h.matched_passed hi (by simp)
  | orphaned i hi ho => exact h.matched_passed hi (by simp)
  | unused r hr hzero => exact h.matched_check (by rw [hr]; simp) (by simp)
  | used r hr hsome => exact h.matched_check (by rw [hr]; simp) (by simp)
  | retire r hr hslot => exact h.matched_check (by rw [hr]; simp) (by simp)
  | beaten r hr hslot => exact h.matched_check (by rw [hr]; simp) (by simp)
  | put r hr => exact h.matched_check (by rw [hr]; simp) (by simp)
  | leave r hr => exact h.matched_check (by rw [hr]; simp) (by simp)
  | orphan ha hf hgrace =>
    intro j
    have hne : Retirer.evictor j ≠ .freer := by simp
    simp only [State.setCheck, State.touch, Function.update_of_ne hne]
    exact h.matched j
  | _ => exact h.matched

theorem aimed_creator (h : Inv s) {i : Nat} {phase : Creator}
    (hphase : ∀ previous, phase = .aimed previous → previous ≠ .retired) :
    ∀ j previous, Function.update s.creator i phase j = .aimed previous → previous ≠ .retired := by
  intro j previous hj
  by_cases heq : j = i
  · rw [heq, Function.update_self] at hj
    exact hphase previous hj
  · rw [Function.update_of_ne heq] at hj
    exact h.aimed j previous hj

theorem step_aimed (h : Inv s) (hs : Step s s') : ∀ i previous, s'.creator i = .aimed previous →
    previous ≠ .retired := by
  cases hs with
  | look i hi ha => exact h.aimed_creator (by simp)
  | peek i hi => exact h.aimed_creator (by simp)
  | get i hi hrefs => exact h.aimed_creator (by simp)
  | missed i hi hrefs => exact h.aimed_creator (by simp)
  | count i hi => exact h.aimed_creator (by simp)
  | publish i hi hslot => exact h.aimed_creator (by simp)
  | lose i hi hslot => exact h.aimed_creator (by simp)
  | retry i j hi hslot => exact h.aimed_creator (by simp)
  | aim i hi hslot =>
    refine h.aimed_creator fun previous hp => ?_
    rw [← Creator.aimed.inj hp]
    exact hslot
  | aimRetired i hi hslot => exact h.aimed_creator (by simp)
  | swap i previous hi hslot => exact h.aimed_creator (by simp)
  | swapLost i previous hi hslot hsome => exact h.aimed_creator (by simp)
  | swapRetry i j previous hi hslot hinode => exact h.aimed_creator (by simp)
  | swapEmptied i previous hi hslot hempty => exact h.aimed_creator (by simp)
  | release i hi => exact h.aimed_creator (by simp)
  | _ => exact h.aimed

/-- The slot has the inode of a lookup which is about to return it. -/
theorem published_own (h : Inv s) {i : Nat} (hi : (s.creator i).young = true) :
    ∀ j, Slot.inode i = .inode j → s.evictor j = .live ∨ s.evictor j = .evicting := by
  intro j hj
  rw [← Slot.inode.inj hj]
  exact .inl ((h.matched i).young hi)

theorem published_evictor (h : Inv s) {i : Nat} {phase : Evictor}
    (hi : s.slot = .inode i → phase = .live ∨ phase = .evicting) :
    ∀ j, s.slot = .inode j → Function.update s.evictor i phase j = .live ∨
    Function.update s.evictor i phase j = .evicting := by
  intro j hj
  by_cases heq : j = i
  · rw [heq, Function.update_self]
    rw [heq] at hj
    exact hi hj
  · rw [Function.update_of_ne heq]
    exact h.published j hj

/-- An inode which was cleared is in the slot no longer. -/
theorem not_published (h : Inv s) {i : Nat} (hi : s.evictor i = .cleared ∨ s.evictor i = .dropped) :
    s.slot ≠ .inode i := by
  intro hslot
  rcases h.published i hslot with hl | hl <;> rw [hl] at hi <;> rcases hi with hi | hi <;> cases hi

theorem step_published (h : Inv s) (hs : Step s s') : ∀ j, s'.slot = .inode j → s'.evictor j = .live ∨
    s'.evictor j = .evicting := by
  cases hs with
  | count i hi => exact h.published_evictor fun _ => .inl rfl
  | publish i hi hslot => exact h.published_own (by rw [hi]; rfl)
  | swap i previous hi hslot => exact h.published_own (by rw [hi]; rfl)
  | preserve ha =>
    intro j hj
    cases hj
  | evict i hi hdone => exact h.published_evictor fun _ => .inr rfl
  | clear i hi =>
    intro j hj
    simp only [State.setEvictor, State.store, State.touch] at hj ⊢
    split at hj
    · cases hj
    · rename_i hslot
      by_cases heq : j = i
      · rw [heq] at hj
        exact absurd hj hslot
      · rw [Function.update_of_ne heq]
        exact h.published j hj
  | drop i hi => exact h.published_evictor fun hslot => absurd hslot (h.not_published (.inl hi))
  | owned i hi ho => exact h.published_evictor fun hslot => absurd hslot (h.not_published (.inr hi))
  | orphaned i hi ho => exact h.published_evictor fun hslot => absurd hslot (h.not_published (.inr hi))
  | retire r hr hslot =>
    intro j hj
    cases hj
  | _ => exact h.published

/-- A lookup in the section which found the rule keeps it from being freed. -/
theorem sheltered_owned (h : Inv s) {i : Nat} (hi : (s.creator i).sheltered = true) : s.orphan = false := by
  cases ho : s.orphan with
  | false => rfl
  | true =>
    rw [(h.detached ho).2 i] at hi
    cases hi

theorem attached_owned (h : Inv s) (ha : s.attached = true) : s.orphan = false := by
  cases ho : s.orphan with
  | false => rfl
  | true =>
    rw [(h.detached ho).1] at ha
    cases ha

theorem step_retired (h : Inv s) (hs : Step s s') : s'.slot = .retired → s'.users = 0 ∧ s'.orphan = true := by
  cases hs with
  | count i hi =>
    intro hslot
    have howned := h.sheltered_owned (i := i) (by rw [hi]; rfl)
    rw [(h.retired hslot).2] at howned
    cases howned
  | publish i hi hslot =>
    intro hr
    cases hr
  | swap i previous hi hslot =>
    intro hr
    cases hr
  | preserve ha =>
    intro hr
    cases hr
  | clear i hi =>
    intro hr
    simp only [State.setEvictor, State.store, State.touch] at hr ⊢
    split at hr
    · cases hr
    · exact h.retired hr
  | drop i hi =>
    intro hr
    obtain ⟨husers, ho⟩ := h.retired hr
    exact ⟨by simp [State.setEvictor, husers], ho⟩
  | retire r hr hslot =>
    intro _
    exact ⟨h.unused r hr, h.deciding r (by rw [hr]; rfl)⟩
  | orphan ha hf hgrace =>
    intro hr
    exact ⟨(h.retired hr).1, rfl⟩
  | _ => exact h.retired

theorem freer_check (h : Inv s) {r : Retirer} {phase : Check} (hr : s.check r ≠ .idle)
    (hphase : phase ≠ .idle) :
    Function.update s.check r phase .freer = .idle ↔ s.orphan = false := by
  by_cases heq : Retirer.freer = r
  · subst heq
    rw [Function.update_self]
    exact ⟨fun hp => absurd hp hphase, fun ho => absurd (h.freer.mpr ho) hr⟩
  · rw [Function.update_of_ne heq]
    exact h.freer

theorem freer_evictor (h : Inv s) (i : Nat) (phase : Check) :
    Function.update s.check (.evictor i) phase .freer = .idle ↔ s.orphan = false := by
  rw [Function.update_of_ne (by simp)]
  exact h.freer

theorem step_freer (h : Inv s) (hs : Step s s') : s'.check .freer = .idle ↔ s'.orphan = false := by
  cases hs with
  | owned i hi ho => exact h.freer_evictor i .leave
  | orphaned i hi ho => exact h.freer_evictor i .users
  | unused r hr hzero => exact h.freer_check (by rw [hr]; simp) (by simp)
  | used r hr hsome => exact h.freer_check (by rw [hr]; simp) (by simp)
  | retire r hr hslot => exact h.freer_check (by rw [hr]; simp) (by simp)
  | beaten r hr hslot => exact h.freer_check (by rw [hr]; simp) (by simp)
  | put r hr => exact h.freer_check (by rw [hr]; simp) (by simp)
  | leave r hr => exact h.freer_check (by rw [hr]; simp) (by simp)
  | orphan ha hf hgrace => simp [State.setCheck]
  | _ => exact h.freer

theorem deciding_check (h : Inv s) {r : Retirer} {phase : Check}
    (hphase : phase.decides = true → s.orphan = true) :
    ∀ r', (Function.update s.check r phase r').decides = true → s.orphan = true := by
  intro r' hr'
  by_cases heq : r' = r
  · rw [heq, Function.update_self] at hr'
    exact hphase hr'
  · rw [Function.update_of_ne heq] at hr'
    exact h.deciding r' hr'

theorem step_deciding (h : Inv s) (hs : Step s s') : ∀ r, (s'.check r).decides = true → s'.orphan = true := by
  cases hs with
  | owned i hi ho => exact h.deciding_check (by simp [Check.decides])
  | orphaned i hi ho => exact h.deciding_check fun _ => ho
  | unused r hr hzero => exact h.deciding_check fun _ => h.deciding r (by rw [hr]; rfl)
  | used r hr hsome => exact h.deciding_check (by simp [Check.decides])
  | retire r hr hslot => exact h.deciding_check fun _ => h.deciding r (by rw [hr]; rfl)
  | beaten r hr hslot => exact h.deciding_check (by simp [Check.decides])
  | put r hr => exact h.deciding_check (by simp [Check.decides])
  | leave r hr => exact h.deciding_check (by simp [Check.decides])
  | orphan ha hf hgrace => exact fun _ _ => rfl
  | _ => exact h.deciding

theorem sheltered_creator (h : Inv s) {i : Nat} {phase : Creator}
    (hphase : s.orphan = true → phase.sheltered = false) :
    s.orphan = true → s.attached = false ∧ ∀ j, (Function.update s.creator i phase j).sheltered = false := by
  intro ho
  refine ⟨(h.detached ho).1, fun j => ?_⟩
  by_cases heq : j = i
  · rw [heq, Function.update_self]
    exact hphase ho
  · rw [Function.update_of_ne heq]
    exact (h.detached ho).2 j

theorem step_detached (h : Inv s) (hs : Step s s') :
    s'.orphan = true → s'.attached = false ∧ ∀ i, (s'.creator i).sheltered = false := by
  cases hs with
  | look i hi ha =>
    refine h.sheltered_creator fun ho => ?_
    rw [h.attached_owned ha] at ho
    cases ho
  | peek i hi => exact h.sheltered_creator fun _ => rfl
  | get i hi hrefs =>
    refine h.sheltered_creator fun ho => ?_
    rw [h.sheltered_owned (i := i) (by rw [hi]; rfl)] at ho
    cases ho
  | missed i hi hrefs => exact h.sheltered_creator fun _ => rfl
  | count i hi =>
    refine h.sheltered_creator fun ho => ?_
    rw [h.sheltered_owned (i := i) (by rw [hi]; rfl)] at ho
    cases ho
  | publish i hi hslot => exact h.sheltered_creator fun _ => rfl
  | lose i hi hslot => exact h.sheltered_creator fun _ => rfl
  | retry i j hi hslot => exact h.sheltered_creator fun _ => rfl
  | aim i hi hslot => exact h.sheltered_creator fun _ => rfl
  | aimRetired i hi hslot => exact h.sheltered_creator fun _ => rfl
  | swap i previous hi hslot => exact h.sheltered_creator fun _ => rfl
  | swapLost i previous hi hslot hsome => exact h.sheltered_creator fun _ => rfl
  | swapRetry i j previous hi hslot hinode => exact h.sheltered_creator fun _ => rfl
  | swapEmptied i previous hi hslot hempty => exact h.sheltered_creator fun _ => rfl
  | release i hi => exact h.sheltered_creator fun _ => rfl
  | detach ha => exact fun ho => ⟨rfl, (h.detached ho).2⟩
  | orphan ha hf hgrace =>
    refine fun _ => ⟨ha, fun i => ?_⟩
    obtain ⟨hlooking, hgot, hcounted⟩ := hgrace i
    change (s.creator i).sheltered = false
    cases hc : s.creator i with
    | looking => exact absurd hc hlooking
    | got => exact absurd hc hgot
    | counted => exact absurd hc hcounted
    | _ => rfl
  | _ => exact h.detached

theorem unused_check (h : Inv s) {r : Retirer} {phase : Check} (hphase : phase = .slot → s.users = 0) :
    ∀ r', Function.update s.check r phase r' = .slot → s.users = 0 := by
  intro r' hr'
  by_cases heq : r' = r
  · rw [heq, Function.update_self] at hr'
    exact hphase hr'
  · rw [Function.update_of_ne heq] at hr'
    exact h.unused r' hr'

theorem step_unused (h : Inv s) (hs : Step s s') : ∀ r, s'.check r = .slot → s'.users = 0 := by
  cases hs with
  | count i hi =>
    intro r hr
    have ho := h.deciding r (by rw [show s.check r = .slot from hr]; rfl)
    rw [h.sheltered_owned (i := i) (by rw [hi]; rfl)] at ho
    cases ho
  | drop i hi =>
    intro r hr
    have husers := h.unused r hr
    simp [State.setEvictor, husers]
  | owned i hi ho => exact h.unused_check (by simp)
  | orphaned i hi ho => exact h.unused_check (by simp)
  | unused r hr hzero => exact h.unused_check fun _ => hzero
  | used r hr hsome => exact h.unused_check (by simp)
  | retire r hr hslot => exact h.unused_check (by simp)
  | beaten r hr hslot => exact h.unused_check (by simp)
  | put r hr => exact h.unused_check (by simp)
  | leave r hr => exact h.unused_check (by simp)
  | orphan ha hf hgrace => exact h.unused_check (by simp)
  | _ => exact h.unused

/-- Nobody is about to drop the rule's reference before the slot is retired. -/
theorem none_putting (h : Inv s) (hslot : s.slot ≠ .retired) (r : Retirer) : s.check r ≠ .put :=
  fun hr => hslot (h.putting r hr).1

theorem putting_check (h : Inv s) {r : Retirer} {phase : Check} (hphase : phase ≠ .put) :
    ∀ r₁, Function.update s.check r phase r₁ = .put →
      s.slot = .retired ∧ ∀ r₂, Function.update s.check r phase r₂ = .put → r₂ = r₁ := by
  intro r₁ hr₁
  by_cases heq : r₁ = r
  · rw [heq, Function.update_self] at hr₁
    exact absurd hr₁ hphase
  · rw [Function.update_of_ne heq] at hr₁
    obtain ⟨hslot, honly⟩ := h.putting r₁ hr₁
    refine ⟨hslot, fun r₂ hr₂ => ?_⟩
    by_cases heq₂ : r₂ = r
    · rw [heq₂, Function.update_self] at hr₂
      exact absurd hr₂ hphase
    · rw [Function.update_of_ne heq₂] at hr₂
      exact honly r₂ hr₂

theorem step_putting (h : Inv s) (hs : Step s s') :
    ∀ r, s'.check r = .put → s'.slot = .retired ∧ ∀ r', s'.check r' = .put → r' = r := by
  cases hs with
  | publish i hi hslot => exact fun r hr => absurd hr (h.none_putting (by rw [hslot]; simp) r)
  | swap i previous hi hslot =>
    exact fun r hr => absurd hr (h.none_putting (by rw [hslot]; exact h.aimed i previous hi) r)
  | preserve ha => exact fun r hr => absurd hr (h.none_putting (h.attached_slot ha) r)
  | clear i hi =>
    intro r hr
    obtain ⟨hslot, honly⟩ := h.putting r hr
    refine ⟨?_, honly⟩
    simp [State.setEvictor, State.store, hslot]
  | owned i hi ho => exact h.putting_check (by simp)
  | orphaned i hi ho => exact h.putting_check (by simp)
  | unused r hr hzero => exact h.putting_check (by simp)
  | used r hr hsome => exact h.putting_check (by simp)
  | retire r hr hslot =>
    have hself : ∀ r₁, Function.update s.check r .put r₁ = .put → r₁ = r := by
      intro r₁ hr₁
      by_cases heq : r₁ = r
      · exact heq
      · rw [Function.update_of_ne heq] at hr₁
        exact absurd hr₁ (h.none_putting (by rw [hslot]; simp) r₁)
    exact fun r₁ hr₁ => ⟨rfl, fun r₂ hr₂ => (hself r₂ hr₂).trans (hself r₁ hr₁).symm⟩
  | beaten r hr hslot => exact h.putting_check (by simp)
  | put r hr => exact h.putting_check (by simp)
  | leave r hr => exact h.putting_check (by simp)
  | orphan ha hf hgrace => exact h.putting_check (by simp)
  | _ => exact h.putting

theorem watched_check {check : Retirer → Check} {evictor : Nat → Evictor} {r : Retirer} {phase : Check}
    (hw : Watched check evictor) (hr : check r ≠ .users ∧ check r ≠ .slot) :
    Watched (Function.update check r phase) evictor := by
  rcases hw with ⟨r', hr'⟩ | hdropped
  · refine .inl ⟨r', ?_⟩
    rw [Function.update_of_ne]
    · exact hr'
    · intro heq
      rw [heq] at hr'
      rcases hr' with hr' | hr'
      · exact hr.1 hr'
      · exact hr.2 hr'
  · exact .inr hdropped

theorem watched_evictor {check : Retirer → Check} {evictor : Nat → Evictor} {i : Nat} {phase : Evictor}
    (hw : Watched check evictor) (hi : evictor i ≠ .dropped) :
    Watched check (Function.update evictor i phase) := by
  rcases hw with hcheck | ⟨j, hj⟩
  · exact .inl hcheck
  · refine .inr ⟨j, ?_⟩
    rw [Function.update_of_ne]
    · exact hj
    · intro heq
      rw [heq] at hj
      exact hi hj

theorem step_pending (h : Inv s) (hs : Step s s') :
    s'.orphan = true → s'.slot = .empty → s'.users = 0 → Watched s'.check s'.evictor := by
  cases hs with
  | count i hi => exact fun _ _ husers => absurd husers (Nat.succ_ne_zero s.users)
  | publish i hi hslot => exact fun _ hempty => by cases hempty
  | swap i previous hi hslot => exact fun _ hempty => by cases hempty
  | preserve ha =>
    have howned := h.attached_owned ha
    intro ho
    rw [show s.orphan = true from ho] at howned
    cases howned
  | evict i hi hdone =>
    exact fun ho hempty husers => watched_evictor (h.pending ho hempty husers) (by rw [hi]; simp)
  | clear i hi =>
    intro _ _ husers
    have hpos := h.users.pos (i := i) (by rw [hi]; rfl)
    exact absurd husers (Nat.pos_iff_ne_zero.mp hpos)
  | drop i hi => exact fun _ _ _ => .inr ⟨i, by simp [State.setEvictor]⟩
  | owned i hi ho =>
    intro ho'
    rw [show s.orphan = true from ho'] at ho
    cases ho
  | orphaned i hi ho => exact fun _ _ _ => .inl ⟨.evictor i, .inl (by simp [State.setCheck])⟩
  | unused r hr hzero => exact fun _ _ _ => .inl ⟨r, .inr (by simp [State.setCheck])⟩
  | used r hr hsome => exact fun _ _ husers => absurd husers hsome
  | retire r hr hslot => exact fun _ hempty => by cases hempty
  | beaten r hr hslot => exact fun _ hempty => absurd hempty hslot
  | put r hr =>
    exact fun ho hempty husers => watched_check (h.pending ho hempty husers) (by simp [State.touch, hr])
  | leave r hr => exact fun ho hempty husers => watched_check (h.pending ho hempty husers) (by rw [hr]; simp)
  | orphan ha hf hgrace => exact fun _ _ _ => .inl ⟨.freer, .inl (by simp [State.setCheck])⟩
  | _ => exact h.pending

theorem put_condemned (h : Inv s) (hpos : s.refs ≠ 0) : (s.condemned || s.refs == 1) = true ↔
    s.refs - 1 = 0 := by
  rw [h.not_condemned hpos, Bool.false_or, beq_iff_eq]
  omega

theorem step_condemned (h : Inv s) (hs : Step s s') : s'.condemned = true ↔ s'.refs = 0 := by
  cases hs with
  | get i hi hrefs =>
    change s.condemned = true ↔ s.refs + 1 = 0
    rw [h.not_condemned hrefs]
    simp
  | release i hi => exact h.put_condemned (h.pinned_pos (i := i) (by rw [hi]; rfl))
  | put r hr => exact h.put_condemned (h.based_pos (.inr ⟨r, hr⟩))
  | _ => exact h.condemned

/-- The readers who are waited for are those in a section, since none begins any more. -/
theorem waits_keep (h : Inv s) (s' : State) (hc : s'.condemned = s.condemned)
    (ht : ∀ t, s'.waiting t = s.waiting t ∧ s'.inSection t = s.inSection t ∨ s'.waiting t = false ∧
      s'.inSection t = false) :
    s'.condemned = true → ∀ t, s'.waiting t = s'.inSection t := by
  intro hc' t
  rcases ht t with ⟨hwaiting, hin⟩ | ⟨hwaiting, hin⟩
  · rw [hwaiting, hin]
    exact h.waits (by rw [← hc]; exact hc') t
  · rw [hwaiting, hin]

theorem waits_vacuous (h : Inv s) (hpos : s.refs ≠ 0) (hc : s'.condemned = s.condemned) :
    s'.condemned = true → ∀ t, s'.waiting t = s'.inSection t := by
  intro hc'
  rw [hc, h.not_condemned hpos] at hc'
  cases hc'

theorem waits_put (h : Inv s) (hc : s'.condemned = (s.condemned || s.refs == 1)) (hpos : s.refs ≠ 0)
    (ht : s.refs = 1 → ∀ t, s'.waiting t = s'.inSection t) :
    s'.condemned = true → ∀ t, s'.waiting t = s'.inSection t := by
  intro hc'
  rw [hc, h.not_condemned hpos, Bool.false_or, beq_iff_eq] at hc'
  exact ht hc'

/-- Looking for the node again is another section. -/
theorem waits_peek (h : Inv s) (i : Nat) :
    s.condemned = true → ∀ t, ((s.touch.setCreator i .idle).quit (.creator i)).waiting t =
      ((s.touch.setCreator i .idle).quit (.creator i)).inSection t := by
  refine h.waits_keep ((s.touch.setCreator i .idle).quit (.creator i)) rfl fun t => ?_
  cases t with
  | creator j =>
    by_cases hj : j = i
    · refine .inr ?_
      simp [State.inSection, State.quit, State.setCreator, Creator.reads, hj]
    · refine .inl ?_
      simp [State.inSection, State.quit, State.setCreator, State.touch, Function.update_of_ne, hj]
  | retirer r => exact .inl ⟨by simp [State.quit, State.setCreator, State.touch], by cases r <;> rfl⟩

theorem section_check {r : Retirer} {phase : Check} (hr : (s.check r).reads = true)
    (hphase : phase.reads = true) (t : Thread) :
    (s.touch.setCheck r phase).inSection t = s.inSection t := by
  cases t with
  | creator i => rfl
  | retirer r' =>
    by_cases heq : r' = r
    · subst heq
      cases r' <;> simp [State.inSection, State.setCheck, State.touch, hr, hphase]
    · cases r' <;> simp only [State.inSection, State.setCheck, State.touch, Function.update_of_ne heq]

theorem waits_check (h : Inv s) {r : Retirer} {phase : Check} (hr : (s.check r).reads = true)
    (hphase : phase.reads = true) :
    s.condemned = true → ∀ t, s.waiting t = (s.touch.setCheck r phase).inSection t :=
  h.waits_keep (s.touch.setCheck r phase) rfl fun t => .inl ⟨rfl, section_check hr hphase t⟩

/-- The eviction goes on to the look at the slot in the section it is in. -/
theorem section_passed {i : Nat} {phase : Check} (hi : s.evictor i = .dropped) (hphase : phase.reads = true)
    (t : Thread) :
    ((s.touch.setEvictor i .passed).setCheck (.evictor i) phase).inSection t = s.inSection t := by
  cases t with
  | creator j => rfl
  | retirer r =>
    cases r with
    | evictor j =>
      by_cases hj : j = i
      · simp [State.inSection, State.setCheck, State.setEvictor, hi, hj, Evictor.reads, hphase]
      · have hne : Retirer.evictor j ≠ .evictor i := by simpa using hj
        simp only [State.inSection, State.setCheck, State.setEvictor, State.touch, Function.update_of_ne hj,
          Function.update_of_ne hne]
    | freer =>
      have hne : Retirer.freer ≠ .evictor i := by simp
      simp only [State.inSection, State.setCheck, State.setEvictor, State.touch, Function.update_of_ne hne]

theorem waits_passed (h : Inv s) {i : Nat} {phase : Check} (hi : s.evictor i = .dropped)
    (hphase : phase.reads = true) :
    s.condemned = true →
    ∀ t, s.waiting t = ((s.touch.setEvictor i .passed).setCheck (.evictor i) phase).inSection t :=
  h.waits_keep ((s.touch.setEvictor i .passed).setCheck (.evictor i) phase) rfl
    fun t => .inl ⟨rfl, section_passed hi hphase t⟩

/-- The reader who leaves is in no section, and the others are where they were. -/
theorem leave_section (h : Inv s) {r : Retirer} (hr : s.check r = .leave) (t : Thread) :
    ((s.setCheck r .done).quit (.retirer r)).waiting t = s.waiting t ∧
        ((s.setCheck r .done).quit (.retirer r)).inSection t = s.inSection t ∨
      ((s.setCheck r .done).quit (.retirer r)).waiting t = false ∧
        ((s.setCheck r .done).quit (.retirer r)).inSection t = false := by
  cases t with
  | creator i => exact .inl ⟨by simp [State.quit, State.setCheck], rfl⟩
  | retirer r' =>
    by_cases heq : r' = r
    · subst heq
      refine .inr ⟨by simp [State.quit], ?_⟩
      cases r' with
      | evictor i =>
        have hpassed : s.evictor i = .passed := by
          by_contra hne
          rw [(h.matched i).passed.mpr hne] at hr
          cases hr
        simp [State.inSection, State.quit, State.setCheck, Check.reads, Evictor.reads, hpassed]
      | freer => simp [State.inSection, State.quit, State.setCheck, Check.reads]
    · refine .inl ⟨by simp [State.quit, State.setCheck, heq], ?_⟩
      cases r' <;> simp only [State.inSection, State.quit, State.setCheck, Function.update_of_ne heq]

theorem step_waits (h : Inv s) (hs : Step s s') :
    s'.condemned = true → ∀ t, s'.waiting t = s'.inSection t := by
  cases hs with
  | look i hi ha => exact h.waits_vacuous (h.attached_pos ha) rfl
  | peek i hi => exact h.waits_peek i
  | get i hi hrefs => exact h.waits_vacuous hrefs rfl
  | missed i hi hrefs => exact h.waits_peek i
  | count i hi => exact h.waits_vacuous (h.pinned_pos (i := i) (by rw [hi]; rfl)) rfl
  | publish i hi hslot => exact h.waits_vacuous (h.pinned_pos (i := i) (by rw [hi]; rfl)) rfl
  | lose i hi hslot => exact h.waits_vacuous (h.pinned_pos (i := i) (by rw [hi]; rfl)) rfl
  | retry i j hi hslot => exact h.waits_vacuous (h.pinned_pos (i := i) (by rw [hi]; rfl)) rfl
  | aim i hi hslot => exact h.waits_vacuous (h.pinned_pos (i := i) (by rw [hi]; rfl)) rfl
  | aimRetired i hi hslot => exact h.waits_vacuous (h.pinned_pos (i := i) (by rw [hi]; rfl)) rfl
  | swap i previous hi hslot => exact h.waits_vacuous (h.pinned_pos (i := i) (by rw [hi]; rfl)) rfl
  | swapLost i previous hi hslot hsome => exact h.waits_vacuous (h.pinned_pos (i := i) (by rw [hi]; rfl)) rfl
  | swapRetry i j previous hi hslot hinode =>
    exact h.waits_vacuous (h.pinned_pos (i := i) (by rw [hi]; rfl)) rfl
  | swapEmptied i previous hi hslot hempty =>
    exact h.waits_vacuous (h.pinned_pos (i := i) (by rw [hi]; rfl)) rfl
  | release i hi =>
    refine h.waits_put rfl (h.pinned_pos (i := i) (by rw [hi]; rfl)) fun hone t => ?_
    have hone' : (s.touch.setCreator i .finished).refs = 1 := hone
    simp only [State.put, hone', if_true]
    cases t with
    | creator j => rfl
    | retirer r => cases r <;> rfl
  | use i hi => exact h.waits
  | link ha => exact h.waits
  | adopt ha => exact h.waits
  | unlink hc => exact h.waits
  | relink hc => exact h.waits
  | preserve ha => exact h.waits
  | evict i hi hdone => exact h.waits_vacuous (h.counted_pos (i := i) (by rw [hi]; rfl)) rfl
  | clear i hi => exact h.waits_vacuous (h.counted_pos (i := i) (by rw [hi]; rfl)) rfl
  | drop i hi => exact h.waits_vacuous (h.counted_pos (i := i) (by rw [hi]; rfl)) rfl
  | owned i hi ho => exact h.waits_passed hi rfl
  | orphaned i hi ho => exact h.waits_passed hi rfl
  | unused r hr hzero => exact h.waits_check (by rw [hr]; rfl) rfl
  | used r hr hsome => exact h.waits_check (by rw [hr]; rfl) rfl
  | retire r hr hslot => exact h.waits_vacuous (h.based_pos (.inl (by rw [hslot]; simp))) rfl
  | beaten r hr hslot => exact h.waits_check (by rw [hr]; rfl) rfl
  | put r hr =>
    refine h.waits_put rfl (h.based_pos (.inr ⟨r, hr⟩)) fun hone t => ?_
    have hone' : (s.touch.setCheck r .leave).refs = 1 := hone
    simp only [State.put, hone', if_true]
    cases t with
    | creator j => rfl
    | retirer r' => cases r' <;> rfl
  | leave r hr => exact h.waits_keep _ rfl (h.leave_section hr)
  | detach ha => exact h.waits
  | orphan ha hf hgrace => exact h.waits_vacuous (h.freer_pos hf) rfl
  | reclaim hc hgrace => exact h.waits

theorem freed_quit (h : Inv s) (t : Thread) :
    s.freed = true → s.condemned = true ∧ ∀ t', Function.update s.waiting t false t' = false := by
  intro hf
  obtain ⟨hc, hnone⟩ := h.freed hf
  refine ⟨hc, fun t' => ?_⟩
  by_cases heq : t' = t
  · rw [heq, Function.update_self]
  · rw [Function.update_of_ne heq]
    exact hnone t'

theorem freed_vacuous (h : Inv s) (hpos : s.refs ≠ 0) {P : Prop} : s.freed = true → P := by
  intro hf
  rw [h.alive hpos] at hf
  cases hf

theorem step_freed (h : Inv s) (hs : Step s s') :
    s'.freed = true → s'.condemned = true ∧ ∀ t, s'.waiting t = false := by
  cases hs with
  | peek i hi => exact h.freed_quit (.creator i)
  | missed i hi hrefs => exact h.freed_quit (.creator i)
  | publish i hi hslot => exact h.freed_quit (.creator i)
  | lose i hi hslot => exact h.freed_quit (.creator i)
  | retry i j hi hslot => exact h.freed_quit (.creator i)
  | swap i previous hi hslot => exact h.freed_quit (.creator i)
  | swapLost i previous hi hslot hsome => exact h.freed_quit (.creator i)
  | swapRetry i j previous hi hslot hinode => exact h.freed_quit (.creator i)
  | release i hi => exact h.freed_vacuous (h.pinned_pos (i := i) (by rw [hi]; rfl))
  | put r hr => exact h.freed_vacuous (h.based_pos (.inr ⟨r, hr⟩))
  | leave r hr => exact h.freed_quit (.retirer r)
  | reclaim hc hgrace => exact fun _ => ⟨hc, hgrace⟩
  | _ => exact h.freed

theorem step_childless (h : Inv s) (hs : Step s s') : s'.orphan = true → s'.stranded = false →
    s'.children = 0 := by
  cases hs with
  | link ha =>
    have howned := h.attached_owned ha
    intro ho
    rw [show s.orphan = true from ho] at howned
    cases howned
  | unlink hc => exact fun ho hstranded => absurd (h.childless ho hstranded) hc
  | orphan ha hf hgrace =>
    intro _ hstranded
    simp only [State.setCheck, Bool.or_eq_false_iff, bne_eq_false_iff_eq] at hstranded
    exact hstranded.2
  | _ => exact h.childless

/-- A child rule which is left leads to a node which was given back only if its owner was freed before it. -/
theorem stale_child (h : Inv s) (hc : s.children ≠ 0) : (s.stale || s.freed) = true → s.stranded = true := by
  intro hstale
  cases hstranded : s.stranded with
  | true => rfl
  | false =>
    have hfreed : s.freed = true := by
      cases hold : s.stale with
      | true =>
        rw [h.stale hold] at hstranded
        cases hstranded
      | false => simpa [hold] using hstale
    have horphan : s.orphan = true := by
      by_contra ho
      rw [h.alive (h.owned_pos (by simpa using ho))] at hfreed
      cases hfreed
    exact absurd (h.childless horphan hstranded) hc

theorem step_stale (h : Inv s) (hs : Step s s') : s'.stale = true → s'.stranded = true := by
  cases hs with
  | unlink hc => exact h.stale_child hc
  | relink hc => exact h.stale_child hc
  | orphan ha hf hgrace =>
    intro hstale
    simp [State.setCheck, h.stale hstale]
  | _ => exact h.stale

theorem step (h : Inv s) (hs : Step s s') : Inv s' where
  safe := h.step_safe hs
  users := h.step_users hs
  refs := h.step_refs hs
  matched := h.step_matched hs
  aimed := h.step_aimed hs
  published := h.step_published hs
  retired := h.step_retired hs
  freer := h.step_freer hs
  deciding := h.step_deciding hs
  detached := h.step_detached hs
  unused := h.step_unused hs
  putting := h.step_putting hs
  pending := h.step_pending hs
  condemned := h.step_condemned hs
  waits := h.step_waits hs
  freed := h.step_freed hs
  childless := h.step_childless hs
  stale := h.step_stale hs

end Inv

end HybridMount.Vfs.Lifetime
