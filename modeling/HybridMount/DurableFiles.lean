import HybridMount.WriteInvariant

/-! A file of the daemon is always one which was written as a whole, and a call which reported success
is not undone by a crash. -/

namespace HybridMount.AtomicWrite

theorem Reachable.inv {s : State} (h : Reachable s) : Inv s := by
  induction h with
  | booted h => exact inv_booted h
  | step _ hs ih => exact ih.step hs

variable {s s' : State} {t : Name}

/-- Whatever else goes on, a name reads as what the last rename of it gave, or as what was found. -/
theorem atomic_write_whole (h : Reachable s) (ht : Target t) :
    Dated s t (s.newest t) (s.disk.read t) ∧ ∀ k c, s.published[k]? = some (t, c) → k + 1 ≤ s.newest t :=
  ⟨h.inv.shelf.current t ht, h.inv.shelf.newest t⟩

/-- After a crash a name reads as what some rename gave. No call which has ever reported success came
later, whether its process is still there or not: `kept` is at least the rename of each of them. -/
theorem atomic_write_durable (h : Reachable s) (hc : Crashed s s') (ht : Target t) :
    ∃ k, s.kept t ≤ k ∧ Dated s t k (s'.disk.read t) ∧ ∀ id w stamp, s.writer id = some w → w.target = t →
    w.phase = .done stamp →
      stamp ≤ s.kept t ∧ Dated s t stamp (some w.content) := by
  obtain ⟨-, e, he, hread⟩ := (h.inv.shelf.whole t ht).crash hc.disk
  obtain ⟨k, hk, hdated⟩ := h.inv.shelf.dated t ht e he
  refine ⟨k, hk, by rw [hread]; exact hdated, fun id w stamp hw htarget hp => ?_⟩
  have hgood := h.inv.good id w hw
  have hstamped := (hgood.stamped stamp (by rw [hp]; rfl)).1
  have hkept := hgood.kept stamp hp
  rw [htarget] at hstamped hkept
  exact ⟨hkept, hstamped⟩

/-- A machine with an empty directory. -/
def emptied : State where
  disk := ⟨fun _ => none, fun _ => {none}, fun _ => ⟨[], true⟩, 0⟩
  sequence _ := 0
  writer _ := none
  found _ := none
  published := []
  newest _ := 0
  kept _ := 0

theorem booted_emptied : Booted emptied where
  flushed _ _ _ := rfl
  settled _ := rfl
  old _ _ h := by cases h
  sequence _ := rfl
  writer _ := rfl
  found _ := rfl
  published := rfl
  newest _ := rfl
  kept _ := rfl

/-- Process 7 is killed in a call, and a new process of its number and process 8 write the file too. -/
def abandoned : Writer := ⟨7, ['a'], [1], .opening 0⟩

def retried : Writer := ⟨7, ['a'], [2], .opening 0⟩

def rival : Writer := ⟨8, ['a'], [3], .opening 0⟩

/-- The temporary file of process 7 is left. -/
def left : State :=
  let started := { emptied with writer := Function.update emptied.writer 0 (some abandoned) }
  let created := { started.advance 7 with disk := started.disk.create (abandoned.temporary 0) }.enter 0
    abandoned (.writing 0 0 [1])
  let full := { created with disk := created.disk.append 0 [1] }.enter 0 abandoned (.writing 0 0 [])
  let permitted := (full.enter 0 abandoned (.written 0 0)).enter 0 abandoned (.permitted 0 0)
  let flushed := { permitted with disk := permitted.disk.sync 0 }.enter 0 abandoned (.flushed 0 0)
  { flushed with
    sequence := Function.update flushed.sequence 7 0
    writer := fun id => (flushed.writer id).filter fun w => w.pid ≠ 7 }

/-- The new process takes the next number, since the file is still there. -/
def opened : State :=
  let started := { left with writer := Function.update left.writer 1 (some retried) }
  let both := { started with writer := Function.update started.writer 2 (some rival) }
  let collided := (both.advance 7).enter 1 retried (.opening 1)
  let created := { collided.advance 8 with disk := collided.disk.create (rival.temporary 0) }.enter 2 rival
    (.writing 0 1 [3])
  { created.advance 7 with disk := created.disk.create (retried.temporary 1) }.enter 1 retried
    (.writing 1 2 [2])

/-- Both are ready to rename. -/
def ready : State :=
  let full₂ := { opened with disk := opened.disk.append 1 [3] }.enter 2 rival (.writing 0 1 [])
  let full₁ := { full₂ with disk := full₂.disk.append 2 [2] }.enter 1 retried (.writing 1 2 [])
  let permitted₁ := (full₁.enter 1 retried (.written 1 2)).enter 1 retried (.permitted 1 2)
  let permitted₂ := (permitted₁.enter 2 rival (.written 0 1)).enter 2 rival (.permitted 0 1)
  let flushed₁ := { permitted₂ with disk := permitted₂.disk.sync 2 }.enter 1 retried (.flushed 1 2)
  { flushed₁ with disk := flushed₁.disk.sync 1 }.enter 2 rival (.flushed 0 1)

/-- Process 8 renames first, and the other reports success first. -/
def raced : State :=
  let renamed₂ := { ready with
    disk := ready.disk.rename (rival.temporary 0) ['a']
    published := ready.published ++ [(['a'], [3])]
    newest := Function.update ready.newest ['a'] (ready.published.length + 1) }.enter 2 rival (.renamed 0 1)
  let renamed₁ := { renamed₂ with
    disk := renamed₂.disk.rename (retried.temporary 1) ['a']
    published := renamed₂.published ++ [(['a'], [2])]
    newest := Function.update renamed₂.newest ['a'] (renamed₂.published.length + 1) }.enter 1 retried
      (.renamed 1 2)
  let done₁ := { renamed₁ with
    disk := renamed₁.disk.syncDir
    kept := Function.update renamed₁.kept ['a'] (renamed₁.newest ['a']) }.enter 1 retried (.done 2)
  let cleaned := { done₁ with disk := done₁.disk.remove (abandoned.temporary 0) }
  { cleaned with
    disk := cleaned.disk.syncDir
    kept := Function.update cleaned.kept ['a'] (cleaned.newest ['a']) }.enter 2 rival (.done 1)

theorem target_a : Target ['a'] := ⟨by decide, by decide⟩

theorem first_bound : 0 < 2 ^ 64 := by decide

theorem reachable_left : Reachable left := by
  refine .step (.step (.step (.step (.step (.step (.step (.booted booted_emptied)
    (.start 0 7 ['a'] [1] rfl target_a (by decide))) (.create 0 abandoned 0 rfl rfl first_bound rfl))
    (.write 0 { abandoned with phase := .writing 0 0 [1] } 0 0 [1] [] rfl rfl))
    (.written 0 { abandoned with phase := .writing 0 0 [] } 0 0 rfl rfl))
    (.permit 0 { abandoned with phase := .written 0 0 } 0 0 rfl rfl))
    (.flush 0 { abandoned with phase := .permitted 0 0 } 0 0 rfl rfl)) (.kill 7)

theorem reachable_opened : Reachable opened := by
  refine .step (.step (.step (.step (.step reachable_left
    (.start 1 7 ['a'] [2] rfl target_a (by decide))) (.start 2 8 ['a'] [3] rfl target_a (by decide)))
    (.collide 1 retried 0 rfl rfl first_bound ?_ (by decide))) (.create 2 rival 0 rfl rfl first_bound rfl))
    (.create 1 { retried with phase := .opening 1 } 1 rfl rfl (by decide) rfl)
  exact Option.some_ne_none 0

theorem reachable_ready : Reachable ready := by
  refine .step (.step (.step (.step (.step (.step (.step (.step reachable_opened
    (.write 2 { rival with phase := .writing 0 1 [3] } 0 1 [3] [] rfl rfl))
    (.write 1 { retried with phase := .writing 1 2 [2] } 1 2 [2] [] rfl rfl))
    (.written 1 { retried with phase := .writing 1 2 [] } 1 2 rfl rfl))
    (.permit 1 { retried with phase := .written 1 2 } 1 2 rfl rfl))
    (.written 2 { rival with phase := .writing 0 1 [] } 0 1 rfl rfl))
    (.permit 2 { rival with phase := .written 0 1 } 0 1 rfl rfl))
    (.flush 1 { retried with phase := .permitted 1 2 } 1 2 rfl rfl))
    (.flush 2 { rival with phase := .permitted 0 1 } 0 1 rfl rfl)

theorem owner_abandoned : temporaryOwner (abandoned.temporary 0) = some 7 :=
  temporaryOwner_temporaryName target_a.named (by decide) (by decide)

theorem reachable_raced : Reachable raced := by
  refine .step (.step (.step (.step (.step reachable_ready
    (.rename 2 { rival with phase := .flushed 0 1 } 0 1 rfl rfl ?_))
    (.rename 1 { retried with phase := .flushed 1 2 } 1 2 rfl rfl ?_))
    (.syncParent 1 { retried with phase := .renamed 1 2 } 1 2 rfl rfl))
    (.cleanup 8 7 (abandoned.temporary 0) owner_abandoned (by decide)))
    (.syncParent 2 { rival with phase := .renamed 0 1 } 0 1 rfl rfl)
  · exact Option.some_ne_none 1
  · exact Option.some_ne_none 2

/-- The machine after a crash which came then. -/
def restarted : State := { emptied with disk := raced.disk, found := raced.disk.read }

theorem restarted_entry {n : Name} {i : Nat} (h : restarted.disk.entry n = some i) : i = 2 := by
  have hentry : restarted.disk.entry =
      Function.update (Function.update
        (Function.update (Function.update (Function.update (Function.update (Function.update
        (Function.update (fun _ => none) (abandoned.temporary 0) (some 0)) (rival.temporary 0) (some 1))
        (retried.temporary 1) (some 2))
        ['a'] (some 1)) (rival.temporary 0) none) ['a'] (some 2)) (retried.temporary 1) none)
        (abandoned.temporary 0) none := rfl
  rw [hentry] at h
  simp only [Function.update_apply] at h
  split_ifs at h with h₁ h₂ h₃ h₄
  exact (Option.some.inj h).symm

theorem crashed_restarted : Crashed raced restarted where
  disk := ⟨fun _ => rfl, fun _ => rfl, fun _ _ => rfl, rfl⟩
  booted := by
    refine ⟨fun n i hi => ?_, fun _ => rfl, fun n i hi => ?_, fun _ => rfl, fun _ => rfl, fun _ => rfl, rfl,
      fun _ => rfl, fun _ => rfl⟩
    · rw [restarted_entry (Eq.symm hi)]
      rfl
    · rw [restarted_entry hi]
      decide

theorem atomic_write_whole_raced : Dated raced ['a'] (raced.newest ['a']) (raced.disk.read ['a']) ∧
    ∀ k c, raced.published[k]? = some (['a'], c) → k + 1 ≤ raced.newest ['a'] :=
  atomic_write_whole reachable_raced target_a

theorem atomic_write_durable_restarted :
    ∃ k, raced.kept ['a'] ≤ k ∧ Dated raced ['a'] k (restarted.disk.read ['a']) ∧
    ∀ id w stamp, raced.writer id = some w → w.target = ['a'] → w.phase = .done stamp →
      stamp ≤ raced.kept ['a'] ∧ Dated raced ['a'] stamp (some w.content) :=
  atomic_write_durable reachable_raced crashed_restarted target_a

end HybridMount.AtomicWrite
