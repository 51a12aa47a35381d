import HybridMount.LifetimeInvariant

/-! No interleaving of lookups, evictions and the free of a rule uses its directory node after it was
given back, drops a reference twice, or leaves the node behind. -/

namespace HybridMount.Vfs.Lifetime

theorem Reachable.inv {s : State} (h : Reachable s) : Inv s := by
  induction h with
  | fresh => exact inv_fresh
  | step _ hs ih => exact ih.step hs

/-- The rule is freed and every lookup and every inode of it has come to its end. -/
structure Quiet (s : State) : Prop where
  freer : s.check .freer = .done
  creator : ∀ i, s.creator i = .idle ∨ s.creator i = .finished
  evictor : ∀ i, s.evictor i = .unborn ∨ s.evictor i = .passed
  check : ∀ i, s.check (.evictor i) = .idle ∨ s.check (.evictor i) = .done

namespace Quiet

variable {s : State}

theorem check_done (hq : Quiet s) (r : Retirer) : s.check r = .idle ∨ s.check r = .done := by
  cases r with
  | evictor i => exact hq.check i
  | freer => exact .inr hq.freer

theorem outside (hq : Quiet s) (t : Thread) : s.inSection t = false := by
  cases t with
  | creator i => rcases hq.creator i with hi | hi <;> simp [State.inSection, hi, Creator.reads]
  | retirer r =>
    cases r with
    | evictor i =>
      rcases hq.evictor i with hi | hi <;> rcases hq.check i with hc | hc <;>
        simp [State.inSection, hi, hc, Evictor.reads, Check.reads]
    | freer => simp [State.inSection, hq.freer, Check.reads]

end Quiet

theorem quiet_condemned {s : State} (h : Inv s) (hq : Quiet s) : s.condemned = true := by
  have ho : s.orphan = true := by
    cases ho : s.orphan with
    | true => rfl
    | false =>
      have hidle := h.freer.mpr ho
      rw [hq.freer] at hidle
      cases hidle
  have husers : s.users = 0 := by
    refine h.users.eq_zero fun i => ?_
    rcases hq.evictor i with hi | hi <;> rw [hi] <;> rfl
  have hretired : s.slot = .retired := by
    cases hslot : s.slot with
    | retired => rfl
    | inode j =>
      rcases h.published j hslot with hj | hj <;> rcases hq.evictor j with hi | hi <;> rw [hi] at hj <;> cases hj
    | empty =>
      rcases h.pending ho hslot husers with ⟨r, hr⟩ | ⟨i, hi⟩
      · rcases hq.check_done r with hd | hd <;> rw [hd] at hr <;> rcases hr with hr | hr <;> cases hr
      · rcases hq.evictor i with he | he <;> rw [he] at hi <;> cases hi
  obtain ⟨p, b, htally, hrefs, hbased⟩ := h.refs
  have hp : p = 0 := by
    refine htally.eq_zero fun i => ?_
    rcases hq.creator i with hi | hi <;> rw [hi] <;> rfl
  have hb : b = false := by
    cases b with
    | false => rfl
    | true =>
      rcases hbased.mp rfl with hne | ⟨r, hr⟩
      · exact absurd hretired hne
      · rcases hq.check_done r with hd | hd <;> rw [hd] at hr <;> cases hr
  refine h.condemned.mpr ?_
  rw [hrefs, hp, hb]
  rfl

/-- Nobody knows of the node. -/
structure Unknown (s : State) : Prop where
  attached : s.attached = false
  refs : s.refs = 0
  creator : ∀ i, (s.creator i).pins = false
  evictor : ∀ i, (s.evictor i).counts = false
  outside : ∀ t, s.inSection t = false

theorem freed_unknown {s : State} (h : Inv s) (hf : s.freed = true) : Unknown s := by
  obtain ⟨hc, hnone⟩ := h.freed hf
  have hrefs := h.condemned.mp hc
  refine ⟨?_, hrefs, fun i => ?_, fun i => ?_, fun t => ?_⟩
  · by_contra ha
    exact h.attached_pos (by simpa using ha) hrefs
  · by_contra hi
    exact h.pinned_pos (by simpa using hi) hrefs
  · by_contra hi
    exact h.counted_pos (by simpa using hi) hrefs
  · rw [← h.waits hc t]
    exact hnone t

/-- No lookup, eviction, open directory or free finds the node given back, no reference is dropped
which nobody has, and a request comes too late only by a child rule which outlived the owner. -/
theorem node_used_while_there {s : State} (h : Reachable s) :
    s.fault = false ∧ (s.freed = true → Unknown s) ∧ (s.stale = true → s.stranded = true) :=
  ⟨h.inv.safe, freed_unknown h.inv, h.inv.stale⟩

/-- The node of a rule which is gone is not left behind. -/
theorem node_given_back {s : State} (h : Reachable s) (hq : Quiet s) : ∃ s', Step s s' ∧ s'.freed = true := by
  have hc := quiet_condemned h.inv hq
  refine ⟨{ s with freed := true }, .reclaim hc fun t => ?_, rfl⟩
  rw [h.inv.waits hc t]
  exact hq.outside t

/-- A lookup publishes an inode, the rule is freed while it is there, and the eviction retires the
node. A child rule is linked before and deleted between the removal of the rule and its free. -/
def evictedLast : State :=
  let looked := ((fresh.setCreator 0 .looking))
  let got := { looked.touch with refs := looked.refs + 1 }.setCreator 0 .got
  let counted := ({ got.touch with users := got.users + 1 }.setEvictor 0 .live).setCreator 0 .counted
  let published := ((counted.store (.inode 0)).setCreator 0 .holding).quit (.creator 0)
  let returned := (published.touch.setCreator 0 .finished).put
  let linked := { returned.touch with children := returned.children + 1 }
  let detached := { linked with attached := false }
  let unlinked := { detached with
    children := detached.children - 1, stale := detached.stale || detached.freed }
  let orphan := { unlinked.touch with
    orphan := true, stranded := unlinked.stranded || unlinked.children != 0 }.setCheck .freer .users
  let left := ((orphan.touch.setCheck .freer .leave).setCheck .freer .done).quit (.retirer .freer)
  let evicting := left.setEvictor 0 .evicting
  let cleared := (evicting.store .empty).setEvictor 0 .cleared
  let dropped := { cleared.touch with users := cleared.users - 1 }.setEvictor 0 .dropped
  let passed := (dropped.touch.setEvictor 0 .passed).setCheck (.evictor 0) .users
  let retired := ((passed.touch.setCheck (.evictor 0) .slot).store .retired).setCheck (.evictor 0) .put
  ((retired.touch.setCheck (.evictor 0) .leave).put.setCheck (.evictor 0) .done).quit (.retirer (.evictor 0))

theorem reachable_evictedLast : Reachable evictedLast := by
  refine .step (.step (.step (.step
    (.step (.step (.step (.step (.step (.step (.step (.step (.step (.step (.step (.step (.step (.step
    (.step .fresh (.look 0 rfl rfl)) (.get 0 rfl ?_)) (.count 0 rfl)) (.publish 0 rfl rfl)) (.release 0 rfl))
    (.link rfl)) (.detach rfl))
    (.unlink ?_)) (.orphan rfl rfl ?_)) (.used .freer rfl ?_)) (.leave .freer rfl)) (.evict 0 rfl (.inr rfl)))
    (.clear 0 rfl)) (.drop 0 rfl))
    (.orphaned 0 rfl rfl)) (.unused (.evictor 0) rfl rfl)) (.retire (.evictor 0) rfl rfl))
    (.put (.evictor 0) rfl))
    (.leave (.evictor 0) rfl)
  · exact Nat.one_ne_zero
  · exact Nat.one_ne_zero
  · intro i
    cases i <;> exact ⟨Creator.noConfusion, Creator.noConfusion, Creator.noConfusion⟩
  · exact Nat.one_ne_zero

theorem quiet_evictedLast : Quiet evictedLast where
  freer := rfl
  creator i := by
    cases i with
    | zero => exact .inr rfl
    | succ i => exact .inl rfl
  evictor i := by
    cases i with
    | zero => exact .inr rfl
    | succ i => exact .inl rfl
  check i := by
    cases i with
    | zero => exact .inr rfl
    | succ i => exact .inl rfl

theorem node_used_while_there_evictedLast :
    Reachable evictedLast ∧ evictedLast.fault = false ∧ (evictedLast.freed = true → Unknown evictedLast) ∧
      (evictedLast.stale = true → evictedLast.stranded = true) :=
  ⟨reachable_evictedLast, node_used_while_there reachable_evictedLast⟩

theorem node_given_back_evictedLast :
    Reachable evictedLast ∧ Quiet evictedLast ∧ ∃ s', Step evictedLast s' ∧ s'.freed = true :=
  ⟨reachable_evictedLast, quiet_evictedLast, node_given_back reachable_evictedLast quiet_evictedLast⟩

end HybridMount.Vfs.Lifetime
