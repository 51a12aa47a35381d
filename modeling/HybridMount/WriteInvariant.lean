import HybridMount.AtomicWrite

/-! What the calls of `atomic_write` say of the directory, kept by every step of every process. -/

namespace HybridMount.AtomicWrite

namespace Phase

/-- The number in the name of the temporary file. -/
def number : Phase → Option Nat
  | .writing next _ _ => some next
  | .written next _ => some next
  | .permitted next _ => some next
  | .flushed next _ => some next
  | .renamed next _ => some next
  | .failing next => some next
  | _ => none

/-- The file which is open and not yet renamed. -/
def file : Phase → Option (Nat × Nat)
  | .writing next inode _ => some (next, inode)
  | .written next inode => some (next, inode)
  | .permitted next inode => some (next, inode)
  | .flushed next inode => some (next, inode)
  | _ => none

def rest : Phase → List UInt8
  | .writing _ _ rest => rest
  | _ => []

def stamp : Phase → Option Nat
  | .renamed _ stamp => some stamp
  | .done stamp => some stamp
  | _ => none

theorem number_of_file {phase : Phase} {n i : Nat} (h : phase.file = some (n, i)) :
    phase.number = some n := by
  cases phase <;> simp_all [file, number]

end Phase

/-- The content of a name after one of the renames. -/
def Dated (s : State) (t : Name) (k : Nat) (x : Option (List UInt8)) : Prop :=
  (k = 0 ∧ x = s.found t) ∨ ∃ j c, k = j + 1 ∧ s.published[j]? = some (t, c) ∧ x = some c

/-- What is true of a call on its own. -/
structure Good (s : State) (w : Writer) : Prop where
  target : Target w.target
  pid : w.pid < 2 ^ 32
  bound : ∀ n, w.phase.number = some n → n < 2 ^ 64
  number : ∀ n, w.phase.number = some n → n < s.sequence w.pid
  own : ∀ n i, w.phase.file = some (n, i) → s.disk.entry (w.temporary n) = none ∨
    s.disk.entry (w.temporary n) = some i
  old : ∀ n i, w.phase.file = some (n, i) → i < s.disk.next
  apart : ∀ n i, w.phase.file = some (n, i) → ∀ t, Target t → s.disk.Apart t i
  data : ∀ n i, w.phase.file = some (n, i) → (s.disk.file i).data ++ w.phase.rest = w.content
  flushed : ∀ n i, w.phase = .flushed n i → (s.disk.file i).synced = true
  stamped : ∀ k, w.phase.stamp = some k → Dated s w.target k (some w.content) ∧ k ≤ s.newest w.target
  kept : ∀ k, w.phase = .done k → k ≤ s.kept w.target

/-- Two calls have neither a name nor a file in common. -/
structure Unlike (w w' : Writer) : Prop where
  number : w.pid = w'.pid → ∀ n, w.phase.number = some n → w'.phase.number ≠ some n
  file : ∀ n i n' i', w.phase.file = some (n, i) → w'.phase.file = some (n', i') → i ≠ i'

/-- What the names of the daemon lead to, now and after a crash. -/
structure Shelf (s : State) : Prop where
  whole : ∀ t, Target t → s.disk.Whole t
  dated : ∀ t, Target t → ∀ e ∈ s.disk.settled t, ∃ k, s.kept t ≤ k ∧ Dated s t k (s.disk.content e)
  current : ∀ t, Target t → Dated s t (s.newest t) (s.disk.read t)
  newest : ∀ t k c, s.published[k]? = some (t, c) → k + 1 ≤ s.newest t

structure Inv (s : State) : Prop where
  good : ∀ id w, s.writer id = some w → Good s w
  unlike : ∀ id id' w w', s.writer id = some w → s.writer id' = some w' → id ≠ id' → Unlike w w'
  shelf : Shelf s

namespace Unlike

variable {w w' : Writer}

theorem symm (h : Unlike w w') : Unlike w' w :=
  ⟨fun hpid n hn hn' => h.number hpid.symm n hn' hn, fun n i n' i' hf hf' heq =>
    h.file n' i' n i hf' hf heq.symm⟩

/-- A call which goes on with what it has. -/
theorem enter (h : Unlike w w') {phase : Phase}
    (hnumber : ∀ n, phase.number = some n → w.phase.number = some n)
    (hfile : ∀ x, phase.file = some x → w.phase.file = some x) : Unlike { w with phase := phase } w' :=
  ⟨fun hpid n hn => h.number hpid n (hnumber n hn), fun n i n' i' hf => h.file n i n' i' (hfile (n, i) hf)⟩

theorem temporary_ne (h : Unlike w w') {n n' : Nat} (hn : w.phase.number = some n)
    (hn' : w'.phase.number = some n') :
    w.temporary n ≠ w'.temporary n' := by
  intro heq
  obtain ⟨-, hpid, hnum⟩ := temporaryName_injective heq
  rw [← hnum] at hn'
  exact h.number hpid n hn hn'

end Unlike

theorem Dated.append {s : State} {t : Name} {k : Nat} {x : Option (List UInt8)}
    (h : Dated s t k x) {s' : State} {more : List (Name × List UInt8)}
    (hfound : s'.found = s.found) (hmore : s'.published = s.published ++ more) : Dated s' t k x := by
  rcases h with ⟨hk, hx⟩ | ⟨j, c, hk, hj, hx⟩
  · exact .inl ⟨hk, by rw [hfound, hx]⟩
  · refine .inr ⟨j, c, hk, ?_, hx⟩
    rw [hmore, List.getElem?_append_left (List.getElem?_eq_some_iff.mp hj).1]
    exact hj

/-- What others do to the things of a call. -/
structure Frame (s s' : State) (w : Writer) : Prop where
  sequence : s.sequence w.pid ≤ s'.sequence w.pid
  entry : ∀ n i, w.phase.file = some (n, i) →
    s'.disk.entry (w.temporary n) = s.disk.entry (w.temporary n) ∨ s'.disk.entry (w.temporary n) = none
  next : s.disk.next ≤ s'.disk.next
  file : ∀ n i, w.phase.file = some (n, i) → s'.disk.file i = s.disk.file i
  apart : ∀ n i, w.phase.file = some (n, i) → ∀ t, Target t → s.disk.Apart t i → s'.disk.Apart t i
  found : s'.found = s.found
  published : ∃ more, s'.published = s.published ++ more
  newest : s.newest w.target ≤ s'.newest w.target
  kept : s.kept w.target ≤ s'.kept w.target

theorem Good.frame {s s' : State} {w : Writer} (h : Good s w) (hf : Frame s s' w) : Good s' w where
  target := h.target
  pid := h.pid
  bound := h.bound
  number n hn := (h.number n hn).trans_le hf.sequence
  own n i hi := by
    rcases hf.entry n i hi with he | he
    · rw [he]
      exact h.own n i hi
    · exact .inl he
  old n i hi := (h.old n i hi).trans_le hf.next
  apart n i hi t ht := hf.apart n i hi t ht (h.apart n i hi t ht)
  data n i hi := by
    rw [hf.file n i hi]
    exact h.data n i hi
  flushed n i hi := by
    rw [hf.file n i (by rw [hi]; rfl)]
    exact h.flushed n i hi
  stamped k hk := by
    obtain ⟨more, hmore⟩ := hf.published
    obtain ⟨hdated, hle⟩ := h.stamped k hk
    exact ⟨hdated.append hf.found hmore, hle.trans hf.newest⟩
  kept k hk := (h.kept k hk).trans hf.kept

/-- A call which goes on with what it has, or gives it up. -/
theorem Good.move {s : State} {w : Writer} (h : Good s w) {phase : Phase} (hnumber : ∀ n,
  phase.number = some n → w.phase.number = some n)
    (hfile : ∀ x, phase.file = some x → w.phase.file = some x ∧ phase.rest = w.phase.rest) (hflushed : ∀ n i,
      phase ≠ .flushed n i)
    (hstamp : phase.stamp = none) : Good s { w with phase := phase } where
  target := h.target
  pid := h.pid
  bound n hn := h.bound n (hnumber n hn)
  number n hn := h.number n (hnumber n hn)
  own n i hi := h.own n i (hfile (n, i) hi).1
  old n i hi := h.old n i (hfile (n, i) hi).1
  apart n i hi := h.apart n i (hfile (n, i) hi).1
  data n i hi := by
    obtain ⟨hold, hrest⟩ := hfile (n, i) hi
    change _ ++ phase.rest = _
    rw [hrest]
    exact h.data n i hold
  flushed n i hi := absurd hi (hflushed n i)
  stamped k hk := by
    change phase.stamp = some k at hk
    rw [hstamp] at hk
    cases hk
  kept k hk := by
    change phase = .done k at hk
    rw [hk] at hstamp
    cases hstamp

theorem Frame.refl (s : State) (w : Writer) : Frame s s w :=
  ⟨le_rfl, fun _ _ _ => .inl rfl, le_rfl, fun _ _ _ => rfl, fun _ _ _ _ _ ha => ha, rfl, ⟨[], by simp⟩,
    le_rfl, le_rfl⟩

theorem Shelf.kept_le {s : State} (h : Shelf s) {t : Name} (ht : Target t) : s.kept t ≤ s.newest t := by
  obtain ⟨k, hk, hdated⟩ := h.dated t ht (s.disk.entry t) (h.whole t ht).now
  refine hk.trans ?_
  rcases hdated with ⟨hzero, -⟩ | ⟨j, c, hj, hp, -⟩
  · rw [hzero]
    exact Nat.zero_le _
  · rw [hj]
    exact h.newest t j c hp

theorem Shelf.newest_le {s : State} (h : Shelf s) {t : Name} (ht : Target t) :
    s.newest t ≤ s.published.length := by
  rcases h.current t ht with ⟨hzero, -⟩ | ⟨j, c, hj, hp, -⟩
  · rw [hzero]
    exact Nat.zero_le _
  · rw [hj]
    exact (List.getElem?_eq_some_iff.mp hp).1

/-- The names of the daemon are left alone. -/
theorem Shelf.frame {s s' : State} (h : Shelf s) (hwhole : ∀ t, Target t → s'.disk.Whole t)
    (hsettled : ∀ t, Target t → s'.disk.settled t = s.disk.settled t) (hentry : ∀ t,
      Target t → s'.disk.entry t = s.disk.entry t)
    (hcontent : ∀ t, Target t → ∀ e ∈ s.disk.settled t, s'.disk.content e = s.disk.content e)
    (hfound : s'.found = s.found) (hpublished : s'.published = s.published) (hnewest : s'.newest = s.newest)
    (hkept : s'.kept = s.kept) : Shelf s' := by
  have hsame : s'.published = s.published ++ [] := by rw [hpublished, List.append_nil]
  refine ⟨hwhole, fun t ht e he => ?_, fun t ht => ?_, fun t k c hk => ?_⟩
  · rw [hsettled t ht] at he
    obtain ⟨k, hk, hdated⟩ := h.dated t ht e he
    rw [hkept, hcontent t ht e he]
    exact ⟨k, hk, hdated.append hfound hsame⟩
  · have hread : s'.disk.read t = s.disk.read t := by
      rw [CrashDisk.read, CrashDisk.read, hentry t ht]
      exact hcontent t ht _ (h.whole t ht).now
    rw [hread, hnewest]
    exact (h.current t ht).append hfound hsame
  · rw [hnewest]
    rw [hpublished] at hk
    exact h.newest t k c hk

/-- Other names of the directory lead elsewhere. -/
theorem Shelf.link {s : State} (h : Shelf s) {m : Name} (hm : ∀ t, Target t → t ≠ m) (e : Option Nat) :
    Shelf { s with disk := s.disk.link m e } :=
  h.frame (fun t ht => (h.whole t ht).link_other (hm t ht) e)
    (fun t ht => CrashDisk.settled_link_other (hm t ht) e)
    (fun t ht => CrashDisk.entry_link_other (hm t ht) e) (fun _ _ _ _ => rfl) rfl rfl rfl rfl

theorem Shelf.create {s : State} (h : Shelf s) {m : Name} (hm : ∀ t, Target t → t ≠ m) :
    Shelf { s with disk := s.disk.create m } :=
  h.frame (fun t ht => (h.whole t ht).create_other (hm t ht))
      (fun t ht => CrashDisk.settled_link_other (hm t ht)
      (some s.disk.next))
    (fun t ht => CrashDisk.entry_link_other (hm t ht) (some s.disk.next)) (fun t ht _ he =>
        (h.whole t ht).content_create he)
    rfl rfl rfl rfl

theorem Shelf.append {s : State} (h : Shelf s) {i : Nat} (hi : ∀ t, Target t → s.disk.Apart t i)
    (data : List UInt8) :
    Shelf { s with disk := s.disk.append i data } :=
  h.frame (fun t ht => (h.whole t ht).append (hi t ht) data) (fun _ _ => rfl) (fun _ _ => rfl)
    (fun t ht _ he => CrashDisk.Whole.content_append (hi t ht) data he) rfl rfl rfl rfl

theorem Shelf.sync {s : State} (h : Shelf s) (i : Nat) : Shelf { s with disk := s.disk.sync i } :=
  h.frame (fun t ht => (h.whole t ht).sync i) (fun _ _ => rfl) (fun _ _ => rfl)
    (fun _ _ e _ => CrashDisk.content_sync s.disk i e) rfl rfl rfl rfl

/-- After a flush of the directory every name leads where it leads now. -/
theorem Shelf.syncDir {s : State} (h : Shelf s) (target : Name) :
    Shelf { s with disk := s.disk.syncDir, kept := Function.update s.kept target (s.newest target) } := by
  refine ⟨fun t ht => (h.whole t ht).syncDir, fun t ht e he => ?_, h.current, h.newest⟩
  have heq : e = s.disk.entry t := he
  subst heq
  refine ⟨s.newest t, ?_, h.current t ht⟩
  by_cases hne : t = target
  · subst hne
    exact (Function.update_self t (s.newest t) s.kept).le
  · exact (Function.update_of_ne hne (s.newest target) s.kept).le.trans (h.kept_le ht)

/-- The file which is renamed is complete and on the disk. -/
theorem Shelf.rename {s : State} (h : Shelf s) {temporary : Name} (target : Name)
    {content : List UInt8} {i : Nat}
    (htemporary : ∀ t, Target t → t ≠ temporary) (hi : s.disk.entry temporary = some i) (hsynced :
        (s.disk.file i).synced = true)
    (hold : i < s.disk.next) (hdata : (s.disk.file i).data = content) :
    Shelf { s with
      disk := s.disk.rename temporary target
      published := s.published ++ [(target, content)]
      newest := Function.update s.newest target (s.published.length + 1) } := by
  have hlast : (s.published ++ [(target, content)])[s.published.length]? = some (target, content) := by
    simp
  have hcontent : s.disk.content (some i) = some content := by
    rw [← hdata]
    rfl
  refine ⟨fun t ht => ?_, fun t ht e he => ?_, fun t ht => ?_, fun t k c hk => ?_⟩
  · refine CrashDisk.Whole.link_other ?_ (htemporary t ht) none
    by_cases hne : t = target
    · subst hne
      refine (h.whole t ht).link (fun j hj => ?_) (fun j hj => ?_)
      · rw [hi] at hj
        rw [← Option.some.inj hj]
        exact hsynced
      · rw [hi] at hj
        rw [← Option.some.inj hj]
        exact hold
    · exact (h.whole t ht).link_other hne (s.disk.entry temporary)
  · change e ∈ ((s.disk.link target (s.disk.entry temporary)).link temporary none).settled t at he
    rw [CrashDisk.settled_link_other (htemporary t ht)] at he
    by_cases hne : t = target
    · subst hne
      rw [CrashDisk.settled_link, hi] at he
      rcases he with he | he
      · subst he
        refine ⟨s.published.length + 1, ?_, .inr ⟨s.published.length, content, rfl, hlast, hcontent⟩⟩
        obtain ⟨k, hk, hdated⟩ := h.dated t ht (s.disk.entry t) (h.whole t ht).now
        refine hk.trans ?_
        rcases hdated with ⟨hzero, -⟩ | ⟨j, c, hj, hp, -⟩
        · omega
        · have hlt := (List.getElem?_eq_some_iff.mp hp).1
          omega
      · obtain ⟨k, hk, hdated⟩ := h.dated t ht e he
        exact ⟨k, hk, hdated.append rfl rfl⟩
    · rw [CrashDisk.settled_link_other hne] at he
      obtain ⟨k, hk, hdated⟩ := h.dated t ht e he
      exact ⟨k, hk, hdated.append rfl rfl⟩
  · have hentry : (s.disk.rename temporary target).entry t = (s.disk.link target (some i)).entry t := by
      rw [← hi]
      exact CrashDisk.entry_link_other (htemporary t ht) none
    by_cases hne : t = target
    · subst hne
      refine .inr ⟨s.published.length, content, Function.update_self t _ _, hlast, ?_⟩
      change s.disk.content ((s.disk.rename temporary t).entry t) = some content
      rw [hentry, CrashDisk.entry_link]
      exact hcontent
    · have hread : (s.disk.rename temporary target).read t = s.disk.read t := by
        change s.disk.content ((s.disk.rename temporary target).entry t) = s.disk.content (s.disk.entry t)
        rw [hentry, CrashDisk.entry_link_other hne]
      simp only [Function.update_of_ne hne, hread]
      exact (h.current t ht).append rfl rfl
  · change (s.published ++ [(target, content)])[k]? = some (t, c) at hk
    change k + 1 ≤ Function.update s.newest target (s.published.length + 1) t
    by_cases hne : t = target
    · rw [hne, Function.update_self]
      have hlt := (List.getElem?_eq_some_iff.mp hk).1
      simp at hlt
      omega
    · rw [Function.update_of_ne hne]
      refine h.newest t k c ?_
      by_cases hlt : k < s.published.length
      · rw [List.getElem?_append_left hlt] at hk
        exact hk
      · rw [List.getElem?_append_right (Nat.le_of_not_lt hlt)] at hk
        have hpair := List.mem_of_getElem? hk
        rw [List.mem_singleton, Prod.mk.injEq] at hpair
        exact absurd hpair.1 hne

theorem inv_booted {s : State} (h : Booted s) : Inv s := by
  have hwhole : ∀ n, s.disk.Whole n := by
    refine fun n => ⟨?_, h.flushed n, fun i hi => h.old n i ?_⟩
    · rw [h.settled n]
      rfl
    · rw [h.settled n] at hi
      exact (Set.mem_singleton_iff.mp hi).symm
  refine ⟨fun id w hw => ?_, fun id id' w w' hw => ?_, fun t _ => hwhole t, fun t _ e he => ⟨0, (h.kept t).le,
    .inl ⟨rfl, ?_⟩⟩,
    fun t _ => .inl ⟨h.newest t, (h.found t).symm⟩, fun t k c hk => ?_⟩
  · rw [h.writer id] at hw
    cases hw
  · rw [h.writer id] at hw
    cases hw
  · rw [h.settled t] at he
    rw [h.found t, Set.mem_singleton_iff.mp he]
    rfl
  · rw [h.published] at hk
    simp at hk

namespace Inv

variable {s s' : State} {id : Nat} {w : Writer}

/-- One call goes on and the others are where they were. -/
theorem proceed (h : Inv s) {phase : Phase} (hwriter : s'.writer = Function.update s.writer id
    (some { w with phase := phase }))
    (hframe : ∀ id' w', id' ≠ id → s.writer id' = some w' → Frame s s' w')
    (hgood : Good s' { w with phase := phase })
    (hunlike : ∀ id' w', id' ≠ id → s.writer id' = some w' → Unlike { w with phase := phase } w')
        (hshelf : Shelf s') : Inv s' := by
  refine ⟨fun j v hj => ?_, fun j j' v v' hj hj' hne => ?_, hshelf⟩
  · rw [hwriter] at hj
    by_cases heq : j = id
    · rw [heq, Function.update_self] at hj
      rw [← Option.some.inj hj]
      exact hgood
    · rw [Function.update_of_ne heq] at hj
      exact (h.good j v hj).frame (hframe j v heq hj)
  · rw [hwriter] at hj hj'
    by_cases heq : j = id
    · rw [heq, Function.update_self] at hj
      rw [heq] at hne
      rw [Function.update_of_ne (Ne.symm hne)] at hj'
      rw [← Option.some.inj hj]
      exact hunlike j' v' (Ne.symm hne) hj'
    · rw [Function.update_of_ne heq] at hj
      by_cases heq' : j' = id
      · rw [heq', Function.update_self] at hj'
        rw [← Option.some.inj hj']
        exact (hunlike j v heq hj).symm
      · rw [Function.update_of_ne heq'] at hj'
        exact h.unlike j j' v v' hj hj' hne

theorem shelf_enter (h : Shelf s) (id : Nat) (w : Writer) (phase : Phase) : Shelf (s.enter id w phase) :=
  ⟨h.whole, h.dated, h.current, h.newest⟩

theorem shelf_advance (h : Shelf s) (pid : Nat) : Shelf (s.advance pid) :=
    ⟨h.whole, h.dated, h.current, h.newest⟩

theorem sequence_advance (s : State) (pid pid' : Nat) : s.sequence pid' ≤ (s.advance pid).sequence pid' := by
  by_cases hne : pid' = pid
  · simp [State.advance, hne]
  · simp [State.advance, Function.update_of_ne hne]

theorem good_enter {t : State} {v : Writer} (h : Good t v) (id : Nat) (w : Writer) (phase : Phase) :
    Good (t.enter id w phase) v :=
  ⟨h.target, h.pid, h.bound, h.number, h.own, h.old, h.apart, h.data, h.flushed, h.stamped, h.kept⟩

theorem frame_enter {t : State} {v : Writer} (h : Frame s t v) (id : Nat) (w : Writer) (phase : Phase) :
    Frame s (t.enter id w phase) v :=
  ⟨h.sequence, h.entry, h.next, h.file, h.apart, h.found, h.published, h.newest, h.kept⟩

/-- The state in which a call goes on may be changed in what the others do not care about. -/
theorem onward (h : Inv s) (hw : s.writer id = some w) {t : State} (hwriter : t.writer = s.writer)
    {phase : Phase}
    (hframe : ∀ id' w', id' ≠ id → s.writer id' = some w' → Frame s t w')
    (hgood : Good t { w with phase := phase })
    (hunlike : ∀ id' w', id' ≠ id → s.writer id' = some w' → Unlike w w' →
      Unlike { w with phase := phase } w')
    (hshelf : Shelf t) : Inv (t.enter id w phase) := by
  refine h.proceed ?_ (fun j v hne hj => frame_enter (hframe j v hne hj) id w phase)
    (good_enter hgood id w phase)
    (fun j v hne hj => hunlike j v hne hj (h.unlike id j w v hw hj (Ne.symm hne)))
    (shelf_enter hshelf id w phase)
  change Function.update t.writer id _ = _
  rw [hwriter]

/-- What another call does to a name in the directory which is not ours. -/
theorem frame_link (m : Name) (e : Option Nat) {v : Writer}
    (hv : ∀ n i, v.phase.file = some (n, i) → v.temporary n ≠ m)
    (hm : ∀ t, Target t → t ≠ m) : Frame s { s with disk := s.disk.link m e } v where
  sequence := le_rfl
  entry n i hi := .inl (CrashDisk.entry_link_other (hv n i hi) e)
  next := le_rfl
  file _ _ _ := rfl
  apart n i hi t ht ha := by
    change some i ∉ (s.disk.link m e).settled t
    rw [CrashDisk.settled_link_other (hm t ht)]
    exact ha
  found := rfl
  published := ⟨[], by simp⟩
  newest := le_rfl
  kept := le_rfl

theorem Frame.trans {s s' s'' : State} {v : Writer} (h : Frame s s' v) (h' : Frame s' s'' v) :
    Frame s s'' v where
  sequence := h.sequence.trans h'.sequence
  entry n i hi := by
    rcases h'.entry n i hi with he | he
    · rw [he]
      exact h.entry n i hi
    · exact .inr he
  next := h.next.trans h'.next
  file n i hi := (h'.file n i hi).trans (h.file n i hi)
  apart n i hi t ht ha := h'.apart n i hi t ht (h.apart n i hi t ht ha)
  found := h'.found.trans h.found
  published := by
    obtain ⟨more, hmore⟩ := h.published
    obtain ⟨more', hmore'⟩ := h'.published
    exact ⟨more ++ more', by rw [hmore', hmore, List.append_assoc]⟩
  newest := h.newest.trans h'.newest
  kept := h.kept.trans h'.kept

theorem frame_advance (s : State) (pid : Nat) (v : Writer) : Frame s (s.advance pid) v :=
  ⟨sequence_advance s pid v.pid, fun _ _ _ => .inl rfl, le_rfl, fun _ _ _ => rfl, fun _ _ _ _ _ ha => ha, rfl,
    ⟨[], by simp [State.advance]⟩, le_rfl, le_rfl⟩

/-- No step of a call but its own change what it has. -/
theorem step_create (h : Inv s) (hw : s.writer id = some w) (hbound : s.sequence w.pid < 2 ^ 64) :
    Inv ({ s.advance w.pid with disk := s.disk.create (w.temporary (s.sequence w.pid)) }.enter id w
      (.writing (s.sequence w.pid) s.disk.next w.content)) := by
  have hname : ∀ v : Writer, Good s v → ∀ n, v.phase.number = some n →
      v.temporary n ≠ w.temporary (s.sequence w.pid) := by
    intro v hv n hn heq
    obtain ⟨-, hpid, hnum⟩ := temporaryName_injective heq
    have hlt := hv.number n hn
    rw [hpid, hnum] at hlt
    exact lt_irrefl _ hlt
  have hvisible : ∀ t, Target t → t ≠ w.temporary (s.sequence w.pid) := fun t ht => ht.ne_temporaryName _ _ _
  refine h.onward (t := { s.advance w.pid with disk := s.disk.create (w.temporary (s.sequence w.pid)) }) hw
    rfl
    (fun j v _ hj => ?_) ?_ (fun j v _ hj _ => ?_) ?_
  · have hv := h.good j v hj
    refine ⟨sequence_advance s w.pid v.pid, fun n i hi => .inl ?_, Nat.le_succ _, fun n i hi => ?_,
      fun n i hi t ht ha => ?_, rfl,
      ⟨[], by simp [State.advance]⟩, le_rfl, le_rfl⟩
    · exact CrashDisk.entry_link_other (hname v hv n (Phase.number_of_file hi)) _
    · exact Function.update_of_ne (Nat.ne_of_lt (hv.old n i hi)) _ _
    · change some i ∉ (s.disk.link _ _).settled t
      rw [CrashDisk.settled_link_other (hvisible t ht)]
      exact ha
  · refine ⟨(h.good id w hw).target, (h.good id w hw).pid, fun n hn => ?_, fun n hn => ?_, fun n i hi => ?_,
      fun n i hi => ?_, fun n i hi t ht => ?_, fun n i hi => ?_,
      (fun n i hi => by cases hi), (fun k hk => by cases hk), fun k hk => by cases hk⟩
    · rw [← Option.some.inj hn]
      exact hbound
    · rw [← Option.some.inj hn]
      simp [State.advance]
    · have hpair := Prod.mk.inj (Option.some.inj hi)
      rw [← hpair.1, ← hpair.2]
      exact .inr (CrashDisk.entry_link _ _ _)
    · rw [← (Prod.mk.inj (Option.some.inj hi)).2]
      exact Nat.lt_succ_self _
    · rw [← (Prod.mk.inj (Option.some.inj hi)).2]
      change some s.disk.next ∉ (s.disk.link _ _).settled t
      rw [CrashDisk.settled_link_other (hvisible t ht)]
      exact fun hin => lt_irrefl _ ((h.shelf.whole t ht).old s.disk.next hin)
    · rw [← (Prod.mk.inj (Option.some.inj hi)).2]
      change (Function.update s.disk.file s.disk.next ⟨[], false⟩ s.disk.next).data ++ w.content = w.content
      rw [Function.update_self]
      rfl
  · have hv := h.good j v hj
    refine ⟨fun hpid n hn hn' => ?_, fun n i n' i' hi hi' heq => ?_⟩
    · have hlt := hv.number n hn'
      rw [← hpid, ← Option.some.inj hn] at hlt
      exact lt_irrefl _ hlt
    · have hlt := hv.old n' i' hi'
      rw [← heq, ← (Prod.mk.inj (Option.some.inj hi)).2] at hlt
      exact lt_irrefl _ hlt
  · have hshelf := h.shelf.create hvisible
    exact ⟨hshelf.whole, hshelf.dated, hshelf.current, hshelf.newest⟩

theorem step_write (h : Inv s) {next inode : Nat} {chunk rest : List UInt8} (hw : s.writer id = some w)
    (hp : w.phase = .writing next inode (chunk ++ rest)) :
    Inv ({ s with disk := s.disk.append inode chunk }.enter id w (.writing next inode rest)) := by
  have hgood := h.good id w hw
  have hfile : w.phase.file = some (next, inode) := by rw [hp]; rfl
  refine h.onward (t := { s with disk := s.disk.append inode chunk }) hw rfl (fun j v hne hj => ?_) ?_
      (fun j v _ _ hu => ?_)
    (h.shelf.append (hgood.apart next inode hfile) chunk)
  · have hu := h.unlike id j w v hw hj (Ne.symm hne)
    refine ⟨le_rfl, fun _ _ _ => .inl rfl, le_rfl, fun n i hi => ?_, fun _ _ _ _ _ ha => ha, rfl,
      ⟨[], by simp⟩,
      le_rfl, le_rfl⟩
    exact Function.update_of_ne (Ne.symm (hu.file next inode n i hfile hi)) _ _
  · refine ⟨hgood.target, hgood.pid, fun n hn => hgood.bound n (by rw [hp]; exact hn),
      fun n hn => hgood.number n (by rw [hp]; exact hn), fun n i hi => hgood.own n i (by rw [hp]; exact hi),
      fun n i hi => hgood.old n i (by rw [hp]; exact hi),
        fun n i hi => hgood.apart n i (by rw [hp]; exact hi),
        fun n i hi => ?_,
      (fun n i hi => by cases hi), (fun k hk => by cases hk), fun k hk => by cases hk⟩
    have hdata := hgood.data next inode hfile
    rw [hp] at hdata
    rw [← (Prod.mk.inj (Option.some.inj hi)).2]
    change (Function.update s.disk.file inode ⟨(s.disk.file inode).data ++ chunk, false⟩ inode).data ++
      rest = w.content
    rw [Function.update_self, List.append_assoc]
    exact hdata
  · exact hu.enter (fun n hn => by rw [hp]; exact hn) (fun x hx => by rw [hp]; exact hx)

theorem step_flush (h : Inv s) {next inode : Nat} (hw : s.writer id = some w)
    (hp : w.phase = .permitted next inode) :
    Inv ({ s with disk := s.disk.sync inode }.enter id w (.flushed next inode)) := by
  have hgood := h.good id w hw
  have hfile : w.phase.file = some (next, inode) := by rw [hp]; rfl
  have hself : (s.disk.sync inode).file inode = ⟨(s.disk.file inode).data, true⟩ := Function.update_self _ _ _
  refine h.onward (t := { s with disk := s.disk.sync inode }) hw rfl (fun j v hne hj => ?_) ?_
    (fun j v _ _ hu => ?_)
    (h.shelf.sync inode)
  · have hu := h.unlike id j w v hw hj (Ne.symm hne)
    refine ⟨le_rfl, fun _ _ _ => .inl rfl, le_rfl, fun n i hi => ?_, fun _ _ _ _ _ ha => ha, rfl,
      ⟨[], by simp⟩,
      le_rfl, le_rfl⟩
    exact Function.update_of_ne (Ne.symm (hu.file next inode n i hfile hi)) _ _
  · refine ⟨hgood.target, hgood.pid, fun n hn => hgood.bound n (by rw [hp]; exact hn),
      fun n hn => hgood.number n (by rw [hp]; exact hn), fun n i hi => hgood.own n i (by rw [hp]; exact hi),
      fun n i hi => hgood.old n i (by rw [hp]; exact hi),
        fun n i hi => hgood.apart n i (by rw [hp]; exact hi),
        fun n i hi => ?_,
      fun n i hi => ?_, (fun k hk => by cases hk), fun k hk => by cases hk⟩
    · have hdata := hgood.data next inode hfile
      rw [hp] at hdata
      rw [← (Prod.mk.inj (Option.some.inj hi)).2]
      change ((s.disk.sync inode).file inode).data ++ [] = w.content
      rw [hself]
      exact hdata
    · rw [← (Phase.flushed.inj hi).2]
      change ((s.disk.sync inode).file inode).synced = true
      rw [hself]
  · exact hu.enter (fun n hn => by rw [hp]; exact hn) (fun x hx => by rw [hp]; exact hx)

theorem step_rename (h : Inv s) {next inode : Nat} (hw : s.writer id = some w)
    (hp : w.phase = .flushed next inode)
    (hthere : s.disk.entry (w.temporary next) ≠ none) :
    Inv ({ s with
      disk := s.disk.rename (w.temporary next) w.target
      published := s.published ++ [(w.target, w.content)]
      newest := Function.update s.newest w.target (s.published.length + 1) }.enter id w (.renamed next
          (s.published.length + 1))) := by
  have hgood := h.good id w hw
  have hfile : w.phase.file = some (next, inode) := by rw [hp]; rfl
  have hentry : s.disk.entry (w.temporary next) = some inode := by
    rcases hgood.own next inode hfile with hn | hn
    · exact absurd hn hthere
    · exact hn
  have hdata : (s.disk.file inode).data = w.content := by
    have hall := hgood.data next inode hfile
    rw [hp] at hall
    rw [← hall]
    exact (List.append_nil _).symm
  have hvisible : ∀ t, Target t → t ≠ w.temporary next := fun t ht => ht.ne_temporaryName _ _ _
  have hshelf := h.shelf.rename w.target hvisible hentry (hgood.flushed next inode hp)
    (hgood.old next inode hfile) hdata
  refine h.onward (t := { s with
      disk := s.disk.rename (w.temporary next) w.target
      published := s.published ++ [(w.target, w.content)]
      newest := Function.update s.newest w.target (s.published.length + 1) }) hw rfl (fun j v hne hj => ?_) ?_
          (fun j v _ _ hu => ?_) hshelf
  · have hu := h.unlike id j w v hw hj (Ne.symm hne)
    have hv := h.good j v hj
    refine ⟨le_rfl, fun n i hi => .inl ?_, le_rfl, fun _ _ _ => rfl, fun n i hi t ht ha => ?_, rfl, ⟨[(w.target,
      w.content)], rfl⟩, ?_, le_rfl⟩
    · have hnames : w.temporary next ≠ v.temporary n :=
        hu.temporary_ne (by rw [hp]; rfl) (Phase.number_of_file hi)
      exact (CrashDisk.entry_link_other hnames.symm none).trans
        (CrashDisk.entry_link_other (hgood.target.ne_temporaryName _ _ _).symm _)
    · change some i ∉ ((s.disk.link w.target (s.disk.entry (w.temporary next))).link (w.temporary next)
        none).settled t
      rw [CrashDisk.settled_link_other (hvisible t ht)]
      by_cases heq : t = w.target
      · rw [heq, CrashDisk.settled_link, hentry]
        rw [heq] at ha
        intro hin
        rcases hin with hin | hin
        · exact hu.file next inode n i hfile hi (Option.some.inj hin).symm
        · exact ha hin
      · rw [CrashDisk.settled_link_other heq]
        exact ha
    · change s.newest v.target ≤ Function.update s.newest w.target _ v.target
      by_cases heq : v.target = w.target
      · rw [heq, Function.update_self]
        exact (h.shelf.newest_le hgood.target).trans (Nat.le_succ _)
      · rw [Function.update_of_ne heq]
  · refine ⟨hgood.target, hgood.pid, fun n hn => hgood.bound n (by rw [hp]; exact hn),
      fun n hn => hgood.number n (by rw [hp]; exact hn), (fun n i hi => by cases hi),
        (fun n i hi => by cases hi),
      (fun n i hi => by cases hi), (fun n i hi => by cases hi), (fun n i hi => by cases hi), fun k hk => ?_,
        fun k hk => by cases hk⟩
    rw [← Option.some.inj hk]
    refine ⟨.inr ⟨s.published.length, w.content, rfl, ?_, rfl⟩,
      (Function.update_self w.target (s.published.length + 1) s.newest).ge⟩
    change (s.published ++ [(w.target, w.content)])[s.published.length]? = _
    simp
  · exact hu.enter (fun n hn => by rw [hp]; exact hn) (fun x hx => by cases hx)

theorem step_syncParent (h : Inv s) {next stamp : Nat} (hw : s.writer id = some w)
    (hp : w.phase = .renamed next stamp) :
    Inv ({ s with
      disk := s.disk.syncDir
      kept := Function.update s.kept w.target (s.newest w.target) }.enter id w (.done stamp)) := by
  have hgood := h.good id w hw
  obtain ⟨hdated, hnewest⟩ := hgood.stamped stamp (by rw [hp]; rfl)
  refine h.onward (t := { s with
      disk := s.disk.syncDir
      kept := Function.update s.kept w.target (s.newest w.target) }) hw rfl
    (fun j v hne hj => ?_) ?_ (fun j v _ _ hu => ?_) (h.shelf.syncDir w.target)
  · have hv := h.good j v hj
    refine ⟨le_rfl, fun _ _ _ => .inl rfl, le_rfl, fun _ _ _ => rfl, fun n i hi t ht ha hin => ?_, rfl,
      ⟨[], by simp⟩,
      le_rfl, ?_⟩
    · have heq : some i = s.disk.entry t := hin
      have hnow := (h.shelf.whole t ht).now
      rw [← heq] at hnow
      exact ha hnow
    · change s.kept v.target ≤ Function.update s.kept w.target (s.newest w.target) v.target
      by_cases heq : v.target = w.target
      · rw [heq, Function.update_self]
        exact h.shelf.kept_le hgood.target
      · rw [Function.update_of_ne heq]
  · refine ⟨hgood.target, hgood.pid, (fun n hn => by cases hn), (fun n hn => by cases hn),
      (fun n i hi => by cases hi),
      (fun n i hi => by cases hi),
      (fun n i hi => by cases hi), (fun n i hi => by cases hi), (fun n i hi => by cases hi), fun k hk => ?_,
        fun k hk => ?_⟩
    · rw [← Option.some.inj hk]
      exact ⟨hdated.append rfl (List.append_nil _).symm, hnewest⟩
    · rw [← Phase.done.inj hk]
      exact hnewest.trans (Function.update_self w.target (s.newest w.target) s.kept).ge
  · exact hu.enter (fun n hn => by cases hn) (fun x hx => by cases hx)

theorem step_discard (h : Inv s) {next : Nat} (hw : s.writer id = some w) (hp : w.phase = .failing next) :
    Inv ({ s with disk := s.disk.remove (w.temporary next) }.enter id w .failed) := by
  have hvisible : ∀ t, Target t → t ≠ w.temporary next := fun t ht => ht.ne_temporaryName _ _ _
  refine h.onward (t := { s with disk := s.disk.link (w.temporary next) none }) hw rfl (fun j v hne hj => ?_)
    (((h.good id w hw).frame (frame_link _ none (fun n i hi => ?_) hvisible)).move (fun n hn => by cases hn)
        (fun x hx => by cases hx)
      (fun n i => by simp) rfl)
    (fun j v _ _ hu => hu.enter (fun n hn => by cases hn) (fun x hx => by cases hx))
    (h.shelf.link hvisible none)
  · have hu := h.unlike id j w v hw hj (Ne.symm hne)
    refine frame_link _ none (fun n i hi => ?_) hvisible
    exact (hu.temporary_ne (by rw [hp]; rfl) (Phase.number_of_file hi)).symm
  · rw [hp] at hi
    cases hi

/-- A call goes on and the directory is left alone. -/
theorem step_quiet (h : Inv s) (hw : s.writer id = some w) {phase : Phase} (hnumber : ∀ n,
  phase.number = some n → w.phase.number = some n)
    (hfile : ∀ x, phase.file = some x → w.phase.file = some x ∧ phase.rest = w.phase.rest) (hflushed : ∀ n i,
      phase ≠ .flushed n i)
    (hstamp : phase.stamp = none) : Inv (s.enter id w phase) :=
  h.onward hw rfl (fun _ v _ _ => Frame.refl s v) ((h.good id w hw).move hnumber hfile hflushed hstamp)
    (fun _ _ _ _ hu => hu.enter hnumber fun x hx => (hfile x hx).1) h.shelf

/-- A number was tried, and nothing came of it. -/
theorem step_tried (h : Inv s) (hw : s.writer id = some w) {phase : Phase} (hnumber : phase.number = none)
    (hfile : phase.file = none)
    (hstamp : phase.stamp = none) (hflushed : ∀ n i, phase ≠ .flushed n i) :
    Inv ((s.advance w.pid).enter id w phase) := by
  refine h.onward (t := s.advance w.pid) hw rfl (fun _ v _ _ => frame_advance s w.pid v)
    (((h.good id w hw).frame (frame_advance s w.pid w)).move (fun n hn => ?_) (fun x hx => ?_)
      hflushed hstamp)
    (fun _ _ _ _ hu => hu.enter (fun n hn => ?_) fun x hx => ?_) (shelf_advance h.shelf w.pid)
  · rw [hnumber] at hn
    cases hn
  · rw [hfile] at hx
    cases hx
  · rw [hnumber] at hn
    cases hn
  · rw [hfile] at hx
    cases hx

theorem step_kill (h : Inv s) (pid : Nat) : Inv { s with
    sequence := Function.update s.sequence pid 0
    writer := fun id => (s.writer id).filter fun w => w.pid ≠ pid } := by
  have hmem : ∀ j v, (s.writer j).filter (fun w => w.pid ≠ pid) = some v → s.writer j = some v ∧
      v.pid ≠ pid := by
    intro j v hj
    rw [Option.filter_eq_some_iff] at hj
    exact ⟨hj.1, by simpa using hj.2⟩
  refine ⟨fun j v hj => ?_, fun j j' v v' hj hj' hne => ?_, ?_⟩
  · obtain ⟨hj, hpid⟩ := hmem j v hj
    refine (h.good j v hj).frame ⟨?_, fun _ _ _ => .inl rfl, le_rfl, fun _ _ _ => rfl,
      fun _ _ _ _ _ ha => ha, rfl,
      ⟨[], by simp⟩, le_rfl,
      le_rfl⟩
    exact (Function.update_of_ne hpid 0 s.sequence).ge
  · exact h.unlike j j' v v' (hmem j v hj).1 (hmem j' v' hj').1 hne
  · exact ⟨h.shelf.whole, h.shelf.dated, h.shelf.current, h.shelf.newest⟩

theorem step_cleanup (h : Inv s) {owner : Nat} {name : Name} (hname : temporaryOwner name = some owner) :
    Inv { s with disk := s.disk.remove name } := by
  have hvisible : ∀ t, Target t → t ≠ name := by
    intro t ht heq
    rw [← heq, ht.not_owned] at hname
    cases hname
  refine ⟨fun j v hj => (h.good j v hj).frame ?_, h.unlike, h.shelf.link hvisible none⟩
  refine ⟨le_rfl, fun n i hi => ?_, le_rfl, fun _ _ _ => rfl, fun n i hi t ht ha => ?_, rfl, ⟨[], by simp⟩,
    le_rfl, le_rfl⟩
  · by_cases heq : v.temporary n = name
    · refine .inr ?_
      rw [heq]
      exact CrashDisk.entry_link s.disk name none
    · exact .inl (CrashDisk.entry_link_other heq none)
  · change some i ∉ (s.disk.link name none).settled t
    rw [CrashDisk.settled_link_other (hvisible t ht)]
    exact ha

theorem step_start (h : Inv s) {pid : Nat} {target : Name} {content : List UInt8} (ht : Target target)
    (hpid : pid < 2 ^ 32) :
    Inv { s with writer := Function.update s.writer id (some ⟨pid, target, content, .opening 0⟩) } := by
  have hcase : ∀ j v, Function.update s.writer id (some ⟨pid, target, content, .opening 0⟩) j = some v →
      (j = id ∧ v = ⟨pid, target, content, .opening 0⟩) ∨ (j ≠ id ∧ s.writer j = some v) := by
    intro j v hj
    by_cases heq : j = id
    · rw [heq, Function.update_self] at hj
      exact .inl ⟨heq, (Option.some.inj hj).symm⟩
    · rw [Function.update_of_ne heq] at hj
      exact .inr ⟨heq, hj⟩
  refine ⟨fun j v hj => ?_, fun j j' v v' hj hj' hne => ?_, ?_⟩
  · rcases hcase j v hj with ⟨-, rfl⟩ | ⟨-, hj⟩
    · exact ⟨ht, hpid, (fun n hn => by cases hn), (fun n hn => by cases hn), (fun n i hi => by cases hi),
        (fun n i hi => by cases hi), (fun n i hi => by cases hi),
        (fun n i hi => by cases hi), (fun n i hi => by cases hi), (fun k hk => by cases hk),
          fun k hk => by cases hk⟩
    · exact (h.good j v hj).frame ⟨le_rfl, fun _ _ _ => .inl rfl, le_rfl, fun _ _ _ => rfl,
        fun _ _ _ _ _ ha => ha,
        rfl, ⟨[], by simp⟩,
        le_rfl, le_rfl⟩
  · rcases hcase j v hj with ⟨rfl, rfl⟩ | ⟨-, hv⟩
    · exact ⟨(fun _ n hn => by cases hn), fun n i n' i' hi => by cases hi⟩
    · rcases hcase j' v' hj' with ⟨rfl, rfl⟩ | ⟨-, hv'⟩
      · exact ⟨(fun _ n _ hn => by cases hn), fun n i n' i' _ hi => by cases hi⟩
      · exact h.unlike j j' v v' hv hv' hne
  · exact ⟨h.shelf.whole, h.shelf.dated, h.shelf.current, h.shelf.newest⟩

theorem step (h : Inv s) (hs : Step s s') : Inv s' := by
  cases hs with
  | start id pid target content hfree ht hpid => exact h.step_start ht hpid
  | create id w attempts hw hp hbound hfree => exact h.step_create hw hbound
  | collide id w attempts hw hp hbound htaken hfew => exact h.step_tried hw rfl rfl rfl (fun n i => by simp)
  | openFails id w attempts hw hp => exact h.step_tried hw rfl rfl rfl (fun n i => by simp)
  | write id w next inode chunk rest hw hp => exact h.step_write hw hp
  | written id w next inode hw hp =>
    exact h.step_quiet hw (fun n hn => by rw [hp]; exact hn) (fun x hx => ⟨by rw [hp]; exact hx,
      by rw [hp]; rfl⟩) (fun n i => by simp) rfl
  | permit id w next inode hw hp =>
    exact h.step_quiet hw (fun n hn => by rw [hp]; exact hn) (fun x hx => ⟨by rw [hp]; exact hx,
      by rw [hp]; rfl⟩) (fun n i => by simp) rfl
  | flush id w next inode hw hp => exact h.step_flush hw hp
  | rename id w next inode hw hp hthere => exact h.step_rename hw hp hthere
  | syncParent id w next stamp hw hp => exact h.step_syncParent hw hp
  | fail id w next hw hp =>
    refine h.step_quiet hw (fun n hn => ?_) (fun x hx => by cases hx) (fun n i => by simp) rfl
    rcases hp with ⟨inode, rest, hp⟩ | ⟨inode, hp⟩ | ⟨inode, hp⟩ | ⟨inode, hp⟩ | ⟨stamp, hp⟩ <;>
      rw [hp] <;> exact hn
  | discard id w next hw hp => exact h.step_discard hw hp
  | keep id w next hw hp =>
    exact h.step_quiet hw (fun n hn => by cases hn) (fun x hx => by cases hx) (fun n i => by simp) rfl
  | kill pid => exact h.step_kill pid
  | cleanup pid owner name hname hother => exact h.step_cleanup hname
  | crash hc => exact inv_booted hc.booted

end Inv

end HybridMount.AtomicWrite
