import HybridMount.CrashDisk
import HybridMount.DurableFiles

/-! To its readers a file of the daemon is a register: the steps of a call which they can tell apart
are its rename and the flush of the directory after it. -/

namespace HybridMount.AtomicWrite

/-- What a name reads as, and what it may read as after a crash. -/
def State.register (s : State) (t : Name) : CrashRegister (Option (List UInt8)) :=
  ⟨s.disk.read t, {x | ∃ e ∈ s.disk.settled t, x = s.disk.content e}⟩

variable {s s' : State} {t : Name}

theorem register_frame (h : s.disk.Whole t) (hentry : s'.disk.entry t = s.disk.entry t)
    (hsettled : s'.disk.settled t = s.disk.settled t)
    (hcontent : ∀ e ∈ s.disk.settled t, s'.disk.content e = s.disk.content e) :
    s'.register t = s.register t := by
  have hread : s'.disk.read t = s.disk.read t := by
    rw [CrashDisk.read, CrashDisk.read, hentry]
    exact hcontent _ h.now
  unfold State.register
  rw [hread, hsettled]
  congr 1
  ext x
  constructor
  · rintro ⟨e, he, hx⟩
    exact ⟨e, he, by rw [hx, hcontent e he]⟩
  · rintro ⟨e, he, hx⟩
    exact ⟨e, he, by rw [hx, hcontent e he]⟩

theorem register_link {m : Name} (h : s.disk.Whole t) (hne : t ≠ m) (e : Option Nat) :
    State.register { s with disk := s.disk.link m e } t = s.register t :=
  register_frame h (CrashDisk.entry_link_other hne e) (CrashDisk.settled_link_other hne e) fun _ _ => rfl

/-- The name leads to a file which holds what is written. -/
theorem register_linked {i : Nat} {content : List UInt8} (hdata : (s.disk.file i).data = content) :
    State.register { s with disk := s.disk.link t (some i) } t = (s.register t).write (some content) := by
  have hcontent : s.disk.content (some i) = some content := by
    rw [← hdata]
    rfl
  unfold State.register CrashRegister.write
  congr 1
  · change s.disk.content ((s.disk.link t (some i)).entry t) = some content
    rw [CrashDisk.entry_link, hcontent]
  · ext x
    rw [CrashDisk.settled_link]
    constructor
    · rintro ⟨e, he, hx⟩
      rcases he with he | he
      · refine .inl ?_
        rw [hx, he]
        exact hcontent
      · exact .inr ⟨e, he, hx⟩
    · rintro (hx | ⟨e, he, hx⟩)
      · exact ⟨some i, .inl rfl, by rw [hx]; exact hcontent.symm⟩
      · exact ⟨e, .inr he, hx⟩

theorem register_syncDir (h : s'.disk = s.disk.syncDir) : s'.register t = (s.register t).flush := by
  unfold State.register CrashRegister.flush CrashRegister.fresh
  rw [h]
  congr 1
  ext x
  constructor
  · rintro ⟨e, he, hx⟩
    rw [hx, Set.mem_singleton_iff.mp he]
    rfl
  · intro hx
    exact ⟨s.disk.entry t, rfl, hx⟩

theorem register_crash (h : s.disk.Whole t) (hc : Crashed s s') :
    ∃ v ∈ (s.register t).possible, s'.register t = CrashRegister.fresh v := by
  obtain ⟨-, e, he, hread⟩ := h.crash hc.disk
  refine ⟨s'.disk.read t, ⟨e, he, hread⟩, ?_⟩
  unfold State.register CrashRegister.fresh
  rw [hc.disk.settled t]
  congr 1
  ext x
  constructor
  · rintro ⟨e', he', hx⟩
    rw [hx, Set.mem_singleton_iff.mp he']
    rfl
  · intro hx
    exact ⟨s'.disk.entry t, rfl, hx⟩

/-- What a step of the processes may be to the register of a name: the rename of a call for the name
writes what the call was given, the flush of the directory after a rename flushes. -/
inductive Means (s s' : State) (t : Name) : Option (CrashRegister.Event (Option (List UInt8))) → Prop
  | nothing : Means s s' t none
  | renamed (id : Nat) (w : Writer) (next inode stamp : Nat) (h : s.writer id = some w)
      (hp : w.phase = .flushed next inode)
      (ht : w.target = t) (hd : s'.writer id = some { w with phase := .renamed next stamp }) :
      Means s s' t (some (.write (some w.content)))
  | flushed (id : Nat) (w : Writer) (next stamp : Nat) (h : s.writer id = some w)
      (hp : w.phase = .renamed next stamp)
      (hd : s'.writer id = some { w with phase := .done stamp }) : Means s s' t (some .flush)
  | crashed (h : Crashed s s') : Means s s' t (some .crash)

/-- The register makes a move which the step may mean. -/
def Moved (s s' : State) (t : Name) : Prop := ∃ event, Means s s' t event ∧
    CrashRegister.Move (s.register t) event (s'.register t)

theorem Moved.stays (h : s'.register t = s.register t) :
    Moved s s' t := ⟨none, .nothing, by rw [h]; exact .stay⟩

/-- Every step of every process is a step of the register, or none. -/
theorem register_move (h : Reachable s) (hs : Step s s') (ht : Target t) : Moved s s' t := by
  have hwhole := h.inv.shelf.whole t ht
  cases hs with
  | create id w attempts hw hp hbound hfree =>
    have hne := ht.ne_temporaryName w.target w.pid (s.sequence w.pid)
    exact .stays (register_frame hwhole (CrashDisk.entry_link_other hne _)
      (CrashDisk.settled_link_other hne _)
      fun _ he => hwhole.content_create he)
  | write id w next inode chunk rest hw hp =>
    have hapart := (h.inv.good id w hw).apart next inode (by rw [hp]; rfl) t ht
    exact .stays (register_frame hwhole rfl rfl fun _ he => CrashDisk.Whole.content_append hapart chunk he)
  | flush id w next inode hw hp =>
    exact .stays (register_frame hwhole rfl rfl fun e _ => CrashDisk.content_sync s.disk inode e)
  | rename id w next inode hw hp hthere =>
    have hgood := h.inv.good id w hw
    have hne := ht.ne_temporaryName w.target w.pid next
    obtain ⟨i, hi⟩ := Option.ne_none_iff_exists'.mp hthere
    have hself : inode = i := by
      rcases hgood.own next inode (by rw [hp]; rfl) with hn | hn
      · exact absurd hn hthere
      · rw [hn] at hi
        exact Option.some.inj hi
    have hdata : (s.disk.file i).data = w.content := by
      have hall := hgood.data next inode (by rw [hp]; rfl)
      rw [hp] at hall
      rw [← hself, ← hall]
      exact (List.append_nil _).symm
    have hsynced : (s.disk.file i).synced = true := by
      rw [← hself]
      exact hgood.flushed next inode hp
    have hold : i < s.disk.next := by
      rw [← hself]
      exact hgood.old next inode (by rw [hp]; rfl)
    have hgone : ∀ d, s.disk.link w.target (some i) = d → d.Whole t →
        State.register { s with disk := d.link (w.temporary next) none } t =
          State.register { s with disk := d } t := by
      intro d _ hd
      exact register_link (s := { s with disk := d }) hd hne none
    have hdisk : s.disk.rename (w.temporary next) w.target = (s.disk.link w.target (some i)).link
        (w.temporary next) none := by
      rw [CrashDisk.rename, hi]
    have hregister : ∀ s₁ : State, s₁.disk = s.disk.rename (w.temporary next) w.target →
        s₁.register t = State.register
          { s with disk := (s.disk.link w.target (some i)).link (w.temporary next) none } t := by
      intro s₁ h₁
      unfold State.register
      rw [h₁, hdisk]
    by_cases heq : t = w.target
    · subst heq
      have hlinked : (s.disk.link w.target (some i)).Whole w.target :=
        hwhole.link (fun j hj => by rw [← Option.some.inj hj]; exact hsynced)
          fun j hj => by rw [← Option.some.inj hj]; exact hold
      exact ⟨_, .renamed id w next inode (s.published.length + 1) hw hp rfl (Function.update_self _ _ _),
        CrashRegister.Step.move (.write _)
          (((hregister _ rfl).trans (hgone _ rfl hlinked)).trans (register_linked hdata))⟩
    · exact .stays (((hregister _ rfl).trans (hgone _ rfl (hwhole.link_other heq (some i)))).trans
        (register_link hwhole heq (some i)))
  | syncParent id w next stamp hw hp =>
    exact ⟨_, .flushed id w next stamp hw hp (Function.update_self _ _ _),
      CrashRegister.Step.move .flush (register_syncDir rfl)⟩
  | discard id w next hw hp =>
    exact .stays (register_link hwhole (ht.ne_temporaryName w.target w.pid next) none)
  | cleanup pid owner name hname hother =>
    have hne : t ≠ name := by
      intro heq
      rw [← heq, ht.not_owned] at hname
      cases hname
    exact .stays (register_link hwhole hne none)
  | crash hc =>
    obtain ⟨v, hv, heq⟩ := register_crash hwhole hc
    exact ⟨_, .crashed hc, CrashRegister.Step.move (.crash v hv) heq⟩
  | _ => exact .stays rfl

theorem register_move_restarted : Moved raced restarted ['a'] :=
  register_move reachable_raced (.crash crashed_restarted) target_a

end HybridMount.AtomicWrite
