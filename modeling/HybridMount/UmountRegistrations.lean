import HybridMount.Traced
import Mathlib.Data.Finset.Sort
import Mathlib.Data.String.Basic

/-! The registrations of mount points with KernelSU: what the process queues, installs
and withdraws, over a kernel list which others have entries in. -/

namespace HybridMount.Ksu

open Traced

inductive ErrorKind where
  | invalidInput
  | alreadyExists
  | other
  deriving DecidableEq, Repr

structure UmountCommand where
  path : String
  flags : UInt32
  mode : UInt8
  deriving DecidableEq, Repr

/-- The kernel's list. `added` are the entries which come from this process, and the
schedule says which of the requests to come fail. -/
structure Driver where
  paths : Finset String
  added : Finset String
  faults : List (Option ErrorKind)

structure Registrations where
  queued : Finset String
  installed : Finset String

structure Session where
  driver : Driver
  registrations : Registrations

structure Ioctl where
  result : Except ErrorKind Unit
  before : Driver
  after : Driver

/-- Mode 0 clears the list, 1 adds an entry and 2 deletes one. -/
def Driver.serve (command : UmountCommand) (d : Driver) : Except ErrorKind Unit × Driver :=
  let rest := { d with faults := d.faults.tail }
  match d.faults.head?.join with
  | some kind => (.error kind, rest)
  | none =>
    if command.mode = 0 then (.ok (), { rest with paths := ∅, added := ∅ })
    else if command.mode = 1 then
      if command.path ∈ d.paths then (.error .alreadyExists, rest)
      else (.ok (), { rest with paths := insert command.path d.paths, added := insert command.path d.added })
    else if command.mode = 2 then
      (.ok (), { rest with paths := d.paths.erase command.path, added := d.added.erase command.path })
    else (.error .invalidInput, rest)

abbrev Io := Prog Session Ioctl ErrorKind

def send (command : UmountCommand) : Io Unit := fun s =>
  let answer := s.driver.serve command
  ⟨answer.1, { s with driver := answer.2 }, [⟨answer.1, s.driver, answer.2⟩]⟩

def edit (f : Registrations → Registrations) : Io Unit := fun s =>
  ⟨.ok (), { s with registrations := f s.registrations }, []⟩

def mountPath (path : String) : Except ErrorKind String :=
  if path.utf8ByteSize = 0 ∨ 255 < path.utf8ByteSize then .error .invalidInput
  else if Char.ofNat 0 ∈ path.toList then .error .invalidInput
  else .ok path

def issue (path : String) (mode : UInt8) : Io Unit := do
  let path ← Prog.ofExcept (mountPath path)
  send ⟨path, 2, mode⟩

def release (paths : List String) : Io Unit := Prog.forEach (fun path => issue path 2) paths

namespace Registrations

def empty : Registrations := ⟨∅, ∅⟩

def queue (path : String) : Io Unit := edit fun r => { r with queued := insert path r.queued }

def committed (r : Registrations) : List String := r.installed.sort (· ≤ ·)

def install (path : String) : Io Unit := do
  let s ← Prog.get
  if path ∈ s.registrations.installed then pure ()
  else
    match ← Prog.attempt (issue path 1) with
    | .ok _ => edit fun r => { r with installed := insert path r.installed }
    -- An entry of another writer.
    | .error .alreadyExists => pure ()
    | .error e => Prog.fail e

def commit : Io Unit := do
  let s ← Prog.get
  Prog.forEach install (s.registrations.queued.sort (· ≤ ·))

def withdraw (path : String) : Io Unit := do
  edit fun r => { r with queued := r.queued.erase path }
  let s ← Prog.get
  if path ∈ s.registrations.installed then do
    release [path]
    edit fun r => { r with installed := r.installed.erase path }
  else pure ()

def rollback : Io Unit := do
  edit fun r => { r with queued := ∅ }
  let s ← Prog.get
  Prog.forEach withdraw s.registrations.committed

end Registrations

inductive Call where
  | queue (path : String)
  | commit
  | withdraw (path : String)
  | rollback
  deriving DecidableEq, Repr

def Call.run : Call → Io Unit
  | .queue path => Registrations.queue path
  | .commit => Registrations.commit
  | .withdraw path => Registrations.withdraw path
  | .rollback => Registrations.rollback

/-- The record says exactly which entries of the list are the process's own. -/
structure Exact (start : Finset String) (s : Session) : Prop where
  added : s.driver.added = s.registrations.installed
  paths : s.driver.paths = start ∪ s.driver.added
  apart : Disjoint start s.driver.added
  valid : ∀ path ∈ s.registrations.installed, mountPath path = .ok path

/-- Whatever leaves the list has been put there by the process. -/
def Ioctl.Own (e : Ioctl) : Prop := ∀ path ∈ e.before.paths, path ∉ e.after.paths → path ∈ e.before.added

section

variable {start : Finset String} {path : String} {G : Ioctl → Prop} {s : Session}

theorem mountPath_eq {path' : String} (h : mountPath path = .ok path') : path' = path := by
  unfold mountPath at h
  split at h
  · cases h
  · split at h
    · cases h
    · exact (Except.ok.inj h).symm

theorem Exact.serve_fault (h : Exact start s) {kind : ErrorKind} {command : UmountCommand}
    (hs : s.driver.faults.head?.join = some kind) :
    (s.driver.serve command).1 = .error kind ∧
    Exact start { s with driver := (s.driver.serve command).2 } := by
  have heq : s.driver.serve command = (.error kind, { s.driver with faults := s.driver.faults.tail }) := by
    simp only [Driver.serve, hs]
  rw [heq]
  exact ⟨rfl, h.added, h.paths, h.apart, h.valid⟩

theorem serve_add_new (hs : s.driver.faults.head?.join = none) (hnew : path ∉ s.driver.paths) :
    s.driver.serve ⟨path, 2, 1⟩ = (.ok (), { s.driver with
      faults := s.driver.faults.tail, paths := insert path s.driver.paths,
        added := insert path s.driver.added }) := by
  simp [Driver.serve, hs, hnew]

theorem serve_add_known (hs : s.driver.faults.head?.join = none) (hknown : path ∈ s.driver.paths) :
    s.driver.serve ⟨path, 2, 1⟩ =
    (.error .alreadyExists, { s.driver with faults := s.driver.faults.tail }) := by
  simp [Driver.serve, hs, hknown]

theorem serve_delete (hs : s.driver.faults.head?.join = none) :
    s.driver.serve ⟨path, 2, 2⟩ = (.ok (), { s.driver with
      faults := s.driver.faults.tail, paths := s.driver.paths.erase path,
        added := s.driver.added.erase path }) := by
  simp [Driver.serve, hs]

theorem send_sat {command : UmountCommand} {T : Ioctl → Prop} {P : Session → Prop} {Q : Unit → Session → Prop}
    {E : ErrorKind → Session → Prop}
    (hT : ∀ s, P s → T ⟨(s.driver.serve command).1, s.driver, (s.driver.serve command).2⟩)
    (hok : ∀ s, P s → (s.driver.serve command).1 = .ok () →
      Q () { s with driver := (s.driver.serve command).2 })
    (herr : ∀ s e, P s → G ⟨.error e, s.driver, (s.driver.serve command).2⟩ →
      (s.driver.serve command).1 = .error e → E e { s with driver := (s.driver.serve command).2 }) :
    Sat G T P (send command) Q E := by
  intro s hs hg
  refine ⟨fun e he => List.mem_singleton.mp he ▸ hT s hs, ?_⟩
  have hevent := hg _ (List.mem_singleton.mpr rfl)
  have hresult : (send command s).result = (s.driver.serve command).1 := rfl
  rw [hresult]
  cases hr : (s.driver.serve command).1 with
  | ok u => exact hok s hs hr
  | error e =>
    rw [hr] at hevent
    exact herr s e hs hevent hr

/-- The record is exact once the entry is noted as installed. -/
def Added (start : Finset String) (path : String) (s : Session) : Prop :=
  Exact start { s with registrations := { s.registrations with
    installed := insert path s.registrations.installed } }

theorem issue_add : Sat G Ioctl.Own (fun s => Exact start s ∧ path ∉ s.registrations.installed) (issue path 1)
    (fun _ => Added start path) (fun _ => Exact start) := by
  have hargument : Sat G Ioctl.Own (fun s => Exact start s ∧ path ∉ s.registrations.installed)
      (Prog.ofExcept (mountPath path))
      (fun path' s => (Exact start s ∧ path ∉ s.registrations.installed) ∧ path' = path ∧
        mountPath path = .ok path)
      (fun _ => Exact start) := by
    apply Sat.ofExcept
    · intro path' s hm hs
      have heq := mountPath_eq hm
      rw [heq] at hm
      exact ⟨hs, heq, hm⟩
    · exact fun _ _ _ hs => hs.1
  apply Sat.bind hargument
  intro path'
  apply send_sat
  · rintro s ⟨⟨hs, hnot⟩, rfl, hm⟩ q hq hgone
    exfalso
    apply hgone
    cases hf : s.driver.faults.head?.join with
    | some kind => simpa [Driver.serve, hf] using hq
    | none =>
      by_cases hknown : path' ∈ s.driver.paths
      · rw [serve_add_known hf hknown]
        exact hq
      · rw [serve_add_new hf hknown]
        exact Finset.mem_insert_of_mem hq
  · rintro s ⟨⟨hs, hnot⟩, rfl, hm⟩ hok
    cases hf : s.driver.faults.head?.join with
    | some kind =>
      rw [(hs.serve_fault hf).1] at hok
      cases hok
    | none =>
      by_cases hknown : path' ∈ s.driver.paths
      · rw [serve_add_known hf hknown] at hok
        cases hok
      · rw [serve_add_new hf hknown]
        have hforeign : path' ∉ start :=
          fun hmem => hknown (by rw [hs.paths]; exact Finset.mem_union_left _ hmem)
        constructor
        · exact congrArg (insert path') hs.added
        · show insert path' s.driver.paths = start ∪ insert path' s.driver.added
          rw [hs.paths, Finset.union_insert]
        · exact Finset.disjoint_insert_right.mpr ⟨hforeign, hs.apart⟩
        · intro q hq
          rcases Finset.mem_insert.mp hq with rfl | hq
          · exact hm
          · exact hs.valid q hq
  · rintro s e ⟨⟨hs, hnot⟩, rfl, hm⟩ - herr
    cases hf : s.driver.faults.head?.join with
    | some kind => exact (hs.serve_fault hf).2
    | none =>
      by_cases hknown : path' ∈ s.driver.paths
      · rw [serve_add_known hf hknown]
        exact ⟨hs.added, hs.paths, hs.apart, hs.valid⟩
      · rw [serve_add_new hf hknown] at herr
        cases herr

/-- The record is exact once the entry is no longer noted. -/
def Removed (start : Finset String) (path : String) (s : Session) : Prop :=
  Exact start { s with registrations := { s.registrations with
    installed := s.registrations.installed.erase path } }

theorem issue_delete {r : Registrations} (hin : path ∈ r.installed) :
    Sat G Ioctl.Own (fun s => Exact start s ∧ s.registrations = r) (issue path 2)
      (fun _ s => Removed start path s ∧ s.registrations = r)
      (fun e s => Exact start s ∧ ∃ before after, G ⟨.error e, before, after⟩) := by
  have hargument : Sat G Ioctl.Own (fun s => Exact start s ∧ s.registrations = r)
      (Prog.ofExcept (mountPath path))
      (fun path' s => (Exact start s ∧ s.registrations = r) ∧ path' = path)
      (fun e s => Exact start s ∧ ∃ before after, G ⟨.error e, before, after⟩) := by
    apply Sat.ofExcept
    · exact fun path' s hm hs => ⟨hs, mountPath_eq hm⟩
    · intro e s hm hs
      rw [hs.1.valid path (by rw [hs.2]; exact hin)] at hm
      cases hm
  apply Sat.bind hargument
  intro path'
  apply send_sat
  · rintro s ⟨⟨hs, rfl⟩, rfl⟩ q hq hgone
    cases hf : s.driver.faults.head?.join with
    | some kind =>
      exfalso
      apply hgone
      simpa [Driver.serve, hf] using hq
    | none =>
      rw [serve_delete hf] at hgone
      have heq : q = path' := by
        by_contra hne
        exact hgone (Finset.mem_erase.mpr ⟨hne, hq⟩)
      rw [heq, hs.added]
      exact hin
  · rintro s ⟨⟨hs, rfl⟩, rfl⟩ hok
    cases hf : s.driver.faults.head?.join with
    | some kind =>
      rw [(hs.serve_fault hf).1] at hok
      cases hok
    | none =>
      rw [serve_delete hf]
      have hforeign : path' ∉ start := by
        rw [← hs.added] at hin
        exact Finset.disjoint_right.mp hs.apart hin
      refine ⟨?_, rfl⟩
      constructor
      · exact congrArg (Finset.erase · path') hs.added
      · show s.driver.paths.erase path' = start ∪ s.driver.added.erase path'
        rw [hs.paths, Finset.erase_union_distrib, Finset.erase_eq_of_notMem hforeign]
      · exact hs.apart.mono_right (Finset.erase_subset _ _)
      · exact fun q hq => hs.valid q (Finset.mem_of_mem_erase hq)
  · rintro s e ⟨⟨hs, rfl⟩, rfl⟩ hg herr
    cases hf : s.driver.faults.head?.join with
    | some kind => exact ⟨(hs.serve_fault hf).2, _, _, hg⟩
    | none =>
      rw [serve_delete hf] at herr
      cases herr

theorem edit_sat {P Q : Session → Prop} {T : Ioctl → Prop} {E : ErrorKind → Session → Prop}
    {f : Registrations → Registrations}
    (h : ∀ s, P s → Q { s with registrations := f s.registrations }) : Sat G T P (edit f) (fun _ => Q) E :=
  fun s hs _ => ⟨fun _ he => absurd he List.not_mem_nil, h s hs⟩

theorem Exact.queued (h : Exact start s) (queued : Finset String) :
    Exact start { s with registrations := { s.registrations with queued := queued } } :=
  ⟨h.added, h.paths, h.apart, h.valid⟩

theorem install_exact : Sat G Ioctl.Own (Exact start) (Registrations.install path) (fun _ => Exact start)
    (fun _ => Exact start) := by
  apply Sat.bind (Sat.get (Q := fun before s => Exact start s ∧ s = before) fun s hs => ⟨hs, rfl⟩)
  intro before
  by_cases hin : path ∈ before.registrations.installed
  · rw [if_pos hin]
    exact Sat.pure fun s hs => hs.1
  · rw [if_neg hin]
    have hissue : Sat G Ioctl.Own (fun s => Exact start s ∧ s = before) (Prog.attempt (issue path 1))
        (fun outcome s => match outcome with
          | .ok _ => Added start path s
          | .error _ => Exact start s)
        (fun _ => Exact start) := by
      apply Sat.attempt
      apply issue_add.strengthen
      rintro s ⟨hs, rfl⟩
      exact ⟨hs, hin⟩
    apply Sat.bind hissue
    intro outcome
    cases outcome with
    | ok u => exact edit_sat fun s hs => hs
    | error e =>
      cases e with
      | alreadyExists => exact Sat.pure fun s hs => hs
      | invalidInput => exact Sat.fail fun s hs => hs
      | other => exact Sat.fail fun s hs => hs

theorem commit_exact :
    Sat G Ioctl.Own (Exact start) Registrations.commit (fun _ => Exact start) (fun _ => Exact start) := by
  apply Sat.bind (Sat.get (Q := fun _ => Exact start) fun s hs => hs)
  intro before
  exact Sat.forEach_invariant _ fun path _ => install_exact

/-- Only a request which fails keeps an entry from being withdrawn. -/
theorem withdraw_exact {r : Registrations} :
    Sat G Ioctl.Own (fun s => Exact start s ∧ s.registrations = r) (Registrations.withdraw path)
      (fun _ s => Exact start s ∧ s.registrations = ⟨r.queued.erase path, r.installed.erase path⟩)
      (fun e s => Exact start s ∧ ∃ before after, G ⟨.error e, before, after⟩) := by
  have hqueued : Sat G Ioctl.Own (fun s => Exact start s ∧ s.registrations = r)
      (edit fun r => { r with queued := r.queued.erase path })
      (fun _ s => Exact start s ∧ s.registrations = ⟨r.queued.erase path, r.installed⟩)
      (fun e s => Exact start s ∧ ∃ before after, G ⟨.error e, before, after⟩) := by
    apply edit_sat
    rintro s ⟨hs, rfl⟩
    exact ⟨hs.queued _, rfl⟩
  apply Sat.bind hqueued
  intro _
  have hget : Sat G Ioctl.Own
      (fun s => Exact start s ∧ s.registrations = ⟨r.queued.erase path, r.installed⟩) Prog.get
      (fun before s => (Exact start s ∧ s.registrations = ⟨r.queued.erase path, r.installed⟩) ∧
        before.registrations.installed = r.installed)
      (fun e s => Exact start s ∧ ∃ before after, G ⟨.error e, before, after⟩) := by
    apply Sat.get
    exact fun s hs => ⟨hs, by rw [hs.2]⟩
  apply Sat.bind hget
  intro before
  apply Sat.given
  intro hinstalled
  rw [hinstalled]
  by_cases hin : path ∈ r.installed
  · rw [if_pos hin]
    have hrelease : Sat G Ioctl.Own
        (fun s => Exact start s ∧ s.registrations = ⟨r.queued.erase path, r.installed⟩)
        (release [path]) (fun _ s => Removed start path s ∧
          s.registrations = ⟨r.queued.erase path, r.installed⟩)
        (fun e s => Exact start s ∧ ∃ before after, G ⟨.error e, before, after⟩) :=
      Sat.bind (issue_delete (r := ⟨r.queued.erase path, r.installed⟩) hin) fun _ => Sat.pure fun s hs => hs
    apply Sat.bind hrelease
    intro _
    apply edit_sat
    rintro s ⟨hs, hr⟩
    exact ⟨hs, by rw [hr]⟩
  · rw [if_neg hin]
    apply Sat.pure
    rintro s ⟨hs, hr⟩
    exact ⟨hs, by rw [hr, Finset.erase_eq_of_notMem hin]⟩

theorem withdraw_keeps : Sat G Ioctl.Own (Exact start) (Registrations.withdraw path) (fun _ => Exact start)
    (fun _ => Exact start) := by
  intro s hs hg
  exact (withdraw_exact (r := s.registrations)).weaken (fun _ _ h => h.1) (fun _ _ h => h.1) s ⟨hs, rfl⟩ hg

theorem rollback_keeps : Sat G Ioctl.Own (Exact start) Registrations.rollback (fun _ => Exact start)
    (fun _ => Exact start) := by
  apply Sat.bind (edit_sat (Q := Exact start) fun s hs => hs.queued _)
  intro _
  apply Sat.bind (Sat.get (Q := fun _ => Exact start) fun s hs => hs)
  intro before
  exact Sat.forEach_invariant _ fun path _ => withdraw_keeps

/-- Without a failing request, everything is withdrawn. -/
theorem rollback_empties : Sat (fun e => e.result = .ok ()) Ioctl.Own (Exact start) Registrations.rollback
    (fun _ s => Exact start s ∧ s.registrations = ⟨∅, ∅⟩) (fun _ _ => False) := by
  apply Sat.bind (edit_sat (Q := fun s => Exact start s ∧ s.registrations.queued = ∅) fun s hs =>
    ⟨hs.queued _, rfl⟩)
  intro _
  let I := fun (rest : List String) (s : Session) =>
    Exact start s ∧ s.registrations.queued = ∅ ∧ ∀ path ∈ s.registrations.installed, path ∈ rest
  apply Sat.bind (Sat.get (Q := fun before s => I before.registrations.committed s) fun s hs =>
    ⟨hs.1, hs.2, fun path hp => (Finset.mem_sort _).mpr hp⟩)
  intro before
  have hall : Sat (fun e => e.result = .ok ()) Ioctl.Own (I before.registrations.committed)
      (Prog.forEach Registrations.withdraw before.registrations.committed) (fun _ => I [])
      (fun _ _ => False) := by
    apply Sat.forEach
    intro path rest s hs hg
    have hstep : Sat (fun e : Ioctl => e.result = .ok ()) Ioctl.Own
        (fun s' => Exact start s' ∧ s'.registrations = s.registrations) (Registrations.withdraw path)
        (fun _ => I rest) (fun _ _ => False) := by
      apply withdraw_exact.weaken
      · rintro _ s' ⟨hs', hr⟩
        refine ⟨hs', ?_, ?_⟩
        · rw [hr, hs.2.1]
          rfl
        · intro q hq
          rw [hr] at hq
          obtain ⟨hne, hq⟩ := Finset.mem_erase.mp hq
          exact (List.mem_cons.mp (hs.2.2 q hq)).resolve_left hne
      · rintro e s' ⟨-, b, a, he⟩
        cases he
    exact hstep s ⟨hs.1, rfl⟩ hg
  refine hall.weaken ?_ (fun _ _ h => h)
  rintro _ s ⟨hs, hqueued, hinstalled⟩
  refine ⟨hs, ?_⟩
  have hempty : s.registrations.installed = ∅ := by
    rw [Finset.eq_empty_iff_forall_notMem]
    exact fun path hp => absurd (hinstalled path hp) List.not_mem_nil
  calc s.registrations = ⟨s.registrations.queued, s.registrations.installed⟩ := rfl
    _ = ⟨∅, ∅⟩ := by rw [hqueued, hempty]

theorem call_keeps (call : Call) :
    Sat G Ioctl.Own (Exact start) call.run (fun _ => Exact start) (fun _ => Exact start) := by
  cases call with
  | queue path =>
    show Sat G Ioctl.Own (Exact start) (edit fun r => { r with queued := insert path r.queued }) _ _
    exact edit_sat fun s hs => hs.queued _
  | commit => exact commit_exact
  | withdraw path => exact withdraw_keeps
  | rollback => exact rollback_keeps

/-- The process, without registrations of its own. -/
def fresh (start : Finset String) (faults : List (Option ErrorKind)) : Session := ⟨⟨start, ∅, faults⟩, .empty⟩

/-- What is recorded is listed, what was added is recorded, and a rollback whose requests
all succeed restores the list. -/
structure Balanced (start : Finset String) (s : Session) : Prop where
  listed : s.registrations.installed ⊆ s.driver.paths
  recorded : s.driver.added ⊆ s.registrations.installed
  undone : (∀ e ∈ (Registrations.rollback s).trace, e.result = .ok ()) →
    (Registrations.rollback s).state.driver.paths = start ∧
      (Registrations.rollback s).state.registrations = .empty

theorem Exact.balanced (h : Exact start s) : Balanced start s := by
  constructor
  · rw [← h.added, h.paths]
    exact Finset.subset_union_right
  · rw [h.added]
  · intro hgood
    obtain ⟨-, hend⟩ := rollback_empties s h hgood
    cases hr : (Registrations.rollback s).result with
    | error e =>
      rw [hr] at hend
      exact hend.elim
    | ok u =>
      rw [hr] at hend
      obtain ⟨hexact, hregistrations⟩ := hend
      refine ⟨?_, hregistrations⟩
      rw [hexact.paths, hexact.added, hregistrations, Finset.union_empty]

/-- Over every sequence of calls and failures, the kernel list and the records agree, and
nothing but the entries of the process is deleted. -/
theorem registrations_balanced (start : Finset String) (faults : List (Option ErrorKind))
    (calls : List Call) :
    (∀ e ∈ (Prog.tryEach Call.run calls (fresh start faults)).trace, e.Own) ∧
      Balanced start (Prog.tryEach Call.run calls (fresh start faults)).state := by
  have hfresh : Exact start (fresh start faults) := by
    constructor
    · rfl
    · exact (Finset.union_empty start).symm
    · exact Finset.disjoint_empty_right start
    · exact fun path hp => absurd hp (Finset.notMem_empty path)
  have hcalls : Sat (fun _ => True) Ioctl.Own (Exact start) (Prog.tryEach Call.run calls)
      (fun _ => Exact start)
      (fun _ => Exact start) := Sat.tryEach_invariant calls fun call _ => call_keeps call
  obtain ⟨hown, hend⟩ := hcalls _ hfresh fun _ _ => trivial
  refine ⟨hown, Exact.balanced ?_⟩
  cases hr : (Prog.tryEach Call.run calls (fresh start faults)).result with
  | ok u =>
    rw [hr] at hend
    exact hend
  | error e =>
    rw [hr] at hend
    exact hend

end

end HybridMount.Ksu
