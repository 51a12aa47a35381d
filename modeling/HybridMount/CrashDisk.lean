import Mathlib.Data.Set.Insert
import Mathlib.Logic.Function.Basic

/-! A directory of files which survives crashes in part: of a file nothing is certain before it is
flushed, and a name may lead to any file it led to since the directory was flushed. And what a
reader may make of one name: a register which is written at once, and which a crash sets back to a
value it had since it was last flushed. -/

namespace HybridMount

structure File (α : Type) where
  data : List α
  synced : Bool

structure CrashDisk (ν α : Type) where
  entry : ν → Option Nat
  settled : ν → Set (Option Nat)
  file : Nat → File α
  next : Nat

namespace CrashDisk

variable {ν α : Type}

def content (d : CrashDisk ν α) (e : Option Nat) : Option (List α) := e.map fun i => (d.file i).data

def read (d : CrashDisk ν α) (n : ν) : Option (List α) := d.content (d.entry n)

/-- The name leads elsewhere, and a crash may show it or not. -/
def link [DecidableEq ν] (d : CrashDisk ν α) (n : ν) (e : Option Nat) : CrashDisk ν α :=
  { d with entry := Function.update d.entry n e,
           settled := Function.update d.settled n (insert e (d.settled n)) }

def create [DecidableEq ν] (d : CrashDisk ν α) (n : ν) : CrashDisk ν α :=
  { d.link n (some d.next) with file := Function.update d.file d.next ⟨[], false⟩, next := d.next + 1 }

def append (d : CrashDisk ν α) (i : Nat) (data : List α) : CrashDisk ν α :=
  { d with file := Function.update d.file i ⟨(d.file i).data ++ data, false⟩ }

def sync (d : CrashDisk ν α) (i : Nat) :
    CrashDisk ν α := { d with file := Function.update d.file i ⟨(d.file i).data, true⟩ }

def remove [DecidableEq ν] (d : CrashDisk ν α) (n : ν) : CrashDisk ν α := d.link n none

def rename [DecidableEq ν] (d : CrashDisk ν α) (a b : ν) : CrashDisk ν α := (d.link b (d.entry a)).link a none

def syncDir (d : CrashDisk ν α) : CrashDisk ν α := { d with settled := fun n => {d.entry n} }

/-- What may be found when the machine is started again. -/
structure Crash (d d' : CrashDisk ν α) : Prop where
  entry : ∀ n, d'.entry n ∈ d.settled n
  settled : ∀ n, d'.settled n = {d'.entry n}
  file : ∀ i, (d.file i).synced = true → d'.file i = d.file i
  next : d'.next = d.next

/-- The name leads to files which were flushed, whatever a crash makes of it. -/
structure Whole (d : CrashDisk ν α) (n : ν) : Prop where
  now : d.entry n ∈ d.settled n
  synced : ∀ i, some i ∈ d.settled n → (d.file i).synced = true
  old : ∀ i, some i ∈ d.settled n → i < d.next

/-- A file which no crash puts under the name. -/
def Apart (d : CrashDisk ν α) (n : ν) (i : Nat) : Prop := some i ∉ d.settled n

namespace Whole

variable {d d' : CrashDisk ν α} {n m : ν} {i : Nat}

/-- A crash leaves one of the contents which it could leave. -/
theorem crash (h : d.Whole n) (hc : Crash d d') :
    d'.Whole n ∧ ∃ e ∈ d.settled n, d'.read n = d.content e := by
  have hin := hc.entry n
  refine ⟨⟨?_, fun i hi => ?_, fun i hi => ?_⟩, d'.entry n, hin, ?_⟩
  · rw [hc.settled n]
    rfl
  · rw [hc.settled n, Set.mem_singleton_iff] at hi
    rw [← hi] at hin
    rw [hc.file i (h.synced i hin)]
    exact h.synced i hin
  · rw [hc.settled n, Set.mem_singleton_iff] at hi
    rw [← hi] at hin
    rw [hc.next]
    exact h.old i hin
  · unfold read content
    cases he : d'.entry n with
    | none => rfl
    | some i =>
      rw [he] at hin
      simp [hc.file i (h.synced i hin)]

theorem append (h : d.Whole n) (hi : d.Apart n i) (data : List α) : (d.append i data).Whole n := by
  refine ⟨h.now, fun j hj => ?_, h.old⟩
  have hne : j ≠ i := by
    intro heq
    rw [heq] at hj
    exact hi hj
  simp only [CrashDisk.append, Function.update_of_ne hne]
  exact h.synced j hj

theorem sync (h : d.Whole n) (i : Nat) : (d.sync i).Whole n := by
  refine ⟨h.now, fun j hj => ?_, h.old⟩
  by_cases hne : j = i
  · simp [CrashDisk.sync, hne]
  · simp only [CrashDisk.sync, Function.update_of_ne hne]
    exact h.synced j hj

theorem syncDir (h : d.Whole n) : d.syncDir.Whole n := by
  refine ⟨rfl, fun i hi => h.synced i ?_, fun i hi => h.old i ?_⟩
  · have heq : some i = d.entry n := hi
    rw [heq]
    exact h.now
  · have heq : some i = d.entry n := hi
    rw [heq]
    exact h.now

/-- The data of every file the name may lead to stays. -/
theorem content_append (hi : d.Apart n i) (data : List α) {e : Option Nat} (he : e ∈ d.settled n) :
    (d.append i data).content e = d.content e := by
  cases e with
  | none => rfl
  | some j =>
    have hne : j ≠ i := by
      intro heq
      rw [heq] at he
      exact hi he
    simp [content, CrashDisk.append, Function.update_of_ne hne]

variable [DecidableEq ν]

/-- Another name leads elsewhere. -/
theorem link_other (h : d.Whole n) (hne : n ≠ m) (e : Option Nat) : (d.link m e).Whole n := by
  refine ⟨?_, fun i hi => ?_, fun i hi => ?_⟩
  · simp only [link, Function.update_of_ne hne]
    exact h.now
  · simp only [link, Function.update_of_ne hne] at hi
    exact h.synced i hi
  · simp only [link, Function.update_of_ne hne] at hi
    exact h.old i hi

theorem link (h : d.Whole n) {e : Option Nat} (hsynced : ∀ i, e = some i → (d.file i).synced = true)
    (hold : ∀ i, e = some i → i < d.next) : (d.link n e).Whole n := by
  refine ⟨?_, fun i hi => ?_, fun i hi => ?_⟩
  · simp only [CrashDisk.link, Function.update_self]
    exact Set.mem_insert e (d.settled n)
  · simp only [CrashDisk.link, Function.update_self, Set.mem_insert_iff] at hi
    rcases hi with hi | hi
    · exact hsynced i hi.symm
    · exact h.synced i hi
  · simp only [CrashDisk.link, Function.update_self, Set.mem_insert_iff] at hi
    rcases hi with hi | hi
    · exact hold i hi.symm
    · exact h.old i hi

theorem create_other (h : d.Whole n) (hne : n ≠ m) : (d.create m).Whole n := by
  have hlinked := h.link_other hne (some d.next)
  refine ⟨hlinked.now, fun i hi => ?_, fun i hi => Nat.lt_succ_of_lt (hlinked.old i hi)⟩
  have hne := Nat.ne_of_lt (hlinked.old i hi)
  have hsync := hlinked.synced i hi
  change (Function.update d.file d.next ⟨[], false⟩ i).synced = true
  rw [Function.update_of_ne (by exact hne)]
  exact hsync

theorem content_create (h : d.Whole n) {e : Option Nat} (he : e ∈ d.settled n) :
    (d.create m).content e = d.content e := by
  cases e with
  | none => rfl
  | some j =>
    have hne := Nat.ne_of_lt (h.old j he)
    simp [content, create, CrashDisk.link, Function.update_of_ne hne]

end Whole

theorem content_sync (d : CrashDisk ν α) (i : Nat) (e : Option Nat) : (d.sync i).content e = d.content e := by
  cases e with
  | none => rfl
  | some j =>
    by_cases hne : j = i
    · simp [content, sync, hne]
    · simp [content, sync, Function.update_of_ne hne]

variable [DecidableEq ν]

theorem settled_link_other {d : CrashDisk ν α} {n m : ν} (hne : n ≠ m) (e : Option Nat) :
    (d.link m e).settled n = d.settled n := by
  simp only [link, Function.update_of_ne hne]

theorem settled_link (d : CrashDisk ν α) (n : ν) (e : Option Nat) :
    (d.link n e).settled n = insert e (d.settled n) := by
  simp only [link, Function.update_self]

theorem entry_link_other {d : CrashDisk ν α} {n m : ν} (hne : n ≠ m) (e : Option Nat) :
    (d.link m e).entry n = d.entry n := by
  simp only [link, Function.update_of_ne hne]

theorem entry_link (d : CrashDisk ν α) (n : ν) (e : Option Nat) : (d.link n e).entry n = e := by
  simp only [link, Function.update_self]

end CrashDisk

end HybridMount

namespace HybridMount

structure CrashRegister (α : Type) where
  value : α
  possible : Set α

namespace CrashRegister

variable {α : Type}

def fresh (v : α) : CrashRegister α := ⟨v, {v}⟩

def write (r : CrashRegister α) (v : α) : CrashRegister α := ⟨v, insert v r.possible⟩

def flush (r : CrashRegister α) : CrashRegister α := fresh r.value

inductive Event (α : Type) where
  | write (v : α)
  | flush
  | crash

inductive Step (r : CrashRegister α) : Event α → CrashRegister α → Prop
  | write (v : α) : Step r (.write v) (r.write v)
  | flush : Step r .flush r.flush
  | crash (v : α) (h : v ∈ r.possible) : Step r .crash (fresh v)

/-- One step or none. -/
inductive Move (r : CrashRegister α) : Option (Event α) → CrashRegister α → Prop
  | stay : Move r none r
  | step {event : Event α} {r' : CrashRegister α} (h : Step r event r') : Move r (some event) r'

theorem Step.move {r r' r'' : CrashRegister α} {event : Event α} (h : Step r event r') (heq : r'' = r') :
    Move r (some event) r'' := by
  rw [heq]
  exact .step h

/-- A property of the value and of all that a crash could make of it. -/
structure Always (P : α → Prop) (r : CrashRegister α) : Prop where
  value : P r.value
  possible : ∀ v ∈ r.possible, P v

namespace Always

variable {P Q : α → Prop} {r : CrashRegister α} {v : α}

theorem fresh (h : P v) : Always P (fresh v) :=
  ⟨h, fun x hx => by rw [Set.mem_singleton_iff.mp hx]; exact h⟩

theorem write (h : Always P r) (hv : P v) : Always P (r.write v) := by
  refine ⟨hv, fun x hx => ?_⟩
  rcases hx with hx | hx
  · rw [hx]
    exact hv
  · exact h.possible x hx

theorem flush (h : Always P r) : Always P r.flush := fresh h.value

theorem crash (h : Always P r) (hv : v ∈ r.possible) : Always P (CrashRegister.fresh v) :=
    fresh (h.possible v hv)

theorem imp (h : Always P r) (himp : ∀ v, P v → Q v) :
    Always Q r := ⟨himp _ h.value, fun v hv => himp v (h.possible v hv)⟩

end Always

end CrashRegister

end HybridMount
