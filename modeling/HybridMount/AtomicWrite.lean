import Mathlib.Algebra.GroupWithZero.Nat
import HybridMount.CrashDisk
import HybridMount.Text

/-! Files which are replaced as a whole: any number of processes write a temporary file each, flush
it and rename it, and remove what others left behind. -/

namespace HybridMount.AtomicWrite

open Text

abbrev Name := List Char

def decimal (n : Nat) : List Char := Nat.toDigits 10 n

/-- The format ".{file_name}.{pid}.{next}.tmp". -/
def temporaryName (fileName : Name) (pid next : Nat) : Name :=
  '.' :: ((fileName ++ '.' :: (decimal pid ++ '.' :: decimal next)) ++ ['.', 't', 'm', 'p'])

/-- What comes before and after the last occurrence of a character. -/
def rsplitOnce (c : Char) (text : List Char) : Option (List Char × List Char) :=
  (splitOnce [c] text.reverse).map fun parts => (parts.2.reverse, parts.1.reverse)

def stripPrefix (text : List Char) : Option (List Char) :=
  match text with
  | '.' :: rest => some rest
  | _ => none

def stripSuffix (text : List Char) : Option (List Char) :=
  if ['.', 't', 'm', 'p'] <:+ text then some (text.take (text.length - 4)) else none

/-- The name of the file, the process and the number which a name of this form was made of. -/
def temporaryParts (name : Name) : Option (List Char × List Char × List Char) := do
  let stem ← stripSuffix (← stripPrefix name)
  let (rest, sequence) ← rsplitOnce '.' stem
  let (original, pid) ← rsplitOnce '.' rest
  return (original, pid, sequence)

def parse (bound : Nat) (text : List Char) : Option Nat :=
  if text ≠ [] ∧ text.all Char.isDigit = true ∧ Nat.ofDigitChars 10 text 0 < bound
    then some (Nat.ofDigitChars 10 text 0) else none

/-- The process whose temporary file a name is, for `cleanup_stale_atomic_temp_files`. -/
def temporaryOwner (name : Name) : Option Nat := do
  let (original, pid, sequence) ← temporaryParts name
  let _ ← if original = [] then none else parse (2 ^ 64) sequence
  parse (2 ^ 32) pid

theorem rsplitOnce_append {c : Char} {after : List Char} (h : c ∉ after) (before : List Char) :
    rsplitOnce c (before ++ c :: after) = some (before, after) := by
  have hshape : (before ++ c :: after).reverse = after.reverse ++ c :: before.reverse := by simp
  rw [rsplitOnce, hshape, splitOnce_char (by simpa using h)]
  simp

theorem point_notMem_decimal (n : Nat) : '.' ∉ decimal n := by
  intro h
  have hdigit := Nat.isDigit_of_mem_toDigits (by decide) (by decide) h
  cases hdigit

theorem stripSuffix_append (text : List Char) : stripSuffix (text ++ ['.', 't', 'm', 'p']) = some text := by
  rw [stripSuffix, if_pos (List.suffix_append _ _)]
  simp

theorem temporaryParts_temporaryName (fileName : Name) (pid next : Nat) :
    temporaryParts (temporaryName fileName pid next) = some (fileName, decimal pid, decimal next) := by
  have hstem := stripSuffix_append (fileName ++ '.' :: (decimal pid ++ '.' :: decimal next))
  have houter := rsplitOnce_append (point_notMem_decimal next) (fileName ++ '.' :: decimal pid)
  have hinner := rsplitOnce_append (point_notMem_decimal pid) fileName
  have hshape : fileName ++ '.' :: (decimal pid ++ '.' :: decimal next) = (fileName ++ '.' :: decimal pid) ++
      '.' :: decimal next := by
    simp
  simp only [temporaryParts, temporaryName, stripPrefix, Option.bind_eq_bind, Option.bind_some, hstem]
  rw [hshape, houter]
  simp only [Option.bind_some, hinner]
  rfl

theorem parse_decimal {bound n : Nat} (h : n < bound) : parse bound (decimal n) = some n := by
  have hvalue : Nat.ofDigitChars 10 (decimal n) 0 = n := Nat.ofDigitChars_toDigits (by decide) (by decide)
  have hall : (decimal n).all Char.isDigit = true :=
    List.all_eq_true.mpr fun c hc => Nat.isDigit_of_mem_toDigits (by decide) (by decide) hc
  rw [parse, hvalue, if_pos ⟨Nat.toDigits_ne_nil, hall, h⟩]

theorem decimal_injective {m n : Nat} (h : decimal m = decimal n) : m = n := by
  have hm : parse (m + n + 1) (decimal m) = some m := parse_decimal (by omega)
  have hn : parse (m + n + 1) (decimal n) = some n := parse_decimal (by omega)
  rw [h, hn] at hm
  exact (Option.some.inj hm).symm

theorem temporaryName_injective {f f' : Name} {p p' n n' : Nat}
    (h : temporaryName f p n = temporaryName f' p' n') :
    f = f' ∧ p = p' ∧ n = n' := by
  have hparts := temporaryParts_temporaryName f p n
  rw [h, temporaryParts_temporaryName, Option.some.injEq, Prod.mk.injEq, Prod.mk.injEq] at hparts
  exact ⟨hparts.1.symm, (decimal_injective hparts.2.1).symm, (decimal_injective hparts.2.2).symm⟩

/-- What a process leaves behind is known to be its own. -/
theorem temporaryOwner_temporaryName {fileName : Name} {pid next : Nat} (hname : fileName ≠ [])
    (hpid : pid < 2 ^ 32)
    (hnext : next < 2 ^ 64) : temporaryOwner (temporaryName fileName pid next) = some pid := by
  simp only [temporaryOwner, temporaryParts_temporaryName, Option.bind_eq_bind, Option.bind_some, if_neg hname]
  rw [parse_decimal hnext, Option.bind_some, parse_decimal hpid]

/-- The files of the daemon do not begin with a point. -/
structure Target (name : Name) : Prop where
  named : name ≠ []
  visible : name.head? ≠ some '.'

theorem Target.ne_temporaryName {t : Name} (h : Target t) (fileName : Name) (pid next : Nat) :
    t ≠ temporaryName fileName pid next := by
  intro heq
  exact h.visible (by rw [heq]; rfl)

theorem Target.not_owned {t : Name} (h : Target t) : temporaryOwner t = none := by
  have hstrip : stripPrefix t = none := by
    cases t with
    | nil => rfl
    | cons c rest =>
      unfold stripPrefix
      split
      · rename_i heq
        exact absurd (by rw [heq]; rfl) h.visible
      · rfl
  simp [temporaryOwner, temporaryParts, hstrip]

/-- Where a call of `atomic_write` is. `renamed` and `done` say which rename it was. -/
inductive Phase where
  | opening (attempts : Nat)
  | writing (next inode : Nat) (rest : List UInt8)
  | written (next inode : Nat)
  | permitted (next inode : Nat)
  | flushed (next inode : Nat)
  | renamed (next stamp : Nat)
  | failing (next : Nat)
  | failed
  | done (stamp : Nat)

structure Writer where
  pid : Nat
  target : Name
  content : List UInt8
  phase : Phase

/-- `published` are the renames since the machine was started, `newest` the last of a name and `kept`
one which every crash keeps, or a later one of the name; zero stands for what was found. -/
structure State where
  disk : CrashDisk Name UInt8
  sequence : Nat → Nat
  writer : Nat → Option Writer
  found : Name → Option (List UInt8)
  published : List (Name × List UInt8)
  newest : Name → Nat
  kept : Name → Nat

namespace State

def enter (s : State) (id : Nat) (w : Writer) (phase : Phase) : State :=
  { s with writer := Function.update s.writer id (some { w with phase := phase }) }

def advance (s : State) (pid : Nat) : State :=
  { s with sequence := Function.update s.sequence pid (s.sequence pid + 1) }

end State

def Writer.temporary (w : Writer) (next : Nat) : Name := temporaryName w.target w.pid next

/-- A machine which was just started. -/
structure Booted (s : State) : Prop where
  flushed : ∀ n i, some i ∈ s.disk.settled n → (s.disk.file i).synced = true
  settled : ∀ n, s.disk.settled n = {s.disk.entry n}
  old : ∀ n i, s.disk.entry n = some i → i < s.disk.next
  sequence : ∀ pid, s.sequence pid = 0
  writer : ∀ id, s.writer id = none
  found : ∀ n, s.found n = s.disk.read n
  published : s.published = []
  newest : ∀ n, s.newest n = 0
  kept : ∀ n, s.kept n = 0

/-- A crash ends all processes; what it leaves on the disk is what is found. -/
structure Crashed (s s' : State) : Prop where
  disk : s.disk.Crash s'.disk
  booted : Booted s'

inductive Step : State → State → Prop
  | start {s : State} (id pid : Nat) (target : Name) (content : List UInt8) (h : s.writer id = none)
      (ht : Target target)
      (hpid : pid < 2 ^ 32) : Step s
        { s with writer := Function.update s.writer id (some ⟨pid, target, content, .opening 0⟩) }
  | create {s : State} (id : Nat) (w : Writer) (attempts : Nat) (h : s.writer id = some w)
      (hp : w.phase = .opening attempts)
      (hbound : s.sequence w.pid < 2 ^ 64) (hfree : s.disk.entry (w.temporary (s.sequence w.pid)) = none) :
      Step s ({ s.advance w.pid with disk := s.disk.create (w.temporary (s.sequence w.pid)) }.enter id w
        (.writing (s.sequence w.pid) s.disk.next w.content))
  /-- The file exists: a number further, thirty-one times. -/
  | collide {s : State} (id : Nat) (w : Writer) (attempts : Nat) (h : s.writer id = some w)
      (hp : w.phase = .opening attempts)
      (hbound : s.sequence w.pid < 2 ^ 64) (htaken : s.disk.entry (w.temporary (s.sequence w.pid)) ≠ none)
      (hfew : attempts + 1 < 32) :
      Step s ((s.advance w.pid).enter id w (.opening (attempts + 1)))
  | openFails {s : State} (id : Nat) (w : Writer) (attempts : Nat) (h : s.writer id = some w)
      (hp : w.phase = .opening attempts) :
      Step s ((s.advance w.pid).enter id w .failed)
  | write {s : State} (id : Nat) (w : Writer) (next inode : Nat) (chunk rest : List UInt8)
      (h : s.writer id = some w)
      (hp : w.phase = .writing next inode (chunk ++ rest)) :
      Step s ({ s with disk := s.disk.append inode chunk }.enter id w (.writing next inode rest))
  | written {s : State} (id : Nat) (w : Writer) (next inode : Nat) (h : s.writer id = some w)
      (hp : w.phase = .writing next inode []) :
      Step s (s.enter id w (.written next inode))
  /-- The permissions of the file which is replaced, if there is one. -/
  | permit {s : State} (id : Nat) (w : Writer) (next inode : Nat) (h : s.writer id = some w)
      (hp : w.phase = .written next inode) :
      Step s (s.enter id w (.permitted next inode))
  | flush {s : State} (id : Nat) (w : Writer) (next inode : Nat) (h : s.writer id = some w)
      (hp : w.phase = .permitted next inode) :
      Step s ({ s with disk := s.disk.sync inode }.enter id w (.flushed next inode))
  | rename {s : State} (id : Nat) (w : Writer) (next inode : Nat) (h : s.writer id = some w)
      (hp : w.phase = .flushed next inode)
      (hthere : s.disk.entry (w.temporary next) ≠ none) :
      Step s ({ s with
        disk := s.disk.rename (w.temporary next) w.target
        published := s.published ++ [(w.target, w.content)]
        newest := Function.update s.newest w.target (s.published.length + 1) }.enter id w
          (.renamed next (s.published.length + 1)))
  | syncParent {s : State} (id : Nat) (w : Writer) (next stamp : Nat) (h : s.writer id = some w)
      (hp : w.phase = .renamed next stamp) :
      Step s ({ s with disk := s.disk.syncDir,
                       kept := Function.update s.kept w.target (s.newest w.target) }.enter id w (.done stamp))
  /-- Any call may fail, the one of `rename` also since the temporary file was removed. -/
  | fail {s : State} (id : Nat) (w : Writer) (next : Nat) (h : s.writer id = some w)
      (hp : (∃ inode rest, w.phase = .writing next inode rest) ∨ (∃ inode, w.phase = .written next inode) ∨
        (∃ inode, w.phase = .permitted next inode) ∨ (∃ inode, w.phase = .flushed next inode) ∨
          ∃ stamp, w.phase = .renamed next stamp) :
      Step s (s.enter id w (.failing next))
  | discard {s : State} (id : Nat) (w : Writer) (next : Nat) (h : s.writer id = some w)
      (hp : w.phase = .failing next) :
      Step s ({ s with disk := s.disk.remove (w.temporary next) }.enter id w .failed)
  | keep {s : State} (id : Nat) (w : Writer) (next : Nat) (h : s.writer id = some w)
      (hp : w.phase = .failing next) :
      Step s (s.enter id w .failed)
  /-- A process ends, and its number may be given to another. -/
  | kill {s : State} (pid : Nat) : Step s { s with
      sequence := Function.update s.sequence pid 0
      writer := fun id => (s.writer id).filter fun w => w.pid ≠ pid }
  /-- `cleanup_stale_atomic_temp_files` of one process finds a file old enough. -/
  | cleanup {s : State} (pid owner : Nat) (name : Name) (h : temporaryOwner name = some owner)
      (hother : owner ≠ pid) :
      Step s { s with disk := s.disk.remove name }
  | crash {s s' : State} (h : Crashed s s') : Step s s'

inductive Reachable : State → Prop
  | booted {s : State} (h : Booted s) : Reachable s
  | step {s s' : State} (h : Reachable s) (hs : Step s s') : Reachable s'

end HybridMount.AtomicWrite
