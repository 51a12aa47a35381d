import HybridMount.InterruptedMutations
import HybridMount.Traced

/-! The load of the VFS kernel module. The marker of an attempt is on disk before a loader runs, and
an attempt that ends the kernel leaves it there. -/

namespace HybridMount.ModuleLoad

open BootGuard (BootId GuardIdentity GuardRecord)
open LittleEndian Traced

/-- A packaged kernel object, with its size and modification time where they can be read. -/
structure Candidate where
  path : String
  object : Option String
  plain : BootGuard.Plain path
  carried : ∀ value, object = some value → BootGuard.Carried value

/-- The running executable. -/
structure Build where
  version : String
  binary : Option String
  wellFormed : GuardIdentity.WellFormed ⟨version, binary, none⟩

def Build.identity (build : Build) (object : Option String) : GuardIdentity :=
  ⟨build.version, build.binary, object⟩

inductive ModulePresence where
  | notPresent
  | builtIn
  | loadable
  deriving DecidableEq, Repr

def ModulePresence.text : ModulePresence → String
  | notPresent => "NotPresent"
  | builtIn => "BuiltIn"
  | loadable => "Loadable"

/-- What the system answers to one call. -/
structure Answer where
  failure : Option String
  yes : Bool
  presence : ModulePresence
  bootId : Option BootId
  /-- How much of a text was written before the failure. -/
  written : Nat
  status : String
  stderr : String

/-- The marker file; `settled` is whether a crash keeps it as it is. -/
structure Machine where
  marker : Option Bytes
  settled : Bool
  calls : Nat

/-- A change of the marker, an unload, or a loader that runs on a candidate. -/
structure Event where
  inserted : Option Candidate
  pre : Machine
  post : Machine

abbrev Op := Prog Machine Event String

def VFS_LKM_BOOT_GUARD_PATH : String := "/data/adb/hybrid-mount/vfs_lkm_boot_guard"

variable (answers : Nat → Answer)

def ask : Op Answer := fun s => ⟨.ok (answers s.calls), { s with calls := s.calls + 1 }, []⟩

def setMarker (marker : Option Bytes) (settled : Bool) : Op Unit :=
  Prog.update (fun s => { s with marker := marker, settled := settled }) fun s s' => ⟨none, s, s'⟩

def settle : Op Unit := Prog.update (fun s => { s with settled := true }) fun s s' => ⟨none, s, s'⟩

def insert (candidate : Candidate) : Op Unit := Prog.update (fun s => s) fun s s' => ⟨some candidate, s, s'⟩

def unload : Op Unit := Prog.update (fun s => s) fun s s' => ⟨none, s, s'⟩

/-- A call which has no effect here but may fail. -/
def check (operation : String) : Op Unit := do
  let answer ← ask answers
  match answer.failure with
  | some text => Prog.fail (operation ++ ": " ++ text)
  | none => return ()

/-- The removal of the marker; that its sync fails is only warned about. -/
def removeMarker : Op Unit := do
  setMarker none false
  let synced ← ask answers
  if synced.failure.isSome then return () else settle

/-- A removal that fails is only warned about too. -/
def dropGuard : Op Unit := do
  let removed ← ask answers
  if removed.failure.isSome then return () else removeMarker answers

/-- The steps behind the creation of the marker, which a failure takes away again. -/
def fillMarker (payload : Bytes) : Op Unit := do
  let written ← ask answers
  match written.failure with
  | some text => do
    setMarker (some (payload.take written.written)) false
    dropGuard answers
    Prog.fail ("write VFS module load boot guard " ++ VFS_LKM_BOOT_GUARD_PATH ++ ": " ++ text)
  | none => do
    setMarker (some payload) false
    let synced ← ask answers
    match synced.failure with
    | some text => do
      dropGuard answers
      Prog.fail ("sync VFS module load boot guard " ++ VFS_LKM_BOOT_GUARD_PATH ++ ": " ++ text)
    | none => do
      let parent ← ask answers
      match parent.failure with
      | some text => do
        dropGuard answers
        Prog.fail ("sync VFS module load boot-guard parent for " ++ VFS_LKM_BOOT_GUARD_PATH ++ ": " ++ text)
      | none => settle

def arm (payload : Bytes) : Op Unit := do
  check answers "create VFS module load guard directory /data/adb/hybrid-mount"
  check answers "sync VFS module load guard directory entry /data/adb/hybrid-mount"
  let opened ← ask answers
  let s ← Prog.get
  if s.marker.isSome then
    Prog.fail ("previous VFS module load attempt did not complete; refusing automatic retry. " ++
      "Verify the kernel ABI, then remove " ++ VFS_LKM_BOOT_GUARD_PATH ++ " to retry")
  else
    match opened.failure with
    | some text => Prog.fail ("create VFS module load boot guard " ++ VFS_LKM_BOOT_GUARD_PATH ++ ": " ++ text)
    | none => do
      setMarker (some []) false
      fillMarker answers payload

def attemptPayload (build : Build) (bootId : Option BootId) (candidate : Candidate) : String :=
  BootGuard.markerPayload .module (build.identity candidate.object) bootId ++
    ("lkm=" ++ candidate.path ++ "\n")

/-- The marker file ends with a line of its own. -/
def markerBytes (build : Build) (bootId : Option BootId) (candidate : Candidate) : Bytes :=
  utf8 (attemptPayload build bootId candidate ++ "\n")

/-- A marker without an object blames the whole package. -/
def blamesPackagedObject (record : GuardRecord) (candidates : List Candidate) : Bool :=
  match record.object with
  | none => true
  | some object => candidates.any fun candidate => candidate.object == some object

def clearAt : Op Unit := do
  let removed ← ask answers
  match removed.failure with
  | some text => Prog.fail ("remove vfs boot guard for " ++ VFS_LKM_BOOT_GUARD_PATH ++ ": " ++ text)
  | none => removeMarker answers

def incomplete (record : GuardRecord) : String :=
  "incomplete VFS module load attempt by this build (" ++ record.describe ++
    "); remove " ++ VFS_LKM_BOOT_GUARD_PATH ++ " (or run 'hybrid-mount vfs guard clear --yes') to retry"

def prepareLkmGuard (build : Build) (candidates : List Candidate) : Op Unit := do
  check answers ("read vfs boot guard for " ++ VFS_LKM_BOOT_GUARD_PATH)
  let s ← Prog.get
  match BootGuard.inspectAt s.marker (build.identity none) with
  | .absent => return ()
  | .own record =>
    if blamesPackagedObject record candidates then Prog.fail (incomplete record) else clearAt answers
  | .foreign _ => clearAt answers

def refuseForeignNomount : Op Unit := do
  let nomount ← ask answers
  match nomount.failure with
  | some text => Prog.fail text
  | none => if nomount.yes then Prog.fail "NoMount is present; refusing to load hybridmount" else return ()

def ensureProviderAbsent (presence : ModulePresence) : Except String Unit :=
  if presence = .notPresent then .ok ()
  else
    .error ("hybridmount is already present (" ++ presence.text ++ "); refusing duplicate insmod/unload; " ++
    "run vfs-doctor and update the existing provider to match the userspace protocol")

structure InsmodAttempt where
  program : String
  status : String
  stderr : String

def describeAttempts (attempts : List InsmodAttempt) : String :=
  if attempts.isEmpty then "no insmod candidate produced output"
  else
    "; ".intercalate (attempts.map fun a => a.program ++ ": status=" ++ a.status ++ ", stderr=" ++ a.stderr)

def INSMOD_CANDIDATES : List String :=
  ["/data/adb/ksud", "/data/adb/apd", "/data/adb/ap/bin/apd", "apd",
    "/data/adb/modules/hybrid_mount/hybrid-mount",
    "/system/bin/insmod", "/data/adb/ap/bin/busybox", "/data/adb/ksu/bin/busybox", "insmod"]

/-- Only the effect of the module decides, not the exit of the loader. -/
def loadWithCandidates (candidate : Candidate) :
    List String → List InsmodAttempt → Op (Option (List InsmodAttempt))
  | [], attempts => return some attempts
  | program :: rest, attempts => do
    insert candidate
    let outcome ← ask answers
    match outcome.failure with
    | some text => loadWithCandidates candidate rest (attempts ++ [⟨program, "not runnable", text⟩])
    | none => do
      let accepted ← ask answers
      if accepted.yes then return none
      else loadWithCandidates candidate rest (attempts ++ [⟨program, outcome.status, outcome.stderr⟩])

/-- Only a candidate that failed is unloaded, never a provider that was there before. -/
def unloadFailed : Op Unit := do
  let left ← ask answers
  if left.presence = .loadable then unload else return ()

/-- What happens under the guard of one candidate: nothing if the module responds, else the failures so far. -/
def tryCandidate (candidate : Candidate) (failures : List String) : Op (Option (List String)) := do
  match ← loadWithCandidates answers candidate INSMOD_CANDIDATES [] with
  | none => return none
  | some attempts => do
    let failures := failures ++ [candidate.path ++ ": " ++ describeAttempts attempts]
    unloadFailed answers
    refuseForeignNomount answers
    let now ← ask answers
    match ensureProviderAbsent now.presence with
    | .error text => Prog.fail ("stop VFS candidate fallback: " ++ text ++ "; " ++ "; ".intercalate failures)
    | .ok _ => return some failures

def tryCandidates (build : Build) : List Candidate → List String → Op Unit
  | [], failures => Prog.fail ("no VFS candidate became available: " ++ "; ".intercalate failures)
  | candidate :: rest, failures => do
    let boot ← ask answers
    arm answers (markerBytes build boot.bootId candidate)
    let outcome ← Prog.attempt (tryCandidate answers candidate failures)
    dropGuard answers
    match outcome with
    | .error text => Prog.fail text
    | .ok none => return ()
    | .ok (some failures) => tryCandidates build rest failures

/-- `found` is what `bundled_candidates` finds. -/
def load (build : Build) (found : Except String (List Candidate)) : Op Unit := do
  refuseForeignNomount answers
  let present ← ask answers
  Prog.ofExcept (ensureProviderAbsent present.presence)
  let candidates ← Prog.ofExcept found
  prepareLkmGuard answers build candidates
  tryCandidates answers build candidates []

end HybridMount.ModuleLoad
