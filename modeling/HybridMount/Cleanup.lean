import HybridMount.MountCleanup
import HybridMount.RuleReconcile

/-! How the daemon finds its ledger and its kernel provider, and the soft-reboot cleanup: release the
recorded rules and uids, then the mounts and their registrations, and save what is left after each
of the two parts. -/

namespace HybridMount

/-- The kernel boot and the mount namespace which the daemon runs in. -/
structure Host where
  bootId : String
  mountNamespace : String
  deriving DecidableEq, Repr

inductive VfsProvider where
  | hm
  | nomount
  deriving DecidableEq, Repr

def VfsProvider.asStr : VfsProvider → String
  | hm => "hm"
  | nomount => "nomount"

/-- The provider which answers a probe, or the reason why none does. -/
abbrev Probe := Except Error VfsProvider

namespace Device

open Traced

variable {τ : Type}

def load (host : Host) : Op τ Ledger := do
  let saved ← Op.query .load Machine.stored
  Prog.ofExcept (ledgerForBoot saved host.bootId host.mountNamespace)

def expectedProvider (saved : Ledger) : Option String :=
  match saved.vfsProvider with
  | some provider => some provider
  | none => if saved.rules ≠ [] ∨ saved.isolatedUids ≠ [] then some VfsProvider.hm.asStr else none

/-- Open the active provider for the owner of `saved`. -/
def openKernel (active : Probe) (saved : Ledger) : Except Error Unit := do
  let provider ← active
  match expectedProvider saved with
  | some expected =>
    if provider.asStr ≠ expected then .error (.msg "VFS provider changed during this boot") else .ok ()
  | none => .ok ()

def available (active : Probe) : Bool := active.toOption.isSome

variable [RuleTable τ]

/-- The isolated uids of a provider whose rules are logged and left alone. -/
def reportUntrackedVfs (active : Probe) : Op τ (List UInt32) :=
  if available active then do
    let _ ← Op.list
    Op.uids
  else return []

end Device

/-- Recorded rules that are still live. Missing records may have been removed by
an earlier cleanup; a record with another payload is refused. -/
def remainingRules (current : List SavedRule) : List SavedRule → Except Error (List SavedRule)
  | [] => .ok []
  | expected :: rest =>
    match current.find? fun r => r.virtualPath == expected.virtualPath && r.uid == expected.uid with
    | some actual =>
      if semanticEqual expected actual then do
        let remaining ← remainingRules current rest
        return expected :: remaining
      else .error (.ownedRuleChanged expected.virtualPath)
    | none => remainingRules current rest

namespace Boot

open Traced

/-- The ledger of a completed cleanup. -/
def cleaned (saved : Ledger) : Ledger :=
  { saved with
    phase := .clean
    error := none
    nonVfsModules := []
    pendingRules := []
    vfsProvider := none
    modules := saved.modules.map fun m => { m with isMounted := false } }

variable {τ : Type}

def releaseMountResources (saved : Ledger) : Op τ Ledger := do
  let registrations ← Prog.ofExcept saved.ownedUnmounts
  Mounts.cleanup saved.mounts
  Op.release registrations
  return { saved with mounts := [], ksuUnmounts := some [] }

/-- The ledger to save goes with the outcome, since a failure keeps it. -/
def releaseMounts (saved : Ledger) : Op τ (Ledger × Except Error Unit) := do
  match ← Prog.attempt (releaseMountResources saved) with
  | .error e => return (saved, .error e)
  | .ok released =>
    let result ← Prog.attempt (do Op.persist released; Op.query .unmark fun _ => ())
    return (released, result)

variable [RuleTable τ]

def releaseVfs (active : Probe) (saved : Ledger) : Op τ Unit := do
  Prog.ofExcept (Device.openKernel active saved)
  let current ← Op.list
  let remaining ← Prog.ofExcept (remainingRules current saved.rules)
  Rules.reconcile remaining []
  Op.removeUids saved.isolatedUids

def cleanupOwned (active : Probe) (saved : Ledger) : Op τ (Ledger × Except Error Unit) :=
  if saved.rules = [] ∧ saved.isolatedUids = [] then releaseMounts saved
  else do
    match ← Prog.attempt (releaseVfs active saved) with
    | .error e => return (saved, .error e)
    | .ok _ =>
      let released := { saved with rules := [], isolatedUids := [] }
      match ← Prog.attempt (Op.persist released) with
      | .error e => return (released, .error e)
      | .ok _ => releaseMounts released

/-- A ledger of no generation may follow a boot before there were ledgers. -/
def reportLegacy (saved : Ledger) : Op τ Unit :=
  if saved.generation = 0 then do
    let _ ← Op.mountinfo
  else return ()

/-- Nothing is recorded: only report what else is there, and refresh the state file. -/
def inspectClean (active : Probe) (saved : Ledger) : Op τ Unit := do
  Prog.ofExcept saved.requireClean
  reportLegacy saved
  let _ ← Device.reportUntrackedVfs active
  Op.query .refresh fun _ => ()

def cleanupRecorded (active : Probe) (saved : Ledger) : Op τ Unit := do
  let _ ← Prog.ofExcept saved.ownedUnmounts
  Mounts.validate saved.mounts
  let marked := { saved with phase := .cleaning }
  Op.persist marked
  match ← cleanupOwned active marked with
  | (left, .error e) => do
    Op.persist { left with error := some e.message }
    Prog.fail e
  | (left, .ok _) => do
    Op.persist (cleaned left)
    Op.query .refresh fun _ => ()

def cleanup (host : Host) (active : Probe) : Op τ Unit := do
  let saved ← Device.load host
  if saved.phase = .clean then inspectClean active saved
  else if saved.phase = .applying ∨ saved.phase = .error then
    Prog.fail (.msg "incomplete runtime operation; full reboot required, refusing to guess ownership")
  else cleanupRecorded active saved

end Boot

end HybridMount
