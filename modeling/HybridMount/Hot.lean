import HybridMount.Boot
import HybridMount.Transaction

/-! Loading, reloading and unloading one module while the system runs. -/

namespace HybridMount

inductive HotAction where
  | load
  | reload
  | unload
  deriving DecidableEq, Repr

namespace Hot

open Traced

/-- What the configuration and the installed module make of a request. -/
structure Request where
  plan : MountPlan
  isolateUids : List UInt32
  updatedModule : Option AppModule

def ownedBy (saved : Ledger) (moduleId : String) : List SavedRule :=
  saved.rules.filter fun r => r.moduleId == moduleId

def checkOwnership (saved : Ledger) (moduleId : String) : Except Error Unit :=
  if saved.nonVfsModules.contains moduleId then
    .error (.msg "module has active Magic/Overlay ownership; reboot required")
  else .ok ()

def checkAction (action : HotAction) (before : List SavedRule) : Except Error Unit :=
  if action = .load ∧ before ≠ [] then .error (.msg "module is already active; use reload")
  else if action ≠ .load ∧ before = [] then .error (.msg "module has no owned active VFS rules")
  else .ok ()

/-- An unload asks for nothing, so it does not read the configuration. -/
def requested (action : HotAction) (request : Except Error Request) : Except Error Request :=
  if action = .unload then .ok ⟨⟨[], [], [], []⟩, [], none⟩ else request

/-- The module rows of a committed operation. -/
def refreshed (saved : Ledger) (moduleId : String) (updated : Option AppModule) : Ledger :=
  let modules : List AppModule :=
    match updated with
    | some row => (saved.modules.filter fun m => m.id != moduleId) ++ [row]
    | none => saved.modules
  { saved with
    generation := saved.generation + 1
    modules := modules.map fun m =>
      if saved.nonVfsModules.contains m.id then m
      else { m with isMounted := saved.rules.any fun r => r.moduleId == m.id } }

variable {τ : Type} [RuleTable τ]

def apply (host : Host) (active : Probe) (guard : Except Error Unit) (action : HotAction) (moduleId : String)
    (request : Except Error Request) : Op τ Nat := do
  let saved ← Device.load host
  Prog.ofExcept saved.requireReady
  Prog.ofExcept guard
  Prog.ofExcept (Device.openKernel active saved)
  let provider ← Prog.ofExcept active
  let saved := { saved with vfsProvider := some provider.asStr }
  Rules.verifyOwned saved.rules
  Mounts.validate saved.mounts
  Prog.ofExcept (checkOwnership saved moduleId)
  let before := ownedBy saved moduleId
  Prog.ofExcept (checkAction action before)
  let wanted ← Prog.ofExcept (requested action request)
  let after := plannedRules wanted.plan
  Rules.preflight before after
  let committed ← Transaction.reconcile saved before after wanted.isolateUids
  let updated := refreshed committed moduleId wanted.updatedModule
  Op.persist { updated with phase := .syncing }
  Op.query .refresh fun _ => ()
  Op.persist { updated with phase := .ready }
  return updated.generation

end Hot

end HybridMount
