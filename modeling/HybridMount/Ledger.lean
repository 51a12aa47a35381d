import HybridMount.MountForest
import HybridMount.Path
import HybridMount.SavedRule

/-! The boot-scoped ownership ledger and the errors of the operations on it, and the mounts of one
namespace as `mountinfo` reports them, with the forest which they form: paths are resolved by
components, identities by mount id. The fields which no modelled operation reads are left out; the
error `unfinished` has no counterpart in the source and marks an exhausted loop bound. -/

namespace HybridMount

inductive Error where
  | msg (text : String)
  | vfsProtocol (detail : String)
  | ruleMissing (virtualPath : String) (uid : UInt32)
  | ruleDuplicate (virtualPath : String) (uid : UInt32)
  | ruleObsolete (virtualPath : String) (uid : UInt32)
  | ruleForeign (owned actual : String) (uid : UInt32)
  | ruleRolledBack (cause : Error)
  | ruleRollbackIncomplete (cause recovery : Error)
  | uidMissing (uid : UInt32)
  | hotRolledBack (cause : Error)
  | hotRollbackIncomplete (cause : Error)
  | mountOwnership (target detail : String)
  | bootRuleUnplanned (target : String)
  | bootRuleChanged (target : String)
  | ownedRuleChanged (virtualPath : String)
  | unfinished
  deriving DecidableEq, Repr

namespace Error

def message : Error → String
  | msg text => text
  | vfsProtocol detail => "VFS protocol error: " ++ detail
  | ruleMissing path uid =>
    "VFS protocol error: owned rule missing or changed: " ++ path ++ " (uid " ++ toString uid.toNat ++ ")"
  | ruleDuplicate path uid =>
    "VFS protocol error: duplicate owned rule: " ++ path ++ " (uid " ++ toString uid.toNat ++ ")"
  | ruleObsolete path uid =>
    "VFS protocol error: obsolete rule remains: " ++ path ++ " (uid " ++ toString uid.toNat ++ ")"
  | ruleForeign owned actual uid =>
    "VFS protocol error: foreign rule conflicts with " ++ owned ++ ": " ++ actual ++
      " (uid " ++ toString uid.toNat ++ ")"
  | ruleRolledBack cause =>
    "VFS protocol error: owned rule transaction failed: " ++ cause.message ++ "; rollback clean"
  | ruleRollbackIncomplete cause recovery =>
    "VFS protocol error: owned rule transaction failed: " ++ cause.message ++
      "; rollback incomplete: " ++ recovery.message
  | uidMissing uid => "VFS isolation UID missing: " ++ toString uid.toNat
  | hotRolledBack cause => "hot VFS transaction failed: " ++ cause.message ++ "; rollback clean"
  | hotRollbackIncomplete cause =>
    "hot VFS transaction failed: " ++ cause.message ++ "; rollback incomplete"
  | mountOwnership target detail => "verify runtime mount ownership for " ++ target ++ ": " ++ detail
  | bootRuleUnplanned target => "unplanned active VFS target: " ++ target
  | bootRuleChanged target => "VFS rule changed before boot ownership commit: " ++ target
  | ownedRuleChanged path => "owned VFS rule changed externally: " ++ path
  | unfinished => "loop bound exceeded"

end Error

structure OwnedMount where
  target : String
  id : Int
  baselineIds : List Int
  device : String
  fsType : String
  source : Option String
  deriving DecidableEq, Repr

structure AppModule where
  id : String
  isMounted : Bool
  deriving DecidableEq, Repr

inductive Phase where
  | clean
  | applying
  | ready
  | syncing
  | cleaning
  | error
  | other (text : String)
  deriving DecidableEq, Repr

def Phase.text : Phase → String
  | clean => "clean"
  | applying => "applying"
  | ready => "ready"
  | syncing => "syncing"
  | cleaning => "cleaning"
  | error => "error"
  | other text => text

structure Ledger where
  version : UInt32
  bootId : String
  mountNamespace : String
  generation : Nat
  phase : Phase
  vfsProvider : Option String
  rules : List SavedRule
  pendingRules : List SavedRule
  mounts : List OwnedMount
  ksuUnmounts : Option (List String)
  nonVfsModules : List String
  modules : List AppModule
  isolatedUids : List UInt32
  error : Option String
  deriving DecidableEq, Repr

namespace Ledger

def requireClean (saved : Ledger) : Except Error Unit :=
  if saved.phase ≠ .clean ∨ saved.pendingRules ≠ [] ∨ saved.rules ≠ [] ∨ saved.mounts ≠ [] ∨
      saved.isolatedUids ≠ [] ∨ saved.ksuUnmounts.any (fun paths => !paths.isEmpty) then
    .error (.msg "runtime resources already exist or need recovery; run soft-reboot cleanup before rebuilding")
  else .ok ()

def requireReady (saved : Ledger) : Except Error Unit :=
  if saved.phase ≠ .ready then
    .error (.msg ("runtime is " ++ saved.phase.text ++ "; complete recovery before hot operations"))
  else .ok ()

def ownedUnmounts (saved : Ledger) : Except Error (List String) :=
  match saved.ksuUnmounts with
  | some paths => .ok paths
  | none =>
    if saved.mounts = [] then .ok []
    else .error (.msg "legacy runtime has no KernelSU registration ownership; full reboot required")

def fresh (bootId mountNamespace : String) : Ledger where
  version := 1
  bootId := bootId
  mountNamespace := mountNamespace
  generation := 0
  phase := .clean
  vfsProvider := none
  rules := []
  pendingRules := []
  mounts := []
  ksuUnmounts := some []
  nonVfsModules := []
  modules := []
  isolatedUids := []
  error := none

end Ledger

def ledgerForBoot (saved : Option Ledger) (bootId mountNamespace : String) : Except Error Ledger :=
  match saved with
  | some saved =>
    if saved.bootId = bootId then
      if saved.mountNamespace ≠ mountNamespace then
        .error (.msg "runtime mount namespace changed; refusing to reuse mount identities")
      else if saved.version ≠ 1 then .error (.msg "unsupported runtime ledger version")
      else
        match saved.phase with
        | .other _ => .error (.msg "invalid runtime lifecycle phase")
        | _ => .ok saved
    else .ok (.fresh bootId mountNamespace)
  | none => .ok (.fresh bootId mountNamespace)

/-- The members of an ordered set of the source. -/
def sortedSet (xs : List UInt32) : List UInt32 := xs.dedup.insertionSort (· ≤ ·)

@[simp] theorem mem_sortedSet {xs : List UInt32} {x : UInt32} : x ∈ sortedSet xs ↔ x ∈ xs := by
  simp only [sortedSet, List.mem_insertionSort, List.mem_dedup]

theorem ledgerForBoot_same {saved loaded : Ledger} {bootId ns : String} (hb : saved.bootId = bootId)
    (h : ledgerForBoot (some saved) bootId ns = .ok loaded) : loaded = saved := by
  simp only [ledgerForBoot, hb, if_true] at h
  split at h
  · cases h
  · split at h
    · cases h
    · cases hp : saved.phase <;> simp only [hp] at h <;> cases h
      all_goals rfl

structure MountEntry where
  mntId : Int
  parentId : Int
  mountPoint : String
  majmin : String
  fsType : String
  mountSource : Option String
  deriving DecidableEq, Repr

/-- The ownership record of a live mount before its baselines are known. -/
def MountEntry.identity (entry : MountEntry) : OwnedMount where
  target := entry.mountPoint
  id := entry.mntId
  baselineIds := []
  device := entry.majmin
  fsType := entry.fsType
  source := entry.mountSource

def identities (entries : List MountEntry) : List OwnedMount := entries.map MountEntry.identity

namespace MountTable

def shape : Forest.Shape MountEntry Int Component where
  id := MountEntry.mntId
  parent := MountEntry.parentId
  point entry := Path.components entry.mountPoint

/-- The id of the mount on which a lookup of `path` ends. -/
def visibleId (table : List MountEntry) (root : Int) (path : String) : Int :=
  Forest.visible shape table root (Path.components path)

def detach (table : List MountEntry) (root : Int) (path : String) : List MountEntry :=
  Forest.detach shape table (visibleId table root path)

end MountTable

end HybridMount
