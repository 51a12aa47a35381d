import HybridMount.HotPlan
import HybridMount.Mounted

/-! The discovery of the partition roots from one snapshot of the mount namespace. -/

namespace HybridMount.Discovery

open Plan (Names PartitionDiagnostic PartitionLayout)

structure PathEvidence where
  canonical : Names
  dev : Nat
  ino : Nat
  visibleMountId : Int
  isDir : Bool
  deriving DecidableEq, Repr

/-- What the layout reads of a mount. -/
structure Mount where
  root : Names
  mountPoint : Names
  mntId : Int
  majmin : String
  deriving DecidableEq, Repr

/-- Missing paths are absent; failed probes are never treated as missing. -/
structure LayoutSnapshot where
  mounts : List Mount
  paths : Names → Option PathEvidence
  pathErrors : Names → Option String

/-- The mounts below a root, by their path from it. -/
abbrev Subtree := List (Names × (Nat × Nat × String × Names))

def visibleMount (snapshot : LayoutSnapshot) (path : PathEvidence) : Option Mount :=
  snapshot.mounts.find? fun m => m.mntId = path.visibleMountId && m.mountPoint.isPrefixOf path.canonical

def inspectChild (snapshot : LayoutSnapshot) (path : PathEvidence) (subtree : Subtree) (mount : Mount) :
    Except String Subtree :=
  match path.canonical.isPrefixOf? mount.mountPoint with
  | none => .ok subtree
  | some [] => .ok subtree
  | some relative =>
    match snapshot.pathErrors mount.mountPoint with
    | some error => .error ("cannot inspect child mount " ++ showPath mount.mountPoint ++ ": " ++ error)
    | none =>
      match snapshot.paths mount.mountPoint with
      | none => .error ("missing child mount identity: " ++ showPath mount.mountPoint)
      | some probe =>
        .ok (if probe.visibleMountId ≠ mount.mntId then subtree
          else OrderedMap.insert compare relative (probe.dev, probe.ino, mount.majmin, mount.root) subtree)

def identity (snapshot : LayoutSnapshot) (path : PathEvidence) : Except String PartitionIdentity := do
  let subtree ← snapshot.mounts.foldlM (inspectChild snapshot path) []
  .ok ⟨path.canonical, path.dev, path.ino, subtree⟩

def top (name : String) : Names := [name]

def nested (name : String) : Names := ["system", name]

/-- What is wrong with an evidence for a candidate. -/
def probeError (snapshot : LayoutSnapshot) (name : String) (system : Names) (probe : PathEvidence) :
    Option String :=
  if probe.isDir = false then some "partition root is not a directory"
  else if probe.canonical ≠ top name ∧ probe.canonical ≠ system ++ [name] then
    some ("partition alias resolves outside allowed roots: " ++ showPath probe.canonical)
  else if (visibleMount snapshot probe).isNone then some "visible mount identity is not in the snapshot"
  else none

/-- The path of an evidence inside the file system that a mount shows. -/
def fsPath (mount : Mount) (path : PathEvidence) : Names :=
  mount.root ++ path.canonical.drop mount.mountPoint.length

/-- Both candidates exist. -/
def chooseAlias (snapshot : LayoutSnapshot) (a b : PathEvidence) : Except String PathEvidence :=
  if (a.dev, a.ino) ≠ (b.dev, b.ino) then .error "candidate paths expose different directory trees"
  else if a.canonical = b.canonical then .ok a
  else
    match visibleMount snapshot a, visibleMount snapshot b with
    | some am, some bm =>
      let differ := "bind aliases have different filesystem roots or child mount views"
      if am.majmin ≠ bm.majmin ∨ fsPath am a ≠ fsPath bm b then .error differ
      else do
        let left ← identity snapshot a
        let right ← identity snapshot b
        if left.subtree ≠ right.subtree then .error differ
          else .ok (if am.mountPoint = a.canonical then a else b)
    | _, _ => .error "missing root mount"

def chooseRoot (snapshot : LayoutSnapshot) (name : String) (system : Names) : Except String PathEvidence :=
  let a := snapshot.paths (top name)
  let b := snapshot.paths (nested name)
  match [top name, nested name].findSome? fun candidate =>
    (snapshot.pathErrors candidate).map fun error => showPath candidate ++ ": " ++ error with
  | some error => .error error
  | none =>
    match [a, b].findSome? fun probe => probe.bind (probeError snapshot name system) with
    | some error => .error error
    | none =>
      match a, b with
      | some a, some b => chooseAlias snapshot a b
      | none, some b => .ok b
      | some a, none =>
        if (visibleMount snapshot a).any fun m => m.mountPoint = a.canonical then .ok a
        else .error "top-level directory has no exact visible partition mount"
      | none, none => .error "neither partition root exists"

section Record

variable (name code : String) (record : LayoutRecord)

def accept (id : PartitionIdentity) : LayoutRecord where
  layout := { record.layout with roots := OrderedMap.insert compare name id.canonical record.layout.roots }
  identities := OrderedMap.insert compare name id record.identities

def reject (reason : String) : LayoutRecord :=
  { record with layout := { record.layout with
      errors := OrderedMap.insert compare name ⟨name, code, reason, []⟩ record.layout.errors } }

def settle (chosen : Except String PartitionIdentity) : LayoutRecord :=
  match chosen with
  | .ok id => accept name record id
  | .error reason => reject name code record reason

end Record

section Snapshot

variable (snapshot : LayoutSnapshot)

def systemRoot : Names := ((snapshot.paths ["system"]).map PathEvidence.canonical).getD ["system"]

def systemIdentity : Except String PartitionIdentity :=
  match snapshot.paths ["system"] with
  | some probe => if probe.isDir then identity snapshot probe else .error "system root is not a directory"
  | none => .error ((snapshot.pathErrors ["system"]).getD "system root is missing")

def discoverSystem : LayoutRecord :=
  let record : LayoutRecord := ⟨⟨[("system", systemRoot snapshot)], [], []⟩, []⟩
  match systemIdentity snapshot with
  | .ok id => { record with identities := [("system", id)] }
  | .error reason => reject "system" "layout_unavailable" record reason

def managedCode (name : String) : String :=
  if [top name, nested name].all fun path => (snapshot.paths path).isNone && (snapshot.pathErrors path).isNone
    then "partition_missing"
  else "layout_unavailable"

def chooseManaged (name : String) : Except String PartitionIdentity := do
  let root ← chooseRoot snapshot name (systemRoot snapshot)
  identity snapshot root

def discoverManaged (record : LayoutRecord) (name : String) : LayoutRecord :=
  settle name (managedCode snapshot name) record (chooseManaged snapshot name)

def discoverExtra (record : LayoutRecord) (name : String) : LayoutRecord :=
  match snapshot.paths (top name) with
  | some probe => settle name "layout_unavailable" record (identity snapshot probe)
  | none => record

def visiblePoints : List Names :=
  ((snapshot.mounts.filter fun m => (snapshot.paths m.mountPoint).any fun p =>
    p.visibleMountId = m.mntId).foldl
    (fun points m => OrderedMap.insert compare m.mountPoint () points) []).map Prod.fst

def discoverLayout (managed extras : List String) : LayoutRecord :=
  let record := extras.foldl (discoverExtra snapshot)
    (managed.foldl (discoverManaged snapshot) (discoverSystem snapshot))
  { record with layout := { record.layout with mountPoints := visiblePoints snapshot } }

end Snapshot

end HybridMount.Discovery
