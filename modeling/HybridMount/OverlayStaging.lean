import HybridMount.MountReport

/-! The staging area of the overlays: it is written from the shared tree, the plan is pointed to it, and
single entries are copied out of it again. -/

namespace HybridMount.Plan

inductive SpecialKind where
  | char
  | block
  | fifo
  | socket
  deriving DecidableEq, Repr

inductive FsEntry where
  | directory (marked : Bool)
  | file (content : String)
  | symlink (target : String)
  | special (kind : SpecialKind) (device : Nat)
  deriving DecidableEq, Repr

def FsEntry.isDirectory : FsEntry → Bool
  | .directory _ => true
  | .file _ | .symlink _ | .special _ _ => false

/-- What lies at and below one directory; only directories have children. -/
abbrev FileTree := Trie String FsEntry

/-- The files of the modules are only read: what stands at a path, and what a file there holds. -/
structure ModuleFiles where
  metadata : Names → Option FsEntry
  contents : Names → Option String

inductive StagingError where
  | missing (path : Names)
  | alreadyExists (path : Names)
  | notDirectory (path : Names)
  | notFile (path : Names)
  | notLink (path : Names)
  | unknownType (path : Names)
  | unsupportedEntry
  | outsideModules (source : Names)
  deriving DecidableEq, Repr

section Write

variable (tree : FileTree) (path : Names)

/-- Links are not followed on the way. -/
def createDirAll : Except StagingError FileTree :=
  if path.inits.any fun above => (tree.valueAt compare above).any fun entry => !entry.isDirectory
    then .error (.notDirectory path)
  else .ok (tree.grow compare (.directory false) id (path.map fun name => (name, id)))

/-- The directories on the way are there already. -/
def writeEntry (entry : FsEntry) : FileTree :=
  tree.grow compare (.directory false) (fun _ => entry) (path.map fun name => (name, id))

def createEntry (entry : FsEntry) : Except StagingError FileTree :=
  if (tree.valueAt compare path).isSome then .error (.alreadyExists path)
    else .ok (writeEntry tree path entry)

def copyFile (content : String) : Except StagingError FileTree :=
  match tree.valueAt compare path with
  | none | some (.file _) => .ok (writeEntry tree path (.file content))
  | some (.directory _) | some (.symlink _) | some (.special _ _) => .error (.notFile path)

def setOverlayOpaque : FileTree := writeEntry tree path (.directory true)

/-- A node of the same type and device; there is no other way to make a directory or a link. -/
def makeDeviceNode : FsEntry → Except StagingError FileTree
  | .special kind device => createEntry tree path (.special kind device)
  | .file _ => createEntry tree path (.file "")
  | .directory _ | .symlink _ => .error (.unknownType path)

end Write

section Stage

variable (files : ModuleFiles)

/-- One source of the node that is visited. -/
def stageSource (tree : FileTree) (source : MountSource) : Except StagingError FileTree := do
  let staged := source.moduleId :: source.relative
  match files.metadata source.sourcePath with
  | none => .error (.missing source.sourcePath)
  | some metadata =>
    let parents ← if source.fileType ≠ .directory then createDirAll tree staged.dropLast else .ok tree
    match source.fileType with
    | .directory =>
      let created ← createDirAll parents staged
      .ok (if source.replace then setOverlayOpaque created staged else created)
    | .regularFile =>
      match files.contents source.sourcePath with
      | none => .error (.notFile source.sourcePath)
      | some content => copyFile parents staged content
    | .symlink =>
      match metadata with
      | .symlink target => createEntry parents staged (.symlink target)
      | .directory _ | .file _ | .special _ _ => .error (.notLink source.sourcePath)
    | .whiteout =>
      -- A directory which is to be removed is a whiteout all the same.
      if metadata.isDirectory then createEntry parents staged (.special .char 0)
        else makeDeviceNode parents staged metadata

def stageOverlayTree (tree : MountNode) (destination : FileTree) : Except StagingError FileTree :=
  let emptied := (collectBackendIds tree .overlay).foldl
    (fun destination id => destination.removeChild id) destination
  (stagedSources tree).foldlM (stageSource files) emptied

end Stage

/-- The last of the items with the greatest key. -/
def maxByKey {α : Type} (key : α → Nat) : List α → Option α
  | [] => none
  | x :: rest => some (rest.foldl (fun best y => if key best ≤ key y then y else best) x)

/-- The path in the staging area of a path in a module. -/
def stagedOverlayPath (source : Names) (modules : List ModuleRecord) : Except StagingError Names :=
  match maxByKey (fun module => module.sourcePath.length)
    (modules.filter fun module => module.sourcePath.isPrefixOf source) with
  | none => .error (.outsideModules source)
  | some module => .ok (module.id :: source.drop module.sourcePath.length)

/-- All paths of the plan that are pointed to the staging area. -/
def preparedSources (plan : MountPlan) (execution : OverlayExecutionPlan) : List Names :=
  plan.overlayOps.flatMap OverlayOperation.lowerdirs ++ plan.overlayFiles.flatMap Prod.snd ++
    execution.shallow.values.flatMap fun sources => sources.map ShallowOverlaySource.source

section Copy

/-- The name of a replace marker, whatever the case of its letters. -/
def isReplaceMarker (name : String) : Bool := name.toList.map Char.toLower = ".replace".toList

mutual

/-- What stands at a path that was free, after an entry was copied there. -/
def copyTreeEntry : FileTree → Except StagingError FileTree
  | ⟨entry, children⟩ =>
    match entry with
    | .directory _ => do
      let copied ← copyChildren children
      .ok ⟨.directory (children.any fun child => isReplaceMarker child.1), copied⟩
    | .special .socket _ => .error .unsupportedEntry
    | .file content => .ok ⟨.file content, []⟩
    | .symlink target => .ok ⟨.symlink target, []⟩
    | .special kind device => .ok ⟨.special kind device, []⟩
termination_by structural tree => tree

def copyChildren : List (String × FileTree) → Except StagingError (List (String × FileTree))
  | [] => .ok []
  | (name, child) :: rest =>
    if isReplaceMarker name then copyChildren rest
    else do
      let copied ← copyTreeEntry child
      let others ← copyChildren rest
      .ok ((name, copied) :: others)
termination_by structural children => children

end

end Copy

end HybridMount.Plan
