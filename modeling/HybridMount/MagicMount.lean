import HybridMount.FsTree
import HybridMount.MagicDirectories
import HybridMount.OverlayMount
import HybridMount.Path
import HybridMount.RunReport

/-! Magic Mount: files are bound over what is there, and a directory that cannot be used in place is
rebuilt from the module and from mirrors of the real entries, then moved over the real one. -/

namespace HybridMount.Plan.Magic

/-- What can be seen from the root of the mount namespace, without the staging directory. -/
abbrev Files := FsTree String String String

def linkSteps (text : String) : List (FsTree.Step String) :=
  (Path.components text).map fun component =>
    match component with
    | .rootDir => .root
    | .curDir => .here
    | .parentDir => .up
    | .normal name => .name (String.ofList name)

def stat (live : Files) (path : Names) : Except FsTree.LookupError Files := FsTree.stat linkSteps live path

/-- What a run finds: the files of the modules, the mount points, and its staging directory. -/
structure Setting where
  content : Names → String
  link : Names → String
  isMounted : Names → Bool
  workDir : Names
  umount : Bool

structure MagicMountStats where
  mountedFiles : UInt32 := 0
  mountedSymlinks : UInt32 := 0
  mountedDirs : UInt32 := 0
  ignoredFiles : UInt32 := 0
  activeMounts : List Names := []
  ownedMounts : List Names := []
  mountedModuleIds : List String := []

/-- The visible files, the counts, and the targets given to the rollback and to the list of KernelSU. -/
structure MagicRun where
  files : Files
  stats : MagicMountStats := {}
  registered : List Names := []
  unmountable : List Names := []

def saturatingSucc (n : UInt32) : UInt32 := if n = 0xffffffff then n else n + 1

def lookupText : FsTree.LookupError → String
  | .notFound => "No such file or directory (os error 2)"
  | .notDirectory => "Not a directory (os error 20)"
  | .loop => "Too many levels of symbolic links (os error 40)"

def realEntry : Except FsTree.LookupError (FsTree.Shown String String) → RealEntry
  | .ok (.file _) => .file
  | .ok .directory => .directory
  | .ok (.symlink _) => .symlink
  | .ok .special => .special
  | .error .notFound => .missing
  | .error e => .failed (lookupText e)

def realTree (live : Files) : RealTree where
  symlinkMetadata path := realEntry (FsTree.lstat linkSteps live path)
  pathExists path := (stat live path).isOk

def mountRootFile (path : Names) : Error := .msg ("cannot mount root file \"" ++ showPath path ++ "\"!")

def mountRootSymlink (path : Names) : Error := .msg ("cannot mount root symlink \"" ++ showPath path ++ "\"!")

def dirDeclared (path : Names) : Error :=
  .msg ("dir \"" ++ showPath path ++ "\" is declared as replaced but it is root!")

/-- The staged directory takes its attributes from the real path or else from a module. -/
def tmpfsSkeleton (live : Files) (path : Names) (node : MountNode) : Except Error Unit :=
  match stat live path with
  | .ok _ => .ok ()
  | .error .notFound =>
    if (node.value.modulePathFor .magic).isNone then .error (mountRootFile path) else .ok ()
  | .error e => .error (.msg (lookupText e))

def checkReplace (path : Names) (node : MountNode) : Except Error Unit :=
  if node.value.replaceFor .magic && (node.value.modulePathFor .magic).isNone
    then .error (dirDeclared path) else .ok ()

def recordModuleSuccess (node : MountNode) (stats : MagicMountStats) : MagicMountStats :=
  match node.value.sourceFor .magic with
  | some source => { stats with mountedModuleIds := stats.mountedModuleIds.insert source.moduleId }
  | none => stats

def MagicRun.recordMountTarget (target rollbackTarget : Names) (run : MagicRun) : MagicRun :=
  { run with
    stats := { run.stats with
      activeMounts := run.stats.activeMounts ++ [target]
      ownedMounts := run.stats.ownedMounts ++ [target] }
    registered := run.registered ++ [rollbackTarget] }

/-- A bind that shows up where the staged directory is moved to is not a target of its own. -/
def unmountableTarget (umount hasTmpfs : Bool) (target : Names) : Option Names :=
  if umount && !hasTmpfs then some target else none

def MagicRun.sendUnmountable (target : Option Names) (run : MagicRun) : MagicRun :=
  { run with unmountable := run.unmountable ++ target.toList }

section Mirror

variable (setting : Setting)

mutual

/-- A copy of a real entry in the staged directory; a native mount is bound as a whole. -/
def mountMirror (path : Names) : Files → Option Files
  | .file content => some (.file content)
  | .symlink text => some (.symlink text)
  | .special => none
  | .dir entries =>
    if setting.isMounted path then some (.dir entries) else some (.dir (mirrorEntries path entries))

def mirrorEntries (path : Names) : List (String × Files) → List (String × Files)
  | [] => []
  | (name, entry) :: rest =>
    ((mountMirror (path ++ [name]) entry).map fun made => (name, made)).toList ++ mirrorEntries path rest

end

mutual

/-- The real paths which a copy binds. -/
def mirrorBinds (path : Names) : Files → List Names
  | .file _ => [path]
  | .symlink _ => []
  | .special => []
  | .dir entries => if setting.isMounted path then [path] else entryBinds path entries

def entryBinds (path : Names) : List (String × Files) → List Names
  | [] => []
  | (name, entry) :: rest => mirrorBinds (path ++ [name]) entry ++ entryBinds path rest

end

def MagicRun.recordMirror (path : Names) (entry : Files) (run : MagicRun) : MagicRun :=
  let bound := mirrorBinds setting path entry
  { run with
    stats := { run.stats with ownedMounts := run.stats.ownedMounts ++ bound }
    registered := run.registered ++ bound.map fun target => setting.workDir ++ target }

end Mirror

/-- Handles the node of a path. What is made in a staged directory is given back. -/
abbrev Mounting := Names → Bool → MagicRun → Except Error (MagicRun × Option Files)

/-- A directory while its entries are handled. -/
structure Progress where
  run : MagicRun
  staged : List (String × Files)
  processed : List String

def Progress.stage (progress : Progress) (name : String) (made : Option Files) : Progress :=
  { progress with staged := progress.staged ++ (made.map fun entry => (name, entry)).toList }

section Node

variable (setting : Setting) (node : MountNode)

def mountSymlink : Mounting := fun path hasTmpfs run =>
  match node.value.modulePathFor .magic with
  | none => .error (mountRootSymlink path)
  | some modulePath =>
    if hasTmpfs then
      let stats := { run.stats with mountedSymlinks := saturatingSucc run.stats.mountedSymlinks }
      .ok ({ run with stats := recordModuleSuccess node stats }, some (.symlink (setting.link modulePath)))
    else
      -- Only the root comes here, and the staging directory is there already.
      .error (.msg ("create module symlink " ++ showPath modulePath ++ " -> " ++
        showPath (setting.workDir ++ path) ++
        ": File exists (os error 17)"))

/-- A whiteout is recorded, but not mounted. -/
def MagicRun.ignored (run : MagicRun) : MagicRun :=
  let stats := { run.stats with ignoredFiles := saturatingSucc run.stats.ignoredFiles }
  { run with stats := recordModuleSuccess node stats }

/-- A file has been bound at the target. -/
def MagicRun.boundFile (path target : Names) (hasTmpfs : Bool) (run : MagicRun) : MagicRun :=
  let run := run.sendUnmountable (unmountableTarget setting.umount hasTmpfs target)
  let stats := { run.stats with mountedFiles := saturatingSucc run.stats.mountedFiles }
  { run with stats := recordModuleSuccess node stats }.recordMountTarget path target

def mountRegularFile : Mounting := fun path hasTmpfs run =>
  match node.value.modulePathFor .magic with
  | none => .error (mountRootFile path)
  | some modulePath =>
    if hasTmpfs then
      .ok (run.boundFile setting node path (setting.workDir ++ path) true,
        some (.file (setting.content modulePath)))
    else
      let failed := fun text => Error.msg
        ("mount module file " ++ showPath modulePath ++ " -> " ++ showPath path ++ ": " ++ text)
      match FsTree.resolve linkSteps run.files path with
      | .error e => .error (failed (lookupText e))
      | .ok place =>
        match run.files.find place with
        | none => .error (failed (lookupText .notFound))
        | some (.dir _) => .error (failed (lookupText .notDirectory))
        | some _ =>
          let run := { run with files := run.files.mount place (.file (setting.content modulePath)) }
          .ok (run.boundFile setting node path path false, none)

/-- Does the directory need a tmpfs of its own? -/
def needsOwnTmpfs (live : Files) (path : Names) (hasTmpfs : Bool) : Except Error Bool :=
  if hasTmpfs then .ok false
  else if replaces node then .ok true
  else if childNeedsTmpfs (realTree live) path node then
    if (node.value.modulePathFor .magic).isNone && !(realTree live).pathExists path
      then .error (mountRootFile path) else .ok true
  else .ok false

/-- The children that Magic handles, by name. -/
abbrev Children := List (String × Option Mounting)

def Children.run? (children : Children) (name : String) : Option Mounting :=
  (OrderedMap.get compare name children).join

def mountEntry (children : Children) (path : Names) (hasTmpfs : Bool) (progress : Progress)
    (entry : String × Files) :
    Except Error Progress :=
  match children.run? entry.1 with
  | some doMount =>
    match doMount (path ++ [entry.1]) hasTmpfs progress.run with
    | .ok (run, made) =>
      .ok ({ progress with run, processed := progress.processed ++ [entry.1] }.stage entry.1 made)
    | .error e =>
      .error (.msg ("mount child " ++ showPath path ++ "/" ++ entry.1 ++ " failed: " ++ e.message))
  | none =>
    if hasTmpfs then
      let target := path ++ [entry.1]
      .ok ({ progress with run := progress.run.recordMirror setting target entry.2 }.stage entry.1
        (mountMirror setting target entry.2))
    else .ok progress

/-- The entries of the real directory: those of the tree are mounted, the others mirrored. -/
def mountPath (children : Children) (path : Names) (hasTmpfs : Bool) (run : MagicRun) :
    Except Error Progress :=
  match stat run.files path with
  | .error e => .error (.msg (lookupText e))
  | .ok (.dir entries) => entries.foldlM (mountEntry setting children path hasTmpfs) ⟨run, [], []⟩
  | .ok _ => .error (.msg (lookupText .notDirectory))

def takeOver (children : Children) (path : Names) (hasTmpfs : Bool) (run : MagicRun) :
    Except Error Progress :=
  if (realTree run.files).pathExists path && !node.value.replaceFor .magic
    then mountPath setting children path hasTmpfs run
  else .ok ⟨run, [], []⟩

/-- The entries which the real directory does not have. -/
def mountMissing (path : Names) (hasTmpfs : Bool) (progress : Progress) (child : String × Option Mounting) :
    Except Error Progress :=
  match child.2 with
  | none => .ok progress
  | some doMount =>
    if progress.processed.contains child.1 then .ok progress
    else do
      let (run, made) ← doMount (path ++ [child.1]) hasTmpfs progress.run
      .ok ({ progress with run }.stage child.1 made)

/-- Nothing that starts at the root sees what is moved over the root itself. -/
def moveOver (live : Files) (path : Names) (staged : Files) : Except Error Files :=
  let failed := fun text => Error.msg
    ("moving tmpfs " ++ showPath (setting.workDir ++ path) ++ " -> " ++ showPath path ++ ": " ++ text)
  match FsTree.resolve linkSteps live path with
  | .error e => .error (failed (lookupText e))
  | .ok place =>
    match live.find place with
    | none => .error (failed (lookupText .notFound))
    | some (.dir _) => .ok (if place = [] then live else live.mount place staged)
    | some _ => .error (failed (lookupText .notDirectory))

/-- A staged directory has been moved over the real one. -/
def MagicRun.movedDirectory (path : Names) (live : Files) (run : MagicRun) : MagicRun :=
  let stats := { run.stats with mountedDirs := saturatingSucc run.stats.mountedDirs }
  ({ run with files := live, stats := recordModuleSuccess node stats }.recordMountTarget path
    path).sendUnmountable
    (unmountableTarget setting.umount false path)

/-- The entries of a directory, in its staged copy if it has one. -/
def mountEntries (children : Children) (path : Names) (hasTmpfs : Bool) (run : MagicRun) :
    Except Error Progress := do
  let progress ← takeOver setting node children path hasTmpfs run
  checkReplace path node
  children.foldlM (mountMissing path hasTmpfs) progress

def stageDirectory (children : Children) (path : Names) (run : MagicRun) : Except Error Progress := do
  tmpfsSkeleton run.files path node
  mountEntries setting node children path true run

def mountDirectory (children : Children) : Mounting := fun path hasTmpfs run => do
  let tmpfs ← needsOwnTmpfs node run.files path hasTmpfs
  if hasTmpfs then
    let progress ← stageDirectory setting node children path run
    .ok (progress.run, some (.dir progress.staged))
  else if tmpfs then
    let progress ← stageDirectory setting node children path run
    let live ← moveOver setting progress.run.files path (.dir progress.staged)
    .ok (progress.run.movedDirectory setting node path live, none)
  else
    let progress ← mountEntries setting node children path false run
    .ok (progress.run, none)

end Node

section Tree

variable (setting : Setting)

mutual

def doMount : MountNode → Mounting
  | ⟨value, children⟩ => fun path hasTmpfs run =>
    match MountNode.fileTypeFor ⟨value, children⟩ .magic with
    | none => .error (.msg ("magic node has no selected source: " ++ showPath path))
    | some .symlink => mountSymlink setting ⟨value, children⟩ path hasTmpfs run
    | some .regularFile => mountRegularFile setting ⟨value, children⟩ path hasTmpfs run
    | some .directory => mountDirectory setting ⟨value, children⟩ (childMounts children) path hasTmpfs run
    | some .whiteout => .ok (run.ignored ⟨value, children⟩, none)

def childMounts : List (String × MountNode) → Children
  | [] => []
  | (name, child) :: rest =>
    (name, if MountNode.hasBackend child .magic then some (doMount child) else none) :: childMounts rest

end

/-- The entry point. -/
def magicMount (tree : MountNode) (live : Files) : Except Error MagicRun :=
  if MountNode.hasBackend tree .magic then do
    let (run, _) ← doMount setting tree [] false { files := live }
    .ok { run with stats := { run.stats with activeMounts := Pipeline.sortDedup run.stats.activeMounts } }
  else .ok { files := live }

end Tree

end HybridMount.Plan.Magic
