import HybridMount.OverlayStaging
import HybridMount.Text

/-! The read-only scan of the installed modules. Directories are read in any order; links are
never followed, except to see whether something lies behind a marker. -/

namespace HybridMount.Scanner

open Plan

def MODULE_PROP_FILE_NAME : String := "module.prop"

def REPLACE_DIR_FILE_NAME : String := ".replace"

def REMOVE_DIR_FILE_NAME : String := ".remove"

def isMarker (name : String) : Bool := name = REPLACE_DIR_FILE_NAME || name = REMOVE_DIR_FILE_NAME

def child (name : String) (dir : FileTree) : Option FileTree := OrderedMap.get compare name dir.children

def classifyFileType : FsEntry → Option NodeFileType
  | .special kind device => if kind = .char ∧ device = 0 then some .whiteout else none
  | .file _ => some .regularFile
  | .directory _ => some .directory
  | .symlink _ => some .symlink

def readLink : FsEntry → Option String
  | .symlink target => some target
  | .directory _ | .file _ | .special _ _ => none

/-- Is the directory removed, and what is wrong with its marker? -/
def removeMarker (dir : FileTree) : Bool × Option String :=
  match (child REMOVE_DIR_FILE_NAME dir).map Trie.value with
  | some (.file _) => (true, none)
  | some _ => (false, some ".remove must be a regular marker file, not a symlink or directory")
  | none => (false, none)

/-- `resolves` tells behind which links something lies. -/
def pathExists (resolves : Names → Bool) (path : Names) (entry : Option FsEntry) : Bool :=
  match entry with
  | none => false
  | some (.symlink _) => resolves path
  | some _ => true

def isReplaceDir (resolves : Names → Bool) (path : Names) (dir : FileTree) : Bool :=
  dir.value = .directory true ||
    pathExists resolves (path ++ [REPLACE_DIR_FILE_NAME]) ((child REPLACE_DIR_FILE_NAME dir).map Trie.value)

/-- The entry for what stands at a path, unless it is of no supported type. -/
def scanEntry (resolves : Names → Bool) (relative : Names) (node : FileTree) : Option ModuleEntry := do
  let fileType ← classifyFileType node.value
  let marker := if fileType = .directory then removeMarker node else (false, none)
  return {
    relative
    fileType := if marker.1 then .whiteout else fileType
    replace := fileType = .directory && !marker.1 && isReplaceDir resolves relative node
    linkTarget := if fileType = .symlink then readLink node.value else none
    directoryRemove := marker.1
    markerError := marker.2 }

/-- Does the walk go on below a node? -/
def isOpen (node : FileTree) : Bool := node.value.isDirectory && !(removeMarker node).1

/-- An entry before what the walk finds below it; without the entry nothing is looked for there. -/
def withBelow (entry : Option ModuleEntry) (below : List ModuleEntry) : List ModuleEntry :=
  match entry with
  | none => []
  | some entry => entry :: below

mutual

/-- The entries below the directory at a path. -/
def walk (resolves : Names → Bool) (path : Names) : FileTree → List ModuleEntry
  | ⟨_, children⟩ => walkAll resolves path children
termination_by structural t => t

def walkAll (resolves : Names → Bool) (path : Names) : List (String × FileTree) → List ModuleEntry
  | [] => []
  | (name, node) :: rest =>
    let found :=
      if isMarker name then []
      else
        withBelow (scanEntry resolves (path ++ [name]) node)
          (if isOpen node then walk resolves (path ++ [name]) node else [])
    found ++ walkAll resolves path rest
termination_by structural children => children

end

def collectPartitionEntries (resolves : Names → Bool) (partition : String) (root : FileTree) :
    List ModuleEntry :=
  walk resolves [partition] root

/-- A single name, as the names in a directory and the names of all partitions are. -/
def PlainName (name : String) : Prop := name ≠ "" ∧ name ≠ "." ∧ name ≠ ".." ∧ '/' ∉ name.toList

instance (name : String) : Decidable (PlainName name) := inferInstanceAs (Decidable (_ ∧ _))

/-- The configuration refuses every other name for an extra partition. -/
abbrev PartitionName := { name : String // PlainName name }

/-- The scanned partitions in their order. -/
def partitionNames (extraPartitions : List PartitionName) : List String :=
  ("system" :: extraPartitions.map Subtype.val).dedup.insertionSort fun left right => compare left right ≠ .gt

/-- Only a real directory is a scan root. -/
def partitionRoot (dir : FileTree) (partition : String) : Option FileTree :=
  (child partition dir).filter fun root => root.value.isDirectory

/-- What one partition contributes. Its root has an entry only where a marker says so. -/
def partitionEntries (resolves : Names → Bool) (dir : FileTree) (partition : String) : List ModuleEntry :=
  match partitionRoot dir partition with
  | none => []
  | some root =>
    let marker := removeMarker root
    let own : ModuleEntry := {
      relative := [partition]
      fileType := if marker.1 then .whiteout else .directory
      replace := !marker.1 && isReplaceDir resolves [partition] root
      directoryRemove := marker.1
      markerError := marker.2 }
    (if marker.1 || marker.2.isSome || (partition ≠ "system" && isReplaceDir resolves [partition] root)
      then [own] else []) ++
      (if marker.1 then [] else collectPartitionEntries resolves partition root)

def moduleEntries (resolves : Names → Bool) (dir : FileTree) (extraPartitions : List PartitionName) :
    List ModuleEntry :=
  ((partitionNames extraPartitions).flatMap (partitionEntries resolves dir)).insertionSort fun left right =>
    compare (text left.relative) (text right.relative) ≠ .gt

def propLine (line : List Char) : Option (String × String) := do
  let line := Text.trim line
  if line = [] ∨ line.head? = some '#' then none
  else
    let (key, value) ← Text.splitOnce ['='] line
    return (String.ofList (Text.trim key), String.ofList (Text.trim value))

/-- The last line with a key gives its value. -/
def parseProp (content : String) : List (String × String) :=
  ((Text.lines content.toList).filterMap propLine).foldl
    (fun prop line => OrderedMap.insert compare line.1 line.2 prop) []

/-- A module record with the descriptive fields of its properties. -/
structure InstalledModule extends ModuleRecord where
  name : String
  version : String
  author : String
  description : String
  deriving DecidableEq, Repr

inductive ScanError where
  | scanReadDir (path : Names)
  | duplicateModuleId (moduleId : String) (first second : Names)
  deriving DecidableEq, Repr

/-- A regular property file; it is read as text. -/
def propContent (dir : FileTree) : Option String :=
  match (child MODULE_PROP_FILE_NAME dir).map Trie.value with
  | some (.file content) => some content
  | _ => none

def flagged (resolves : Names → Bool) (dir : FileTree) (name : String) : Bool :=
  pathExists resolves [name] ((child name dir).map Trie.value)

/-- The record of one directory of the module directory, unless it is skipped. -/
def readModule (resolves : Names → Bool) (moduleDir : Names) (extraPartitions : List PartitionName)
    (dirName : String)
    (dir : FileTree) : Option InstalledModule := do
  guard dir.value.isDirectory
  let prop := parseProp (← propContent dir)
  let id ← OrderedMap.get compare "id" prop
  let name ← OrderedMap.get compare "name" prop
  let version ← OrderedMap.get compare "version" prop
  let author ← OrderedMap.get compare "author" prop
  let description ← OrderedMap.get compare "description" prop
  guard (validModuleId id)
  guard (dirName = id)
  return {
    id
    name
    version
    author
    description
    disabled := flagged resolves dir "disable" || flagged resolves dir "remove"
    skipMount := flagged resolves dir "skip_mount"
    hasMountFiles := (partitionNames extraPartitions).any fun partition =>
      (partitionRoot dir partition).isSome
    sourcePath := moduleDir ++ [dirName]
    entries := moduleEntries resolves dir extraPartitions }

/-- Behind which links of one directory something lies. -/
def below (resolves : Names → Bool) (name : String) : Names → Bool := fun path => resolves (name :: path)

def addModule (resolves : Names → Bool) (moduleDir : Names) (extraPartitions : List PartitionName)
    (modules : List InstalledModule)
    (entry : String × FileTree) : Except ScanError (List InstalledModule) :=
  match readModule (below resolves entry.1) moduleDir extraPartitions entry.1 entry.2 with
  | none => .ok modules
  | some module =>
    match modules.find? fun m => m.id = module.id with
    | some first => .error (.duplicateModuleId module.id first.sourcePath module.sourcePath)
    | none => .ok (modules ++ [module])

/-- The modules by their ids. -/
def listModules (resolves : Names → Bool) (moduleDir : Names) (tree : FileTree)
    (extraPartitions : List PartitionName) :
    Except ScanError (List InstalledModule) := do
  if !tree.value.isDirectory then .error (.scanReadDir moduleDir)
  else
    let modules ← tree.children.foldlM (addModule resolves moduleDir extraPartitions) []
    return modules.insertionSort fun left right => compare left.id right.id ≠ .gt

end HybridMount.Scanner
