import Mathlib.Data.Char
import Mathlib.Data.List.Lex
import HybridMount.Ledger
import HybridMount.Mounted
import HybridMount.MountTree
import HybridMount.Overlaid
import HybridMount.Traced

/-! How an overlay is mounted upon a live directory. Where the directory has child mounts, the
whole view is prepared in a private staging directory, which lies outside of every target, and
published by one recursive bind. -/

namespace HybridMount

open Mounted Overlaid Plan Traced

inductive Entry where
  | directory
  | regular (content : String)
  | symlink (link : String)
  | device (number : String)
  deriving DecidableEq, Repr

abbrev LiveTree := Mount String Entry

abbrev Layer := Names → Option (Held Entry)

/-- The root of a module as a layer; what it holds lies in directories of it. -/
structure ModuleRoot where
  entry : Layer
  closed : Closed .directory entry

def ModuleRoot.at (root : ModuleRoot) (relative : Names) : ModuleRoot where
  entry q := root.entry (relative ++ q)
  closed := root.closed.append relative

inductive MountEffect where
  | target (path : Names)
  | staging (path : Names)
  deriving DecidableEq, Repr

/-- The mounts of the process, the staging directories handed out so far, and which of the
system calls to come fail. -/
structure MountNamespace where
  live : LiveTree
  staged : Nat
  failing : List Bool

abbrev Mounting := Prog MountNamespace MountEffect Error

def pathText (path : Names) : List Char := path.flatMap fun name => '/' :: name.toList

def showPath (path : Names) : String := String.ofList (pathText path)

def syscall (failure : String) : Mounting Unit := fun s =>
  match s.failing with
  | true :: rest => ⟨.error (.msg failure), { s with failing := rest }, []⟩
  | _ => ⟨.ok (), { s with failing := s.failing.tail }, []⟩

def onEffect (effect : MountEffect) : Mounting Unit := Prog.update id fun _ _ => effect

def attachLive (path : Names) (tree : LiveTree) : Mounting Unit := fun s =>
  ⟨.ok (), { s with live := s.live.graft path tree }, []⟩

def createRandomDir (stagingRoot : Names) : Mounting Names := do
  syscall "create staging directory"
  fun s => ⟨.ok (stagingRoot ++ [toString s.staged]), { s with staged := s.staged + 1 }, []⟩

/-- Is a mount point strictly below a directory? -/
def isBelow (root point : Names) : Bool := root.isPrefixOf point && point != root

/-- Mount points are sorted as texts, so that a directory comes before everything below it. -/
def childMountPoints (live : LiveTree) (root : Names) : List Names :=
  ((live.points.filter (isBelow root)).insertionSort fun left right => pathText left ≤ pathText right).dedup

def collectChildMountPoints (root : Names) : Mounting (List Names) := do
  syscall "read mountinfo"
  let s ← Prog.get
  return childMountPoints s.live root

def maxLayers : Nat := 64

def mountOverlayCore (lowerDirs : List Layer) (dest : Names) : Mounting (Names → Option Entry) := do
  syscall ("legacy overlay mount " ++ showPath dest)
  return stack .directory lowerDirs

/-- Collapse the low-priority tail until one mount can hold the result. -/
def collapseStagingLayers {α : Type} (createStagingLayer : List α → Mounting α) (layers : List α) :
    Mounting (List α) :=
  if layers.length ≤ maxLayers then return layers
  else do
    let staged ← createStagingLayer (layers.drop (layers.length - (maxLayers - 1)))
    collapseStagingLayers createStagingLayer (layers.take (layers.length - (maxLayers - 1)) ++ [staged])
termination_by layers.length
decreasing_by
  simp only [maxLayers, List.length_append, List.length_take, List.length_singleton] at *
  omega

def stageLayers (stagingRoot : Names) (layers : List Layer) : Mounting Layer := do
  let stagingDir ← createRandomDir stagingRoot
  let shown ← mountOverlayCore layers stagingDir
  onEffect (.staging stagingDir)
  return lower shown

def mountOverlayfs (lowerDirs : List Layer) (lowest : Layer) (dest stagingRoot : Names) :
    Mounting (Names → Option Entry) := do
  let layers ← collapseStagingLayers (stageLayers stagingRoot) (lowerDirs ++ [lowest])
  mountOverlayCore layers dest

def checkComponent (destination : Names) (view : LiveTree) (checked : Names) : Except Error Unit :=
  match view.view checked with
  | none => .error (.msg (showPath (destination ++ checked) ++ ": No such file or directory"))
  | some (.symlink _) =>
    .error (.msg ("child mount target became a symlink: " ++ showPath (destination ++ checked)))
  | some _ => .ok ()

/-- The point of a child mount has to be there in the prepared view, and not behind a link. -/
def checkTarget (destination relative : Names) (view : LiveTree) : Except Error Unit :=
  (relative.inits.filter (· ≠ [])).forM (checkComponent destination view)

def isDirectory : Option (Held Entry) → Bool
  | some (.shown .directory) | some .opaqueDir => true
  | _ => false

/-- What is put upon the point of one child mount. -/
def childView (nested : Names → Names → List ModuleRoot → Mounting LiveTree) (child target relative : Names)
    (layers : List ModuleRoot) : Mounting LiveTree := do
  let s ← Prog.get
  match layers with
  | [] => do
    syscall ("bind mount " ++ showPath child ++ " -> " ++ showPath target)
    return s.live.clone child
  | first :: _ => do
    syscall ("injected child overlay mount failure: " ++ showPath child)
    if s.live.view child = some .directory then
      if layers.any fun root => !isDirectory (root.entry relative) then
        Prog.fail (.msg ("module changes child mount type: " ++ showPath child))
      else nested target child (layers.map (·.at relative))
    else
      match first.entry relative with
      | some (.shown (.regular content)) => do
        syscall ("bind mount -> " ++ showPath target)
        return .mk (fun q => if q = [] then some (.regular content) else none) []
      | _ => Prog.fail (.msg ("cannot preserve file child mount: " ++ showPath child))

/-- The children attached so far carry what lies below them. -/
def prepareChild (nested : Names → Names → List ModuleRoot → Mounting LiveTree) (destination stock : Names)
    (moduleRoots : List ModuleRoot) (prepared : List Names × LiveTree) (child : Names) :
    Mounting (List Names × LiveTree) :=
  if prepared.1.any fun parent => parent.isPrefixOf child then return prepared
  else do
    let relative := child.drop stock.length
    Prog.ofExcept (checkTarget destination relative prepared.2)
    let layers := moduleRoots.filter fun root => (root.entry relative).isSome
    let tree ← childView nested child (destination ++ relative) relative layers
    return (prepared.1 ++ [child], prepared.2.graft relative tree)

/-- A nested view is prepared for a longer path; the bound on the nesting is never reached. -/
def prepareOverlayView (children : List Names) (stagingRoot : Names) :
    Nat → Names → Names → List ModuleRoot → Mounting LiveTree
  | 0, _, _, _ => Prog.fail .unfinished
  | n + 1, destination, stock, moduleRoots => do
    let s ← Prog.get
    let shown ←
      mountOverlayfs (moduleRoots.map ModuleRoot.entry) (lower (s.live.own stock)) destination stagingRoot
    let prepared ← (children.filter (isBelow stock)).foldlM
      (prepareChild (prepareOverlayView children stagingRoot n) destination stock moduleRoots)
      ([], .mk shown [])
    return prepared.2

/-- The tree which is going to cover the target, and the child mounts it was made for. -/
def prepareTarget (root : Names) (moduleRoots : List ModuleRoot) (stagingRoot : Names) :
    Mounting (LiveTree × List Names) := do
  let children ← collectChildMountPoints root
  if children = [] then do
    let s ← Prog.get
    let shown ← mountOverlayfs (moduleRoots.map ModuleRoot.entry) (lower (s.live.own root)) root stagingRoot
    return (.mk shown [], children)
  else do
    let prepared ← createRandomDir stagingRoot
    onEffect (.staging prepared)
    let view ← prepareOverlayView children stagingRoot (children.length + 1) prepared root moduleRoots
    syscall ("bind mount " ++ showPath prepared ++ " -> " ++ showPath root)
    return (view.clone [], children)

def mountOverlay (root : Names) (moduleRoots : List ModuleRoot) (stagingRoot : Names) : Mounting Unit := do
  let prepared ← prepareTarget root moduleRoots stagingRoot
  attachLive root prepared.1
  onEffect (.target root)
  Prog.forEach (fun child => onEffect (.target child)) prepared.2

end HybridMount
