import HybridMount.MountTree

/-! Which directories Magic Mount replaces, or rebuilds in a tmpfs because something in them cannot
be bound in place. -/

namespace HybridMount.Plan

/-- What the file system says about a path without following it. -/
inductive RealEntry where
  | file
  | directory
  | symlink
  | special
  | missing
  | failed (error : String)
  deriving DecidableEq, Repr

def NodeFileType.fromFileType : RealEntry → Option NodeFileType
  | .file => some .regularFile
  | .directory => some .directory
  | .symlink => some .symlink
  | _ => none

/-- What Magic Mount asks the file system for before it mounts anything. -/
structure RealTree where
  symlinkMetadata : Names → RealEntry
  pathExists : Names → Bool

namespace Magic

section

variable (real : RealTree)

/-- Does a child of the given type keep its directory from being used in place? -/
def needsTmpfs (path : Names) (nodeType : NodeFileType) : Bool :=
  match nodeType with
  | .symlink => true
  | .whiteout => real.symlinkMetadata path ≠ .missing
  | nodeType =>
    match real.symlinkMetadata path with
    | .missing | .failed _ => true
    | entry =>
      (NodeFileType.fromFileType entry).all fun fileType => fileType ≠ nodeType || fileType = .symlink

def replaces (node : MountNode) : Bool := node.value.replaceFor .magic &&
    (node.value.modulePathFor .magic).isSome

def childNeedsTmpfs (path : Names) (node : MountNode) : Bool :=
  node.children.any fun child => (MountNode.fileTypeFor child.2 .magic).any fun nodeType =>
    MountNode.hasBackend child.2 .magic && needsTmpfs real (path ++ [child.1]) nodeType

/-- Where the walk stands: not reached, in place, or inside a directory which is rebuilt. -/
inductive Reach where
  | outside
  | inPlace
  | rebuilt
  deriving DecidableEq, Repr

/-- Magic goes down through directories only, and a directory inside a rebuilt one is not moved on its own. -/
def visitDirectory (reach : Reach) (path : Names) (node : MountNode) : List Names × Reach :=
  if reach = .outside ∨ MountNode.fileTypeFor node .magic ≠ some .directory then ([], .outside)
  else if reach = .rebuilt then ([], .rebuilt)
  else if replaces node then ([path], .rebuilt)
  else if childNeedsTmpfs real path node then
    -- A directory without any source of its own has to be there already.
    if (node.value.modulePathFor .magic).isNone && !real.pathExists path then ([], .outside)
      else ([path], .rebuilt)
  else ([], .inPlace)

/-- The directories whose tmpfs is moved onto them, whatever becomes of the other mounts. -/
def rebuiltDirectories (tree : MountNode) : List Names := tree.collect (visitDirectory real) .inPlace []

end

end Magic

end HybridMount.Plan
