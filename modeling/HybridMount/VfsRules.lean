import HybridMount.MountTree

/-! The rules which the VFS sources of the mount tree become. -/

namespace HybridMount.Plan

inductive VfsAction where
  | inject (virtualPath realPath : Names)
  | whiteout (virtualPath : Names)
  | opaqueDir (virtualPath : Names)
  deriving DecidableEq, Repr

def VfsAction.virtualPath : VfsAction → Names
  | inject virtualPath _ => virtualPath
  | whiteout virtualPath => virtualPath
  | opaqueDir virtualPath => virtualPath

structure VfsRule where
  action : VfsAction
  moduleId : String
  deriving DecidableEq, Repr

/-- What a file, a symlink or a whiteout becomes; a directory is no rule of its own. -/
def actionFor (current : Names) (source : MountSource) : Option VfsAction :=
  match source.fileType with
  | .whiteout => some (.whiteout current)
  | .regularFile | .symlink => some (.inject current source.sourcePath)
  | .directory => none

def isVfsDir (node : MountNode) : Bool :=
  (MountNode.sourceFor node .vfs).any (fun source => source.fileType = .directory) ||
    node.children.any fun child => MountNode.hasBackend child.2 .vfs

/-- The rule of one node, and the owner of the replaced directory its children are in. -/
def collectNode (opaqueOwner : Option String) (current : Names) (node : MountNode) :
    List VfsRule × Option String :=
  let owner := match MountNode.sourceFor node .vfs with
    | some source => if source.replace then some source.moduleId else opaqueOwner
    | none => opaqueOwner
  let rules :=
    if isVfsDir node then (owner.map fun moduleId => ⟨.opaqueDir current, moduleId⟩).toList
    else
      -- The last source in module order is taken.
      match node.value.sources.reverse.find? fun source => source.backend = .vfs &&
        source.fileType ≠ .directory with
      | some source => ((actionFor current source).map fun action => ⟨action, source.moduleId⟩).toList
      | none => []
  (rules, owner)

def buildVfsRules (tree : MountNode) : List VfsRule := tree.collect collectNode none []

/-- An injection comes from the last source of its node that is no directory. -/
theorem mem_buildVfsRules_inject {tree : MountNode} (ht : tree.Ordered compare) {path realPath : Names}
    {moduleId : String}
    (h : ⟨.inject path realPath, moduleId⟩ ∈ buildVfsRules tree) :
    ∃ node source, tree.find compare path = some node ∧ source.moduleId = moduleId ∧
    source.sourcePath = realPath ∧
      node.value.sources.reverse.find? (fun source => source.backend = .vfs && source.fileType ≠ .directory) =
        some source := by
  obtain ⟨q, node, owner, hq, hrule⟩ := Trie.collect_origin ht h
  unfold collectNode at hrule
  dsimp only at hrule
  split at hrule
  · simp at hrule
  cases hlast : node.value.sources.reverse.find?
    (fun source => source.backend = .vfs && source.fileType ≠ .directory) with
  | none =>
    rw [hlast] at hrule
    cases hrule
  | some source =>
    rw [hlast] at hrule
    simp only [Option.mem_toList, Option.map_eq_some_iff, VfsRule.mk.injEq] at hrule
    obtain ⟨action, haction, rfl, hid⟩ := hrule
    have hpath : q = path ∧ source.sourcePath = realPath := by
      unfold actionFor at haction
      split at haction
      · simp at haction
      · simpa using haction
      · simpa using haction
      · simp at haction
    exact ⟨node, source, hpath.1 ▸ hq, hid, hpath.2, hlast⟩

end HybridMount.Plan
