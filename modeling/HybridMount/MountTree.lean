import HybridMount.Trie
import Mathlib.Data.List.DropRight

/-! The shared mount tree: one node for each target, carrying the contribution of every module. -/

namespace HybridMount.Plan

/-- The names between the slashes of a path; a target is absolute, a relative path starts
at the root of a module. -/
abbrev Names := List String

def text (names : Names) : String := String.intercalate "/" names

/-- Paths are ordered as texts. Names hold no slash, so the second comparison never decides. -/
def textOrder (left right : Names) : Ordering := (compare (text left) (text right)).then (compare left right)

instance : Std.LawfulEqCmp textOrder where
  compare_self := by simp [textOrder]
  eq_of_compare h := by
    simp only [textOrder, Ordering.then_eq_eq] at h
    exact Std.LawfulEqCmp.eq_of_compare h.2

instance : Std.TransCmp textOrder :=
  inferInstanceAs (Std.TransCmp (compareLex (compareOn text) (compare : Names → Names → Ordering)))

inductive Mode where
  | overlay
  | magic
  | vfs
  | ignore
  deriving DecidableEq, Repr

def Mode.asStr : Mode → String
  | overlay => "overlay"
  | magic => "magic"
  | vfs => "vfs"
  | ignore => "ignore"

inductive NodeFileType where
  | regularFile
  | directory
  | symlink
  | whiteout
  deriving DecidableEq, Repr

structure MountSource where
  moduleId : String
  relative : Names
  sourcePath : Names
  fileType : NodeFileType
  replace : Bool
  backend : Mode
  deriving DecidableEq, Repr

structure StructuralSource where
  moduleId : String
  sourcePath : Names
  deriving DecidableEq, Repr

structure Contributions where
  sources : List MountSource := []
  structuralSources : List StructuralSource := []
  deriving DecidableEq, Repr

/-- The name of a node is its key among the children of its parent; the root has none. -/
abbrev MountNode := Trie String Contributions

namespace Contributions

def sourceFor (node : Contributions) (backend : Mode) : Option MountSource :=
  node.sources.find? fun source => source.backend = backend

def structuralPath (node : Contributions) : Option Names :=
  ((node.sources.find? fun source => source.fileType = .directory).map MountSource.sourcePath).or
    (node.structuralSources.head?.map StructuralSource.sourcePath)

def modulePathFor (node : Contributions) (backend : Mode) : Option Names :=
  ((node.sourceFor backend).map MountSource.sourcePath).or node.structuralPath

def replaceFor (node : Contributions) (backend : Mode) : Bool :=
  (node.sourceFor backend).any MountSource.replace

end Contributions

namespace MountNode

def sourceFor (node : MountNode) (backend : Mode) : Option MountSource := node.value.sourceFor backend

def hasBackend (node : MountNode) (backend : Mode) : Bool :=
  node.any fun value => (value.sourceFor backend).isSome

def fileTypeFor (node : MountNode) (backend : Mode) : Option NodeFileType :=
  ((node.sourceFor backend).map MountSource.fileType).or
    (if node.children.any fun child => hasBackend child.2 backend then some .directory else none)

end MountNode

/-- The characters which the standard library of the source takes for white space. -/
def isWhiteSpace (c : Char) : Bool :=
  let n := c.toNat
  (9 ≤ n && n ≤ 13) || (0x2000 ≤ n && n ≤ 0x200a) ||
    [0x20, 0x85, 0xa0, 0x1680, 0x2028, 0x2029, 0x202f, 0x205f, 0x3000].contains n

def trimEnd (name : String) : String := String.ofList (name.toList.rdropWhile isWhiteSpace)

/-- The nodes on the way to a target: the text is trimmed, which its slash at the front confines
to the last name, and empty names are skipped. -/
def targetComponents (target : Names) : Names :=
  (target.dropLast ++ (target.getLast?.map trimEnd).toList).filter fun name => name ≠ ""

def sourceOrder (left right : MountSource) : Ordering :=
  (compare left.moduleId right.moduleId).then (compare (text left.relative) (text right.relative))

def structuralOrder (left right : StructuralSource) : Ordering :=
  (compare left.moduleId right.moduleId).then (compare left.sourcePath right.sourcePath)

namespace MountTree

def root : MountNode := ⟨{}, []⟩

def pushSource (source : MountSource) (node : Contributions) : Contributions :=
  { node with
    sources := (node.sources ++ [source]).insertionSort fun left right => sourceOrder left right ≠ .gt }

def pushStructural (structural : StructuralSource) (node : Contributions) : Contributions :=
  if structural ∈ node.structuralSources then node
  else { node with
    structuralSources := (node.structuralSources ++ [structural]).insertionSort
      fun left right => structuralOrder left right ≠ .gt }

/-- A node above the source, or the source itself when it is a directory, borrows the module's
directory at the same height. -/
def structuralEdit (source : MountSource) (sourceOffset relativeLength index : Nat) :
    Contributions → Contributions :=
  let kept := sourceOffset + index + 1
  if kept < relativeLength ∨ source.fileType = .directory then
    pushStructural ⟨source.moduleId,
      source.sourcePath.take (source.sourcePath.length - (relativeLength - kept))⟩
  else id

def insert (tree : MountNode) (target : Names) (source : MountSource) : MountNode :=
  let components := targetComponents target
  let relativeLength := (source.relative.filter fun name => name ≠ "").length
  let sourceOffset := relativeLength - components.length
  tree.grow compare {} (pushSource source)
    (components.zipIdx.map fun step => (step.1, structuralEdit source sourceOffset relativeLength step.2))

def find (tree : MountNode) (target : Names) : Option MountNode :=
  Trie.find compare (targetComponents target) tree

/-- The sources at the end of a chain of nodes. -/
def sourcesAt (path : Names) (tree : MountNode) : List MountSource :=
  ((Trie.valueAt compare path tree).map Contributions.sources).getD []

variable {tree : MountNode} {target path : Names} {source s : MountSource}

theorem sources_pushStructural (structural : StructuralSource) (node : Contributions) :
    (pushStructural structural node).sources = node.sources := by
  unfold pushStructural
  split
  · rfl
  · rfl

theorem sources_structuralEdit (source : MountSource) (offset length index : Nat) (node : Contributions) :
    (structuralEdit source offset length index node).sources = node.sources := by
  unfold structuralEdit
  split
  · exact sources_pushStructural _ node
  · rfl

theorem sourcesAt_insert (tree : MountNode) (target : Names) (source : MountSource) (path : Names) :
    sourcesAt path (insert tree target source) =
      if path = targetComponents target then
        (sourcesAt path tree ++ [source]).insertionSort fun left right => sourceOrder left right ≠ .gt
      else sourcesAt path tree := by
  refine (Trie.view_grow Contributions.sources
    (fun sources => (sources ++ [source]).insertionSort fun left right => sourceOrder left right ≠ .gt) ?_
      fun _ => rfl).trans ?_
  · intro e he
    obtain ⟨step, -, rfl⟩ := List.mem_map.mp he
    exact sources_structuralEdit source _ _ step.2
  · simp only [List.map_map, Function.comp_def, List.zipIdx_map_fst]
    rfl

theorem mem_sourcesAt_insert :
    s ∈ sourcesAt path (insert tree target source) ↔ s ∈ sourcesAt path tree ∨ s = source ∧
    path = targetComponents target := by
  rw [sourcesAt_insert]
  by_cases h : path = targetComponents target
  · simp [h]
  · simp [h]

end MountTree

end HybridMount.Plan
