import HybridMount.Planner

/-! How the overlays of a plan are mounted: whole directories in plan order, then one overlay for
each directory that receives single files or subtrees it does not have yet. -/

namespace HybridMount.Plan

/-- What the file system says about a path; links are followed. -/
inductive Probe where
  | directory
  | other
  | missing
  | failed (error : String)
  deriving DecidableEq, Repr

inductive ExecutionError where
  | targetNotDirectory (target : Names)
  | inspectTarget (target : Names) (error : String)
  | inspectAncestor (ancestor : Names) (error : String)
  | noExistingAncestor (target : Names)
  | noFileName (source : Names)
  deriving DecidableEq, Repr

inductive OverlayDirectoryTarget where
  | existing
  | missing (mountTarget destinationRelative : Names)
  deriving DecidableEq, Repr

structure ShallowOverlaySource where
  source : Names
  destinationRelative : Names
  deriving DecidableEq, Repr

structure OverlayExecutionPlan where
  direct : List Nat
  shallow : OrderedMap.Map Names (List ShallowOverlaySource) compare

section

variable (probe : Names → Probe)

/-- The nearest existing directory among the first names of the target; the root itself is too broad. -/
def resolveAncestor (target : Names) : Nat → Except ExecutionError OverlayDirectoryTarget
  | 0 => .error (.noExistingAncestor target)
  | n + 1 =>
    match probe (target.take (n + 1)) with
    | .directory => .ok (.missing (target.take (n + 1)) (target.drop (n + 1)))
    | .failed error => .error (.inspectAncestor (target.take (n + 1)) error)
    | .other | .missing => resolveAncestor target n

def resolveOverlayDirectoryTarget (target : Names) : Except ExecutionError OverlayDirectoryTarget :=
  match probe target with
  | .directory => .ok .existing
  | .other => .error (.targetNotDirectory target)
  | .failed error => .error (.inspectTarget target error)
  | .missing => resolveAncestor probe target (target.length - 1)

def OverlayExecutionPlan.push (execution : OverlayExecutionPlan) (mountTarget : Names)
    (sources : List ShallowOverlaySource) :
    OverlayExecutionPlan :=
  { execution with
    shallow := execution.shallow.insert mountTarget ((execution.shallow.get mountTarget).getD [] ++ sources) }

def planFiles (execution : OverlayExecutionPlan) (rule : Names × List Names) :
    Except ExecutionError OverlayExecutionPlan := do
  let (mountTarget, destination) ← match ← resolveOverlayDirectoryTarget probe rule.1 with
    | .existing => .ok (rule.1, [])
    | .missing mountTarget destinationRelative => .ok (mountTarget, destinationRelative)
  rule.2.foldlM (fun execution source =>
    match source.getLast? with
    | none => .error (.noFileName source)
    | some fileName => .ok (execution.push mountTarget [⟨source, destination ++ [fileName]⟩])) execution

def planOperation (execution : OverlayExecutionPlan) (operation : OverlayOperation × Nat) :
    Except ExecutionError OverlayExecutionPlan := do
  match ← resolveOverlayDirectoryTarget probe operation.1.target with
  | .existing => .ok { execution with direct := execution.direct ++ [operation.2] }
  | .missing mountTarget destinationRelative =>
    .ok (execution.push mountTarget (operation.1.lowerdirs.map fun source => ⟨source, destinationRelative⟩))

def shallowOrder (left right : ShallowOverlaySource) : Ordering :=
  (compare left.source right.source).then (compare left.destinationRelative right.destinationRelative)

def buildOverlayExecutionPlan (plan : MountPlan) : Except ExecutionError OverlayExecutionPlan := do
  let files ← plan.overlayFiles.foldlM (planFiles probe) ⟨[], .empty⟩
  let execution ← plan.overlayOps.zipIdx.foldlM (planOperation probe) files
  .ok { execution with
    shallow := execution.shallow.mapValues fun sources =>
      sources.insertionSort fun left right => shallowOrder left right ≠ .gt }

end

/-! What is visible after the overlays are mounted, as far as it is a regular file of a module. -/

abbrev View := Names → Option String

/-- A lower layer: the staged directory or file `source` appears at `destination` below the mount point. -/
structure Layer where
  source : Names
  destination : Names
  deriving DecidableEq, Repr

/-- The sources that are staged for the overlays; a staged path is known by its source path. -/
def stagedSources (tree : MountNode) : List MountSource :=
  tree.collect (fun (_ : Unit) _ node =>
    (node.value.sources.filter fun source => source.backend = .overlay, ())) () []

/-- What one layer says about a path below the mount point: nothing, or that the lower layers do not
count. The first name on the way that is no directory ends the search in the layer, a directory is seen
in place of what is no directory below it, and a replaced one hides all that the lower layers have in it. -/
def Layer.decides (staged : List MountSource) (layer : Layer) (path : Names) : Option (Option String) :=
  if layer.destination.isPrefixOf path then
    let rest := path.drop layer.destination.length
    let steps := rest.inits.filterMap fun above =>
      (staged.find? fun source => source.sourcePath = layer.source ++ above).map
      fun source => (above, source)
    match steps.find? fun step => step.2.fileType ≠ .directory with
    | some (above, source) =>
      some (if above = rest ∧ source.fileType = .regularFile then some source.moduleId else none)
    | none => if steps.any fun step => step.2.replace || step.1 = rest then some none else none
  else none

/-- An overlay over what is visible so far; the leftmost layer is on top. -/
def mountOverlay (staged : List MountSource) (view : View) (target : Names) (layers : List Layer) : View :=
  fun path =>
  if target.isPrefixOf path then
    (layers.findSome? fun layer => layer.decides staged (path.drop target.length)).getD (view path)
  else view path

def mountDirect (staged : List MountSource) (plan : MountPlan) (view : View) (index : Nat) : View :=
  match plan.overlayOps[index]? with
  | some operation =>
    mountOverlay staged view operation.target (operation.lowerdirs.map fun source => ⟨source, []⟩)
  | none => view

def mountOverlayPhase (plan : MountPlan) (execution : OverlayExecutionPlan) : View :=
  let staged := stagedSources plan.tree
  execution.shallow.entries.foldl
    (fun view group => mountOverlay staged view group.1
      (group.2.map fun source => ⟨source.source, source.destinationRelative⟩))
    (execution.direct.foldl (mountDirect staged plan) fun _ => none)

end HybridMount.Plan
