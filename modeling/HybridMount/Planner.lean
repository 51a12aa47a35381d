import HybridMount.MountTree
import HybridMount.Partitions
import HybridMount.Path

/-! The hybrid mount planner: every entry of every module is given to one backend, by the path rules,
then the module's default, then the global default, and a conflict between backends is an error. -/

namespace HybridMount.Plan

structure ModuleRule where
  defaultMode : Option Mode
  paths : List (String × Mode)
  deriving DecidableEq, Repr

structure Config where
  defaultMode : Mode
  rules : List (String × ModuleRule)
  moduleBlacklist : List String
  deriving DecidableEq, Repr

def Config.isModuleBlacklisted (config : Config) (moduleId : String) : Bool :=
    config.moduleBlacklist.contains moduleId

/-- The key of a path rule without the white space around it and its leading slashes. -/
def normalizeRulePath (key : String) : String :=
  String.ofList (((key.toList.dropWhile isWhiteSpace).rdropWhile isWhiteSpace).dropWhile fun c => c = '/')

def splitPath (path : String) : Names := (Path.segments path.toList).map String.ofList

/-- Equal as texts, or a slash follows the prefix. -/
def isSameOrBelow (path above : Names) : Bool := above.isPrefixOf path

structure ModuleRulesView where
  defaultMode : Mode
  pathRules : List (String × Mode)
  deriving DecidableEq, Repr

namespace ModuleRulesView

def degrade (vfsAvailable : Bool) (mode : Mode) : Mode :=
  if mode = .vfs ∧ vfsAvailable = false then .ignore else mode

/-- The longest key first; keys of one length in their own order. -/
def keyOrder (left right : String × Mode) : Ordering :=
  (compare right.1.utf8ByteSize left.1.utf8ByteSize).then (compare left.1 right.1)

def new (moduleId : String) (config : Config) (vfsAvailable : Bool) : ModuleRulesView :=
  let moduleRule := OrderedMap.get compare moduleId config.rules
  let defaultMode := (moduleRule.bind ModuleRule.defaultMode).getD config.defaultMode
  let pathRules := (moduleRule.map fun rule => rule.paths.map fun path =>
    (normalizeRulePath path.1, path.2)).getD []
  { defaultMode := degrade vfsAvailable defaultMode
    pathRules := (pathRules.insertionSort fun left right => keyOrder left right ≠ .gt).map
      fun path => (path.1, degrade vfsAvailable path.2) }

def resolveMode (rules : ModuleRulesView) (relative : Names) : Mode :=
  ((rules.pathRules.find? fun path => isSameOrBelow relative (splitPath path.1)).map Prod.snd).getD
    rules.defaultMode

def hasWholeSystemOverlayRule (rules : ModuleRulesView) : Bool :=
  rules.pathRules.any fun path => path.1 = "system" && path.2 = .overlay

end ModuleRulesView

@[simp] theorem isSameOrBelow_iff {path above : Names} : isSameOrBelow path above = true ↔
    above <+: path := by
  simp only [isSameOrBelow, List.isPrefixOf_iff_prefix]

structure ModuleEntry where
  relative : Names
  fileType : NodeFileType
  replace : Bool := false
  linkTarget : Option String := none
  directoryRemove : Bool := false
  markerError : Option String := none
  deriving DecidableEq, Repr

def isAlphanumeric (ch : Char) : Bool := ch.isAlpha || ch.isDigit

/-- The module ids `^[a-zA-Z][a-zA-Z0-9._-]*$`. -/
def validModuleId (id : String) : Bool :=
  match id.toList with
  | [] => false
  | first :: rest => first.isAlpha && rest.all fun ch => isAlphanumeric ch || ch = '.' || ch = '_' || ch = '-'

structure ModuleRecord where
  id : String
  disabled : Bool := false
  skipMount : Bool := false
  hasMountFiles : Bool := true
  sourcePath : Names
  entries : List ModuleEntry
  deriving DecidableEq, Repr

def ModuleRecord.mountable (module : ModuleRecord) : Bool := module.hasMountFiles && !module.disabled &&
    !module.skipMount

structure OverlayOperation where
  partition : String
  target : Names
  lowerdirs : List Names
  deriving DecidableEq, Repr

structure MountPlan where
  tree : MountNode
  overlayOps : List OverlayOperation
  overlayFiles : List (Names × List Names)
  overlayModuleIds : List String
  magicModuleIds : List String
  vfsModuleIds : List String
  partitionErrors : List PartitionDiagnostic
  operationErrors : List OperationDiagnostic
  partitionLayout : PartitionLayout
  protectedTargets : List Names

structure PlanInput where
  modules : List ModuleRecord
  config : Config
  layout : PartitionLayout
  vfsAvailable : Bool

structure TargetAssignment where
  mode : Mode
  source : String
  fileType : NodeFileType
  replace : Bool
  deriving DecidableEq, Repr

/-- Pairs of a module and a path inside it. -/
def fileOrder (left right : String × Names) : Ordering :=
  (compare left.1 right.1).then (compare left.2 right.2)

instance : Std.LawfulEqCmp fileOrder where
  compare_self := by simp [fileOrder]
  eq_of_compare h := by
    simp only [fileOrder, Ordering.then_eq_eq] at h
    exact Prod.ext (Std.LawfulEqCmp.eq_of_compare h.1) (Std.LawfulEqCmp.eq_of_compare h.2)

instance : Std.TransCmp fileOrder :=
  inferInstanceAs (Std.TransCmp
    (compareLex (compareOn (Prod.fst : String × Names → String)) (compareOn Prod.snd)))

open OrderedMap (Map)

structure PlanBuilder where
  tree : MountNode := MountTree.root
  overlayByTarget : Map Names (String × Map String Names compare) textOrder := .empty
  overlayFilesByTarget : Map Names (Map (String × Names) Unit fileOrder) textOrder := .empty
  overlayModuleIds : Map String Unit compare := .empty
  magicModuleIds : Map String Unit compare := .empty
  vfsModuleIds : Map String Unit compare := .empty
  assignments : Map Names (List TargetAssignment) textOrder := .empty
  partitionErrors : Map String PartitionDiagnostic compare := .empty
  operationErrors : List OperationDiagnostic := []

def describe (moduleId : String) (relative : Names) (mark : String) : String :=
  moduleId ++ ":" ++ text relative ++ mark

def TargetAssignment.shareableDirectories (existing : TargetAssignment) (fileType : NodeFileType)
    (replace : Bool) : Bool :=
  existing.fileType = .directory && fileType = .directory && !existing.replace && !replace

namespace PlanBuilder

def register (builder : PlanBuilder) (target : Names) (mode : Mode) (moduleId : String) (relative : Names)
    (fileType : NodeFileType) (replace : Bool) : Except PlanError PlanBuilder :=
  let source := describe moduleId relative (if replace then " (.replace)" else "")
  let assignments := (builder.assignments.get target).getD []
  match assignments.find? fun existing => existing.mode ≠ mode &&
    !existing.shareableDirectories fileType replace with
  | some existing => .error (.planConflict target existing.mode.asStr existing.source mode.asStr source)
  | none => .ok { builder with
      assignments := builder.assignments.insert target (assignments ++ [⟨mode, source, fileType, replace⟩]) }

def addOverlayLayer (builder : PlanBuilder) (partition : String) (target : Names) (moduleId : String)
    (source : Names) : PlanBuilder :=
  let entry := (builder.overlayByTarget.get target).getD (partition, .empty)
  { builder with
    overlayByTarget := builder.overlayByTarget.insert target (entry.1, entry.2.insert moduleId source)
    overlayModuleIds := builder.overlayModuleIds.add moduleId }

def addOverlayFile (builder : PlanBuilder) (target : Names) (moduleId : String) (source : Names) :
    PlanBuilder :=
  let sources := (builder.overlayFilesByTarget.get target).getD .empty
  { builder with
    overlayFilesByTarget := builder.overlayFilesByTarget.insert target (sources.add (moduleId, source))
    overlayModuleIds := builder.overlayModuleIds.add moduleId }

def finish (builder : PlanBuilder) : MountPlan where
  tree := builder.tree
  overlayOps := builder.overlayByTarget.entries.map fun entry => ⟨entry.2.1, entry.1, entry.2.2.values⟩
  overlayFiles := builder.overlayFilesByTarget.entries.map fun entry => (entry.1, entry.2.keys.map Prod.snd)
  overlayModuleIds := builder.overlayModuleIds.keys
  magicModuleIds := builder.magicModuleIds.keys
  vfsModuleIds := builder.vfsModuleIds.keys
  partitionErrors := builder.partitionErrors.values
  operationErrors := builder.operationErrors
  partitionLayout := ⟨[], [], []⟩
  protectedTargets := []

end PlanBuilder

structure EntryDecision where
  entry : ModuleEntry
  mode : Mode
  deriving DecidableEq, Repr

def protectedTargets (layout : PartitionLayout) : List Names :=
  let rejected := (layout.errors.filter fun error => error.2.code ≠ "partition_missing").flatMap fun error =>
    [[error.1], ["system", error.1]] ++ ((layout.root? "system").map fun system => system ++ [error.1]).toList
  let set : Map Names Unit compare :=
    (layout.mountPoints ++ rejected).foldl (fun set target => set.add target) .empty
  set.keys

/-- A symlink from `system` to the partition of the same name is layout, not content. -/
def isPromotedPartitionAlias (layout : PartitionLayout) (entry : ModuleEntry) : Bool :=
  entry.fileType = .symlink &&
    match entry.relative with
    | [first, partition] =>
      first = "system" && (layout.root? partition).isSome &&
        entry.linkTarget.any fun target => Path.components target = Path.components ("../" ++ partition)
    | _ => false

def isRedundantPartitionSelfAlias (layout : PartitionLayout) (entry : ModuleEntry) : Bool :=
  entry.fileType = .symlink &&
    match entry.relative with
    | [partition, name] =>
      (layout.root? partition).isSome && name = partition &&
        entry.linkTarget.any fun target =>
          Path.components target = Path.components ("./system/" ++ partition) ||
          Path.components target = Path.components ("system/" ++ partition)
    | _ => false

/-- Whether a proper ancestor of the path is in the set. -/
def hasOverlayAncestor (relative : Names) (overlay : List Names) : Bool :=
  (List.range relative.length).any fun n => n ≠ 0 && overlay.contains (relative.take n)

section Screening

variable (module : ModuleRecord) (rules : ModuleRulesView) (layout : PartitionLayout)

def diagnose (entry : ModuleEntry) (target : Option Names) (code reason : String) : OperationDiagnostic :=
  ⟨module.id, entry.relative, target, code, reason⟩

/-- The target whose removal or replacement must not cover a protected one. -/
def coversProtected (entry : ModuleEntry) (target : Names) : Bool :=
  (entry.replace || entry.fileType = .symlink || entry.fileType = .whiteout) &&
    (protectedTargets layout).any fun p => target.isPrefixOf p && (p ≠ target || entry.fileType = .whiteout)

/-- The diagnostics of an entry, and whether its subtree is blocked. -/
def screenEntry (entry : ModuleEntry) : List OperationDiagnostic × Bool :=
  if rules.resolveMode entry.relative = .ignore then ([], false)
  else
    let mapped := layout.mapTarget entry.relative
    let marker := (entry.markerError.map fun reason =>
      diagnose module entry (mapped.toOption.map Prod.snd) "invalid_remove_marker" reason).toList
    match mapped with
    | .error _ => (marker, false)
    | .ok (_, target) =>
      if entry.directoryRemove && entry.relative.length = layout.rootLen entry.relative then
        (marker ++ [diagnose module entry (some target) "partition_root_remove"
          "directory .remove is not allowed at a partition root"], true)
      else if coversProtected layout entry target then
        (marker ++ [diagnose module entry (some target)
          (if entry.directoryRemove then "protected_submount_remove" else "protected_ancestor")
          "replacement or deletion would cover a rejected partition or an existing child mount"], true)
      else (marker, false)

def blockedSubtrees : List Names :=
  (module.entries.filter fun entry => (screenEntry module rules layout entry).2).map ModuleEntry.relative

def isBlocked (entry : ModuleEntry) : Bool :=
  (blockedSubtrees module rules layout).any fun p => isSameOrBelow entry.relative p

def notePartitionError (builder : PlanBuilder) (entry : ModuleEntry) : PlanBuilder :=
  let partition := layout.logicalPartition entry.relative
  match layout.error? partition with
  | some error =>
    if isBlocked module rules layout entry || rules.resolveMode entry.relative = .ignore then builder
    else
      let diagnostic := (builder.partitionErrors.get partition).getD error
      let modules := if diagnostic.modules.contains module.id then diagnostic.modules
        else diagnostic.modules ++ [module.id]
      { builder with
        partitionErrors := builder.partitionErrors.insert partition { diagnostic with modules } }
  | none => builder

def accepts (entry : ModuleEntry) : Bool :=
  !isBlocked module rules layout entry && (layout.error? (layout.logicalPartition entry.relative)).isNone &&
    !isPromotedPartitionAlias layout entry && !isRedundantPartitionSelfAlias layout entry

def decisions : List EntryDecision :=
  (module.entries.filter fun entry => accepts module rules layout entry).map fun entry =>
    ⟨entry, rules.resolveMode entry.relative⟩

end Screening

section Modules

variable (module : ModuleRecord) (rules : ModuleRulesView) (layout : PartitionLayout)

def sourceOf (decision : EntryDecision) : MountSource :=
  ⟨module.id, decision.entry.relative, module.sourcePath ++ decision.entry.relative, decision.entry.fileType,
    decision.entry.replace, decision.mode⟩

def registerDecision (builder : PlanBuilder) (decision : EntryDecision) : Except PlanError PlanBuilder := do
  let (_, target) ← layout.mapTarget decision.entry.relative
  let inserted := { builder with tree := MountTree.insert builder.tree target (sourceOf module decision) }
  if decision.mode = .ignore then .ok inserted
  else
    inserted.register target decision.mode module.id decision.entry.relative decision.entry.fileType
      decision.entry.replace

def addLayer (builder : PlanBuilder) (relative : Names) : Except PlanError PlanBuilder := do
  let (partition, target) ← layout.mapTarget relative
  .ok (builder.addOverlayLayer partition target module.id (module.sourcePath ++ relative))

/-- A file goes into the directory which its parent maps to. -/
def addFile (builder : PlanBuilder) (parent relative : Names) : Except PlanError PlanBuilder := do
  let (_, target) ← layout.mapTarget parent
  .ok (builder.addOverlayFile target module.id (module.sourcePath ++ relative))

def replacedRoots (decisions : List EntryDecision) : List Names :=
  (decisions.filter fun decision => decision.entry.replace &&
    decision.entry.relative.length = layout.rootLen decision.entry.relative).map fun decision =>
      decision.entry.relative

def addWholeOverlayLayer (replaced : List Names) (builder : PlanBuilder) (decision : EntryDecision) :
    Except PlanError PlanBuilder :=
  let relative := decision.entry.relative
  let rootLen := layout.rootLen relative
  if hasOverlayAncestor relative replaced then .ok builder
  else if relative.length = rootLen && decision.entry.replace then addLayer module layout builder relative
  else if rootLen + 1 < relative.length ||
      (decision.entry.fileType = .directory && relative.length = rootLen + 1) then
    addLayer module layout builder (relative.take (rootLen + 1))
  else if decision.entry.fileType ≠ .directory && relative.length = rootLen + 1 then
    addFile module layout builder (relative.take rootLen) relative
  else .ok builder

def addWholeOverlayLayers (decisions : List EntryDecision) (builder : PlanBuilder) :
    Except PlanError PlanBuilder :=
  decisions.foldlM (addWholeOverlayLayer module layout (replacedRoots layout decisions)) builder

def overlayRels (decisions : List EntryDecision) : List Names :=
  (decisions.filter fun decision => decision.mode = .overlay).map fun decision => decision.entry.relative

def isOverlayDirRoot (rels : List Names) (decision : EntryDecision) : Bool :=
  decision.mode = .overlay && decision.entry.fileType = .directory &&
    !hasOverlayAncestor decision.entry.relative rels

def isOverlayFile (rels : List Names) (decision : EntryDecision) : Bool :=
  decision.mode = .overlay && decision.entry.fileType ≠ .directory &&
    !hasOverlayAncestor decision.entry.relative rels

def addPartialFile (builder : PlanBuilder) (decision : EntryDecision) : Except PlanError PlanBuilder :=
  let relative := decision.entry.relative
  if relative.length ≤ 1 then .ok builder else addFile module layout builder relative.dropLast relative

def addPartialOverlay (decisions : List EntryDecision) (builder : PlanBuilder) :
    Except PlanError PlanBuilder := do
  let rels := overlayRels decisions
  let builder ← (decisions.filter (isOverlayDirRoot rels)).foldlM
    (fun builder decision => addLayer module layout builder decision.entry.relative) builder
  (decisions.filter (isOverlayFile rels)).foldlM (addPartialFile module layout) builder

def collectMagic (decisions : List EntryDecision) (builder : PlanBuilder) : PlanBuilder :=
  if decisions.any fun decision => decision.mode = .magic then
    { builder with magicModuleIds := builder.magicModuleIds.add module.id }
  else builder

def collectVfs (decisions : List EntryDecision) (builder : PlanBuilder) : PlanBuilder :=
  if decisions.any fun decision => decision.mode = .vfs then
    { builder with vfsModuleIds := builder.vfsModuleIds.add module.id }
  else builder

def isWholeOverlay (decisions : List EntryDecision) : Bool :=
  (decisions.all fun decision => decision.mode = .overlay) &&
    (rules.defaultMode = .overlay || rules.hasWholeSystemOverlayRule)

def addOverlays (decisions : List EntryDecision) (builder : PlanBuilder) : Except PlanError PlanBuilder :=
  if overlayRels decisions = [] then .ok (collectVfs module decisions (collectMagic module decisions builder))
  else if isWholeOverlay rules decisions then addWholeOverlayLayers module layout decisions builder
  else do
    let builder ← addPartialOverlay module layout decisions builder
    .ok (collectVfs module decisions (collectMagic module decisions builder))

def processModule (builder : PlanBuilder) : Except PlanError PlanBuilder := do
  let screened := { builder with
    operationErrors := builder.operationErrors ++ module.entries.flatMap fun entry =>
      (screenEntry module rules layout entry).1 }
  let noted := module.entries.foldl (notePartitionError module rules layout) screened
  let chosen := decisions module rules layout
  let registered ← chosen.foldlM (registerDecision module layout) noted
  addOverlays module rules layout chosen registered

end Modules

section Checks

def firstDescendantSource (node : MountNode) (backend : Mode) : Option MountSource :=
  node.firstBelow fun value => value.sourceFor backend

def conflict (target : Names) (first second : Mode) (source other : MountSource) (mark : String) : PlanError :=
  .planConflict target first.asStr (describe source.moduleId source.relative mark) second.asStr
    (describe other.moduleId other.relative "")

/-- A directory that Magic replaces holds no descendants which Overlay has mounted before. -/
def checkReplace (_ : Unit) (target : Names) (node : MountNode) : Except PlanError Unit :=
  match node.value.sources.find? fun source => source.backend = .magic && source.replace,
    firstDescendantSource node .overlay with
  | some source, some other => .error (conflict target .magic .overlay source other " (.replace)")
  | _, _ => .ok ()

/-- The nearest directory of Overlay or Magic on the way shadows every VFS source below it. -/
def checkShadow (ancestor : Option (Mode × MountSource)) (target : Names) (node : MountNode) :
    Except PlanError (Option (Mode × MountSource)) :=
  match ancestor, node.value.sources.find? fun source => source.backend = .vfs with
  | some (mode, source), some other => .error (conflict target mode .vfs source other "")
  | _, _ =>
    let selfMount := node.value.sources.find? fun source =>
      (source.backend = .overlay || source.backend = .magic) &&
      (source.fileType = .directory || source.replace)
    .ok ((selfMount.map fun source => (source.backend, source)).or ancestor)

/-- Nothing but VFS sources stands at or below a directory that VFS replaces. -/
def checkOpaque (opaqueOwner : Option MountSource) (target : Names) (node : MountNode) :
    Except PlanError (Option MountSource) :=
  let owner := (node.value.sources.find? fun source => source.backend = .vfs && source.replace).or opaqueOwner
  match owner, node.value.sources.find? fun source => source.backend ≠ .vfs with
  | some source, some other => .error (conflict target .vfs other.backend source other " (.replace)")
  | _, _ => .ok owner

/-- An active whiteout shares its target with nothing else and has nothing active below. -/
def checkWhiteout (_ : Unit) (target : Names) (node : MountNode) : Except PlanError Unit :=
  let removal := node.value.sources.find? fun source => source.fileType = .whiteout &&
    source.backend ≠ .ignore
  let other := (node.value.sources.find? fun source => source.fileType ≠ .whiteout &&
    source.backend ≠ .ignore).or
    ([Mode.overlay, .magic, .vfs].findSome? (firstDescendantSource node))
  match removal, other with
  | some source, some other =>
    .error (conflict target source.backend other.backend source other " (whiteout)")
  | _, _ => .ok ()

def ensureReplaceBackendConsistency (tree : MountNode) : Except PlanError Unit :=
    tree.visit checkReplace () []

def ensureVfsNotShadowed (tree : MountNode) : Except PlanError Unit := tree.visit checkShadow none []

def ensureVfsOpaqueExclusive (tree : MountNode) : Except PlanError Unit := tree.visit checkOpaque none []

def ensureWhiteoutExclusive (tree : MountNode) : Except PlanError Unit := tree.visit checkWhiteout () []

end Checks

namespace PlanInput

def rulesOf (input : PlanInput) (module : ModuleRecord) : ModuleRulesView :=
  .new module.id input.config input.vfsAvailable

/-- Modules in the order of their ids, without those which take no part. -/
def planned (input : PlanInput) : List ModuleRecord :=
  (input.modules.insertionSort fun left right => compare left.id right.id ≠ .gt).filter fun module =>
    module.mountable && !input.config.isModuleBlacklisted module.id

end PlanInput

def planModules (input : PlanInput) : Except PlanError PlanBuilder :=
  input.planned.foldlM (fun builder module =>
    processModule module (input.rulesOf module) input.layout builder) {}

def buildPlan (input : PlanInput) : Except PlanError MountPlan := do
  let builder ← planModules input
  ensureReplaceBackendConsistency builder.tree
  ensureVfsNotShadowed builder.tree
  ensureVfsOpaqueExclusive builder.tree
  ensureWhiteoutExclusive builder.tree
  .ok { builder.finish with
    partitionLayout := input.layout
    protectedTargets := protectedTargets input.layout }

theorem buildPlan_of_view {α : Type} {input : PlanInput} {view : MountPlan → α} {seen : α}
    (h : (buildPlan input).toOption.map view = some seen) :
    ∃ plan, buildPlan input = .ok plan ∧ view plan = seen := by
  cases hplan : buildPlan input with
  | error e => simp [hplan, Except.toOption] at h
  | ok plan => exact ⟨plan, rfl, by simpa [hplan, Except.toOption] using h⟩

end HybridMount.Plan
