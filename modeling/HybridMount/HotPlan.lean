import HybridMount.Hot
import HybridMount.OverlayMount
import HybridMount.Planner
import HybridMount.VfsRules

/-! What a hot operation asks for: the plan of the one module, after the checks which keep
modules with other backends, changed partitions and active mounts out of it. -/

namespace HybridMount

/-- A rule of the tree with its paths as texts. -/
def toRule (rule : Plan.VfsRule) : VfsRule where
  action := match rule.action with
    | .inject virtualPath realPath => .inject (showPath virtualPath) (showPath realPath)
    | .whiteout virtualPath => .whiteout (showPath virtualPath)
    | .opaqueDir virtualPath => .opaqueDir (showPath virtualPath)
  moduleId := rule.moduleId

/-- What the ownership records take from a plan. -/
def recorded (plan : Plan.MountPlan) : MountPlan where
  rules := (Plan.buildVfsRules plan.tree).map toRule
  vfsModuleIds := plan.vfsModuleIds
  magicModuleIds := plan.magicModuleIds
  overlayModuleIds := plan.overlayModuleIds

def planErrorText : Plan.PlanError → String
  | .invalidModulePath relative => "invalid module path: \"" ++ Plan.text relative ++ "\""
  | .partitionSkipped partition reason => "partition " ++ partition ++ " skipped: " ++ reason
  | .planConflict target firstBackend firstSource secondBackend secondSource =>
    "plan conflict at \"" ++ showPath target ++ "\": " ++ firstBackend ++ "(" ++ firstSource ++ ") vs " ++
      secondBackend ++ "(" ++ secondSource ++ ")"

structure PartitionIdentity where
  canonical : Plan.Names
  dev : Nat
  ino : Nat
  subtree : List (Plan.Names × (Nat × Nat × String × Plan.Names))
  deriving DecidableEq

/-- The partition layout with the identities of the chosen roots. -/
structure LayoutRecord where
  layout : Plan.PartitionLayout
  identities : List (String × PartitionIdentity)

/-- Names as the file system has them. -/
def Plan.Slashless (path : Plan.Names) : Prop := ∀ name ∈ path, '/' ∉ name.toList

/-- The installed modules and what the operations read about them; a boot and every later operation
find the same. -/
structure Installed where
  modules : List Plan.ModuleRecord
  config : Plan.Config
  isolateUids : List UInt32
  layout : LayoutRecord
  /-- Modules whose directory holds the file `remove`. -/
  pendingRemoval : List String
  distinct : (modules.map Plan.ModuleRecord.id).Nodup
  entryNames : ∀ m ∈ modules, ∀ entry ∈ m.entries, Plan.Slashless entry.relative
  rootNames : ∀ root ∈ layout.layout.roots, Plan.Slashless root.2

def sameOrBelow (path above : String) : Bool :=
  path == above || (stripPrefix above.toList path.toList).any fun rest => rest.head? == some '/'

def pathsOverlap (a b : String) : Bool := sameOrBelow a b || sameOrBelow b a

namespace Policy

/-- The mounts below a partition root which are not the daemon's own. -/
def cleanSubtree (mounts : List OwnedMount) (identity : PartitionIdentity) :
    List (Plan.Names × (Nat × Nat × String × Plan.Names)) :=
  identity.subtree.filter fun entry =>
    !mounts.any fun m => Path.components m.target ==
      Path.components (showPath (identity.canonical ++ entry.1))

def sameError : Option Plan.PartitionDiagnostic → Option Plan.PartitionDiagnostic → Bool
  | none, none => true
  | some a, some b => a.code == b.code && a.reason == b.reason
  | _, _ => false

def sameIdentity (mounts : List OwnedMount) : Option PartitionIdentity → Option PartitionIdentity → Bool
  | none, none => true
  | some a, some b =>
    a.canonical == b.canonical && a.dev == b.dev && a.ino == b.ino &&
    decide (cleanSubtree mounts a = cleanSubtree mounts b)
  | _, _ => false

def layoutUnchanged (baseline current : LayoutRecord) (mounts : List OwnedMount) (name : String) : Bool :=
  baseline.layout.root? name == current.layout.root? name &&
    sameError (baseline.layout.error? name) (current.layout.error? name) &&
    sameIdentity mounts (OrderedMap.get compare name baseline.identities)
      (OrderedMap.get compare name current.identities)

def ensureLayoutUnchanged (baseline : Option LayoutRecord) (current : LayoutRecord) (mounts : List OwnedMount)
    (relevant : List String) : Except Error Unit :=
  match baseline with
  | none => .error (.msg "runtime ledger has no partition layout baseline; reboot before loading rules")
  | some baseline =>
    match (relevant.dedup.insertionSort fun a b => (compare a b).isLE).find? fun name =>
      !layoutUnchanged baseline current mounts name with
    | some name =>
      .error (.msg ("partition " ++ name ++ " layout changed since boot; reboot before loading rules"))
    | none => .ok ()

/-- The partitions of a module's entries, all of which go to VFS or nowhere. -/
def entryPartitions (layout : Plan.PartitionLayout) (rules : Plan.ModuleRulesView) :
    List Plan.ModuleEntry → Except Error (List String)
  | [] => .ok []
  | entry :: rest =>
    let mode := rules.resolveMode entry.relative
    if mode = .ignore then entryPartitions layout rules rest
    else if mode ≠ .vfs then
      .error (.msg
      "hot operations require a pure VFS configured module; skipped partitions cannot hide other backends")
    else do
      let names ← entryPartitions layout rules rest
      .ok (layout.logicalPartition entry.relative :: names)

/-- The deepest root above a path, the last one of equal depth. -/
def deepestRoot (path : String) (roots : List (String × Plan.Names)) : Option String :=
  ((roots.filter fun root => Path.startsWith path (showPath root.2)).foldl (fun best root =>
    match best with
    | some (chosen : String × Plan.Names) => if root.2.length < chosen.2.length then best else some root
    | none => some root) none).map Prod.fst

/-- The partitions of the rules which the module has already, whose sources may be gone. -/
def rulePartitions (baseline : Option LayoutRecord) (rules : List SavedRule) : List String :=
  match baseline with
  | none => []
  | some baseline => rules.filterMap fun rule => deepestRoot rule.virtualPath baseline.layout.roots

def aloneInput (installed : Installed) (module : Plan.ModuleRecord) : Plan.PlanInput where
  modules := [{ module with disabled := false }]
  config := installed.config
  layout := installed.layout.layout
  vfsAvailable := true

def overlappedTarget (mounts : List OwnedMount) (rules : List SavedRule) : Option String :=
  (rules.find? fun rule => mounts.any fun m => pathsOverlap rule.virtualPath m.target).map
    SavedRule.virtualPath

def planHotModule (installed : Installed) (baseline : Option LayoutRecord) (saved : Ledger)
    (module : Plan.ModuleRecord) :
    Except Error Plan.MountPlan := do
  Hot.checkOwnership saved module.id
  if module.skipMount || installed.config.isModuleBlacklisted module.id ||
      installed.pendingRemoval.contains module.id then
    .error (.msg "module is skipped, blacklisted, or pending removal")
  -- Loading for now does not depend on the persistent disable marker.
  let rules := Plan.ModuleRulesView.new module.id installed.config true
  let relevant ← entryPartitions installed.layout.layout rules module.entries
  ensureLayoutUnchanged baseline installed.layout saved.mounts
    (relevant ++ rulePartitions baseline (Hot.ownedBy saved module.id))
  let plan ← (Plan.buildPlan (aloneInput installed module)).mapError fun e => Error.msg (planErrorText e)
  if plan.magicModuleIds ≠ [] ∨ plan.overlayModuleIds ≠ [] ∨ plan.vfsModuleIds = [] then
    .error (.msg
      "hot operations require a pure VFS file plan; mixed backends require reboot")
  match overlappedTarget saved.mounts (plannedRules (recorded plan)) with
  | some target => .error (.msg ("VFS target overlaps an active managed mount: " ++ target))
  | none => .ok plan

end Policy

namespace Hot

/-- All installed modules, with the requested one enabled. -/
def configuredInput (installed : Installed) (moduleId : String) : Plan.PlanInput where
  modules := installed.modules.map fun m => if m.id = moduleId then { m with disabled := false } else m
  config := installed.config
  layout := installed.layout.layout
  vfsAvailable := true

/-- The request of a load or a reload. -/
def requestFor (installed : Installed) (baseline : Option LayoutRecord) (saved : Ledger) (moduleId : String) :
    Except Error Request := do
  match installed.modules.find? fun m => m.id = moduleId with
  | none => .error (.msg "installed module not found")
  | some module =>
    -- The complete configured plan has to be valid as well.
    let _ ← (Plan.buildPlan (configuredInput installed moduleId)).mapError fun e =>
      Error.msg (planErrorText e)
    let plan ← Policy.planHotModule installed baseline saved module
    .ok ⟨recorded plan, installed.isolateUids,
      some ⟨module.id, !installed.config.isModuleBlacklisted module.id⟩⟩

end Hot

end HybridMount
