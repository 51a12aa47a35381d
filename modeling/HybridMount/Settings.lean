import HybridMount.Planner
import HybridMount.Text

/-! The configuration of the daemon: its defaults, how a patch changes it, and how it is read from
and written to its file. The module blacklists are files of their own. -/

namespace HybridMount.Settings

open Plan (Mode validModuleId)

inductive OverlayMode where
  | tmpfs
  | ext4
  deriving DecidableEq, Repr

/-- A validated module id. -/
structure ModuleId where
  id : String
  valid : validModuleId id = true
  deriving DecidableEq

def ModuleId.order (left right : ModuleId) : Ordering := compare left.id right.id

instance : Std.LawfulEqCmp ModuleId.order where
  compare_self := by simp [ModuleId.order]
  eq_of_compare {left right} h := by
    have hid : left.id = right.id := Std.LawfulEqCmp.eq_of_compare h
    cases left
    cases right
    cases hid
    rfl

instance : Std.TransCmp ModuleId.order := inferInstanceAs (Std.TransCmp (compareOn ModuleId.id))

structure ModuleRule where
  defaultMode : Option Mode := none
  paths : OrderedMap.Map String Mode compare := .empty

inductive LegacyPartitions where
  | names (names : List String)
  | commaSeparated (names : String)

abbrev Rules := OrderedMap.Map ModuleId ModuleRule ModuleId.order

abbrev Blacklist := OrderedMap.Map ModuleId Unit ModuleId.order

variable {τ : Type}

/-- `τ` are the values of TOML, which the retired custom mounts hold. -/
structure Config (τ : Type) where
  moduledir : String := "/data/adb/modules"
  overlayMode : OverlayMode := .ext4
  disableUmount : Bool := false
  defaultMode : Mode := .overlay
  extraMount : List String := []
  vfsStrict : Bool := false
  vfsIsolateUids : List UInt32 := []
  rules : Rules := .empty
  moduleBlacklist : Blacklist := .empty
  configMissing : Bool := false
  legacyMountsource : Option String := none
  legacyPartitions : Option LegacyPartitions := none
  legacyCustomMounts : List τ := []
  legacyDaemonStartupMode : Option String := none

/-- What is written of a configuration: neither the blacklist nor what older releases wrote. -/
def Config.persisted (config : Config τ) : Config τ :=
  { config with
    moduleBlacklist := .empty
    configMissing := false
    legacyMountsource := none
    legacyPartitions := none
    legacyCustomMounts := []
    legacyDaemonStartupMode := none }

/-- The planner's view of the configuration. -/
def Config.toPlan (config : Config τ) : Plan.Config where
  defaultMode := config.defaultMode
  rules := config.rules.entries.map fun entry => (entry.1.id, ⟨entry.2.defaultMode, entry.2.paths.entries⟩)
  moduleBlacklist := config.moduleBlacklist.keys.map ModuleId.id

inductive ErrorKind where
  | notFound
  | other
  deriving DecidableEq

inductive Error where
  | configRead (path : String) (source : ErrorKind)
  | configParse (path : String)
  | tomlParse
  | tomlSerialize
  | unsupportedGlobalDefaultMode
  | moduleBlacklistRead (path : String)
  | moduleBlacklistParse (path : String)
  | invalidBlacklistModuleId (path : String) (moduleId : String)
  | msg (text : String)
  deriving DecidableEq

/-- The serializers of the tables; a blacklist file holds a list of texts. -/
structure Toml (τ : Type) where
  fromStr : String → Option (Config τ)
  toStringPretty : Config τ → Option String
  blacklist : String → Option (List String)

/-- What is read back is what was written. -/
def Toml.RoundTrip (toml : Toml τ) : Prop := ∀ config text, toml.toStringPretty config = some text →
    toml.fromStr text = some config.persisted

/-- What a path leads to. -/
inductive Node where
  | absent
  | regular (text : Option String)
  /-- The link's own target: none where it dangles. -/
  | symlink (target : Option (Option String))
  /-- The directory cannot be searched. -/
  | hidden
  deriving DecidableEq

/-- `fs::read_to_string` -/
def Node.readToString : Node → Except ErrorKind String
  | .absent => .error .notFound
  | .regular (some text) => .ok text
  | .regular none => .error .other
  | .symlink none => .error .notFound
  | .symlink (some (some text)) => .ok text
  | .symlink (some none) => .error .other
  | .hidden => .error .other

structure Disk where
  config : Node
  parentIsDir : Bool
  bundled : Node
  persistent : Node

def CONFIG_PATH : String := "/data/adb/hybrid-mount/config.toml"

def MODULE_BLACKLIST_PATH : String := "/data/adb/hybrid-mount/module_blacklist.toml"

def BUNDLED_MODULE_BLACKLIST_PATH : String := "/data/adb/modules/hybrid_mount/module_blacklist.toml"

variable (toml : Toml τ)

/-- The module id an entry of a blacklist file stands for. -/
def entryId (entry : String) : String := String.ofList (Text.trim entry.toList)

def addBlacklisted (path : String) (blacklist : Blacklist) (entry : String) : Except Error Blacklist :=
  let id := entryId entry
  if id = "" then .ok blacklist
  else if h : validModuleId id = true then .ok (blacklist.add ⟨id, h⟩)
  else .error (.invalidBlacklistModuleId path id)

def readModuleBlacklist (path : String) (node : Node) : Except Error Blacklist :=
  match node.readToString with
  | .error .notFound => .ok .empty
  | .error .other => .error (.moduleBlacklistRead path)
  | .ok text =>
    match toml.blacklist text with
    | none => .error (.moduleBlacklistParse path)
    | some entries => entries.foldlM (addBlacklisted path) .empty

def Config.extendBlacklist (config : Config τ) (more : Blacklist) : Config τ :=
  { config with moduleBlacklist := more.keys.foldl OrderedMap.Map.add config.moduleBlacklist }

def loadModuleBlacklists (disk : Disk) (config : Config τ) : Except Error (Config τ) := do
  let bundled ← readModuleBlacklist toml BUNDLED_MODULE_BLACKLIST_PATH disk.bundled
  let persistent ← readModuleBlacklist toml MODULE_BLACKLIST_PATH disk.persistent
  return (config.extendBlacklist bundled).extendBlacklist persistent

def fromToml (text : String) : Except Error (Config τ) :=
  match toml.fromStr text with
  | none => .error .tomlParse
  | some config => if config.defaultMode = .ignore then .error .unsupportedGlobalDefaultMode else .ok config

def load (disk : Disk) : Except Error (Config τ) :=
  match disk.config.readToString with
  | .error source => .error (.configRead CONFIG_PATH source)
  | .ok text =>
    match fromToml toml text with
    | .error .tomlParse => .error (.configParse CONFIG_PATH)
    | .error err => .error err
    | .ok config => loadModuleBlacklists toml disk config

def finishLoaded (config : Config τ) : Config τ :=
  { config with
    legacyMountsource := none
    legacyPartitions := none
    legacyCustomMounts := []
    legacyDaemonStartupMode := none }

def defaultsForMissing (disk : Disk) : Except Error (Config τ) :=
    loadModuleBlacklists toml disk { configMissing := true }

def Error.isMissing : Error → Bool
  | .configRead _ .notFound => true
  | _ => false

def mainConfigIsGenuinelyMissing (disk : Disk) : Bool := disk.config = .absent && disk.parentIsDir

def loadAllowingMissing (disk : Disk) (requireGenuinelyMissing : Bool) : Except Error (Config τ) :=
  match load toml disk with
  | .ok config => .ok (finishLoaded config)
  | .error err =>
    if err.isMissing && (!requireGenuinelyMissing || mainConfigIsGenuinelyMissing disk)
      then defaultsForMissing toml disk
    else .error err

def loadForBoot (disk : Disk) : Except Error (Config τ) := loadAllowingMissing toml disk true

def loadOrDefault (disk : Disk) : Except Error (Config τ) :=
  match loadAllowingMissing toml disk false with
  | .ok config => .ok config
  | .error (.configRead _ _) => loadModuleBlacklists toml disk {}
  | .error (.configParse _) => loadModuleBlacklists toml disk {}
  | .error .unsupportedGlobalDefaultMode => loadModuleBlacklists toml disk {}
  | .error err => .error err

/-- What the calls outside do to a save: the directories are made or not, and the atomic write fails,
reports success, or reports a failure although the file was replaced. -/
inductive Answer where
  | noDirectory
  | unwritten
  | unsynced
  | written
  deriving DecidableEq

/-- The result of a command and the file as it leaves it. -/
def save (answer : Answer) (config : Config τ) (disk : Disk) : Except Error Unit × Disk :=
  if config.defaultMode = .ignore then (.error .unsupportedGlobalDefaultMode, disk)
  else
    match disk.config with
    | .symlink _ =>
      (.error (.msg ("refusing to replace symlinked config file " ++ CONFIG_PATH ++
        "; remove the symlink and save a regular file")), disk)
    | .hidden => (.error (.configRead CONFIG_PATH .other), disk)
    | _ =>
      match answer, toml.toStringPretty config with
      | .noDirectory, _ => (.error (.msg "create config parent directory /data/adb/hybrid-mount"), disk)
      | _, none => (.error .tomlSerialize, disk)
      | .unwritten, some _ => (.error (.msg ("atomically save config " ++ CONFIG_PATH)), disk)
      | .unsynced, some text =>
        (.error (.msg ("atomically save config " ++ CONFIG_PATH)),
          { disk with config := .regular (some text), parentIsDir := true })
      | .written, some text => (.ok (), { disk with config := .regular (some text), parentIsDir := true })

def writeDefault (answer : Answer) (disk : Disk) : Except Error Unit × Disk := save toml answer {} disk

/-- `default_mode` of a patch tells a field which is absent from one which is null. -/
structure ModuleRulePatch where
  defaultMode : Option (Option Mode) := none
  paths : Option (OrderedMap.Map String Mode compare) := none

structure ConfigPatch where
  moduledir : Option String := none
  overlayMode : Option OverlayMode := none
  disableUmount : Option Bool := none
  defaultMode : Option Mode := none
  extraMount : Option (List String) := none
  rules : Option (OrderedMap.Map ModuleId ModuleRulePatch ModuleId.order) := none
  replaceRules : Option Bool := none

def ModuleRule.patch (rule : ModuleRule) (patch : ModuleRulePatch) : ModuleRule where
  defaultMode := patch.defaultMode.getD rule.defaultMode
  paths := patch.paths.getD rule.paths

def mergeRules (rules : Rules) (patches : OrderedMap.Map ModuleId ModuleRulePatch ModuleId.order) : Rules :=
  patches.entries.foldl (fun rules entry =>
    rules.insert entry.1 (((rules.get entry.1).getD {}).patch entry.2)) rules

def Config.applyPatch (config : Config τ) (patch : ConfigPatch) : Except Error (Config τ) :=
  if patch.defaultMode = some .ignore then .error .unsupportedGlobalDefaultMode
  else
    let rules := if patch.replaceRules.getD false then .empty else config.rules
    .ok { config with
      moduledir := patch.moduledir.getD config.moduledir
      overlayMode := patch.overlayMode.getD config.overlayMode
      disableUmount := patch.disableUmount.getD config.disableUmount
      defaultMode := patch.defaultMode.getD config.defaultMode
      extraMount := patch.extraMount.getD config.extraMount
      rules := match patch.rules with
        | none => rules
        | some patches => mergeRules rules patches }

/-- `payload` is the patch the argument decodes to, if it does. -/
def saveConfigPayload (answer : Answer) (payload : Except Error ConfigPatch) (disk : Disk) :
    Except Error Unit × Disk :=
  match payload with
  | .error err => (.error err, disk)
  | .ok patch =>
    match loadAllowingMissing toml disk false with
    | .error err => (.error err, disk)
    | .ok config =>
      match config.applyPatch patch with
      | .error err => (.error err, disk)
      | .ok config => save toml answer config disk

end HybridMount.Settings
