import HybridMount.Cleanup

/-! The boot sequence: open the generation, stage what the plan is going to
claim, apply the VFS part, and record what became of it. -/

namespace HybridMount

inductive VfsAction where
  | inject (virtualPath realPath : String)
  | whiteout (virtualPath : String)
  | opaqueDir (virtualPath : String)
  deriving DecidableEq, Repr

structure VfsRule where
  action : VfsAction
  moduleId : String
  deriving DecidableEq, Repr

structure EncodedRule where
  flags : UInt32
  virtualPath : String
  realPath : String
  deriving DecidableEq, Repr

def encodeRule (rule : VfsRule) : EncodedRule :=
  match rule.action with
  | .inject virtualPath realPath => ⟨0, virtualPath, realPath⟩
  | .whiteout virtualPath => ⟨FLAG_WHITEOUT, virtualPath, ""⟩
  | .opaqueDir virtualPath => ⟨FLAG_OPAQUE, virtualPath, ""⟩

/-- The record sent for a rule of the boot batch, which is global. -/
def EncodedRule.record (rule : EncodedRule) : SavedRule :=
  ⟨"", rule.virtualPath, rule.realPath, rule.flags, 0⟩

def savedRule (rule : VfsRule) : SavedRule := { (encodeRule rule).record with moduleId := rule.moduleId }

/-- The parts of a mount plan which the ownership records depend on. -/
structure MountPlan where
  rules : List VfsRule
  vfsModuleIds : List String
  magicModuleIds : List String
  overlayModuleIds : List String

def plannedRules (plan : MountPlan) : List SavedRule := plan.rules.map savedRule

inductive RuleFormat where
  | hybridMount
  | nomountLegacy
  | nomount22
  deriving DecidableEq, Repr

def RuleFormat.extraBytes : RuleFormat → Nat
  | nomount22 => 12
  | _ => 0

def BUFFER_LEN : Nat := 4068

def RULE_HEADER_LEN : Nat := 12

def EncodedRule.recordLen (rule : EncodedRule) : Nat :=
  RULE_HEADER_LEN + rule.virtualPath.utf8ByteSize + rule.realPath.utf8ByteSize

/-- Can the batch be encoded for the provider at all? -/
def buildAddRulePayloads (format : RuleFormat) : List EncodedRule → Except Error Unit
  | [] => .ok ()
  | rule :: rest =>
    if format ≠ .hybridMount ∧ rule.flags &&& FLAG_OPAQUE ≠ 0 then
      .error (.vfsProtocol "Hybrid Mount opaque directory rules require the hybridmount provider")
    else if rule.recordLen + format.extraBytes > BUFFER_LEN then
      .error (.vfsProtocol ("single rule needs " ++
        toString (rule.recordLen + format.extraBytes) ++ " bytes"))
    else buildAddRulePayloads format rest

structure VfsExecStats where
  mountedModuleIds : List String
  activeTargets : List String
  failure : Option String
  deriving DecidableEq, Repr

def vfsFailureStats (detail : String) : VfsExecStats := ⟨[], [], some detail⟩

structure VfsApplied where
  stats : VfsExecStats
  rules : List EncodedRule

def planRules (plan : MountPlan) : VfsApplied :=
  let encoded := plan.rules.map encodeRule
  ⟨⟨plan.vfsModuleIds, encoded.map EncodedRule.virtualPath, none⟩, encoded⟩

def missingRules (expected : List EncodedRule) (listed : List SavedRule) : List String :=
  (expected.map EncodedRule.virtualPath).filter fun path => !(listed.map SavedRule.virtualPath).contains path

/-- The parts of the run state file which the ownership records depend on. -/
structure RunState where
  overlayActiveMounts : List String
  magicActiveMounts : List String
  vfsActiveMounts : List String
  leftoverMountTargets : List String
  mountPoint : String

def runtimeMountTargets (state : RunState) (effects : List String) : List String :=
  let targets := state.overlayActiveMounts ++ state.magicActiveMounts ++ state.leftoverMountTargets ++ effects
  let all := if state.mountPoint = "" then targets else targets ++ [state.mountPoint]
  all.dedup.insertionSort fun a b => (compare a b).isLE

def ownedUids (requested original observed : List UInt32) : List UInt32 :=
  observed.filter fun uid => requested.contains uid && !original.contains uid

/-- Every advertised rule has to match at the ownership commit. -/
def confirmBootRules (planned observed : List SavedRule) : List String → Except Error Unit
  | [] => .ok ()
  | target :: rest =>
    match planned.find? fun r => r.virtualPath == target with
    | none => .error (.bootRuleUnplanned target)
    | some expected =>
      if observed.any (semanticEqual expected) then confirmBootRules planned observed rest
      else .error (.bootRuleChanged target)

/-- The first of several equal uids stays where it is. -/
def dedupeUids : List UInt32 → List UInt32
  | [] => []
  | uid :: rest => uid :: (dedupeUids rest).filter (· ≠ uid)

@[simp] theorem mem_dedupeUids {uids : List UInt32} {uid : UInt32} : uid ∈ dedupeUids uids ↔ uid ∈ uids := by
  induction uids with
  | nil => simp [dedupeUids]
  | cons x xs ih =>
    by_cases hx : uid = x
    · simp [dedupeUids, hx]
    · simp [dedupeUids, hx, ih]

structure BootSession where
  baseline : List MountEntry
  originalUids : List UInt32

namespace Boot

open Traced

structure Config where
  isolateUids : List UInt32
  vfsStrict : Bool

/-- What a VFS phase finds outside the rule table: the verdict of the crash
guard, which may ask for the phase to be skipped, and the provider. -/
structure VfsEntry where
  guard : Except String Unit
  arm : Except Error Unit
  active : Probe
  format : RuleFormat

variable {τ : Type}

def stagedLedger (saved : Ledger) (plan : MountPlan) (requested : List UInt32) (nomount : Bool) : Ledger :=
  { saved with
    pendingRules := plannedRules plan
    vfsProvider :=
      if plannedRules plan = [] then none
      else some (if nomount then VfsProvider.nomount.asStr else VfsProvider.hm.asStr)
    isolatedUids := requested
    nonVfsModules := (plan.magicModuleIds ++ plan.overlayModuleIds).dedup }

def stagePlan (host : Host) (plan : MountPlan) (requested : List UInt32) (nomount : Bool) : Op τ Unit := do
  let saved ← Device.load host
  Op.persist (stagedLedger saved plan requested nomount)

/-- A failure that a boot without strict VFS survives. -/
def degrade (strict : Bool) (e : Error) : Except Error VfsExecStats :=
  if strict then .error e else .ok (vfsFailureStats e.message)

def attach (active : Probe) (nomount : Bool) : Except Error Unit := do
  let provider ← active
  if (provider = .nomount) ≠ (nomount = true)
    then .error (.msg "VFS provider changed after planning") else .ok ()

/-- How the VFS phase ends: with an answer, or in a panic that unwinds the boot. -/
inductive PhaseEnd where
  | returned (outcome : Except Error VfsExecStats)
  | panicked

variable [RuleTable τ]

def start (host : Host) (active : Probe) : Op τ BootSession := do
  let saved ← Device.load host
  Prog.ofExcept saved.requireClean
  let baseline ← Op.mountinfo
  let originalUids ← Device.reportUntrackedVfs active
  Op.persist { saved with generation := saved.generation + 1, phase := .applying, error := none }
  return ⟨baseline, originalUids⟩

/-- An empty batch sends no page. -/
def sendRules (rules : List EncodedRule) : Op τ Unit :=
  if rules = [] then pure () else Op.put (rules.map EncodedRule.record)

def removeRules (rules : List EncodedRule) : Op τ Unit :=
  if rules = [] then pure () else Op.delete (rules.map EncodedRule.record)

def applyRules (batch : List EncodedRule) (uids : List UInt32) : Op τ Unit := do
  sendRules batch
  if dedupeUids uids ≠ [] then Op.addUids (dedupeUids uids)

/-- A NoMount batch must not collide with a rule of somebody else. -/
def preflightNomount (format : RuleFormat) (batch : List EncodedRule) : Op τ Unit := do
  Prog.ofExcept (buildAddRulePayloads format batch)
  let existing ← Op.list
  match existing.find? fun rule => rule.uid == 0 && !derivedParent rule &&
      (batch.map EncodedRule.virtualPath).contains rule.virtualPath with
  | some rule => Prog.fail (.msg ("NoMount already has a rule for " ++ rule.virtualPath))
  | none => return ()

/-- The failure of an apply whose rules were removed again; its uids stay. -/
def applyRulesWithPolicy (batch : List EncodedRule) (uids : List UInt32) (strict : Bool) :
    Op τ (Option String) := do
  match ← Prog.attempt (applyRules batch uids) with
  | .ok _ => return none
  | .error err =>
    match ← Prog.attempt (removeRules batch) with
    | .error cleanup =>
      Prog.fail (.vfsProtocol ("vfs apply failed and targeted cleanup failed: " ++ cleanup.message ++
        "; apply error: " ++ err.message))
    | .ok _ => if strict then Prog.fail err else return some err.message

/-- Read the table back, since an acknowledged batch is no proof of its rules. The backend stays
borrowed while the answer is looked at, so the cleanup after a bad one panics on its own borrow. -/
def confirmApplied (batch : VfsApplied) : Op τ (List EncodedRule × PhaseEnd) := do
  match ← Prog.attempt Op.list with
  | .ok listed =>
    if missingRules batch.rules listed = [] then return (batch.rules, .returned (.ok batch.stats))
    else return (batch.rules, .panicked)
  | .error _ => return (batch.rules, .panicked)

/-- The rules left to the rollback of the boot, and the end of the phase. -/
def applyVfsPhase (config : Config) (plan : MountPlan) (nomount : Bool) (entry : VfsEntry) :
    Op τ (List EncodedRule × PhaseEnd) := do
  if plan.vfsModuleIds = [] then return ([], .returned (.ok ⟨[], [], none⟩))
  else
    match entry.guard, entry.arm, attach entry.active nomount with
    | .error detail, _, _ => return ([], .returned (.ok (vfsFailureStats detail)))
    | .ok _, .error err, _ => return ([], .returned (.error err))
    | .ok _, .ok _, .error err => return ([], .returned (degrade config.vfsStrict err))
    | .ok _, .ok _, .ok _ =>
      let planned := planRules plan
      match ← Prog.attempt (if nomount then preflightNomount entry.format planned.rules else pure ()) with
      | .error err => return ([], .returned (degrade config.vfsStrict err))
      | .ok _ =>
        match ← Prog.attempt (applyRulesWithPolicy planned.rules config.isolateUids config.vfsStrict) with
        | .error err => return (planned.rules, .returned (.error err))
        | .ok (some failure) =>
          return ([], .returned (.ok
            (vfsFailureStats ("VFS apply failed; rules were rolled back: " ++ failure))))
        | .ok none => confirmApplied planned

def rollbackVfsRules (registered : List EncodedRule) : Op τ Unit :=
  if registered = [] then pure () else removeRules registered

/-- A rejected NoMount batch may have collided with an identical external rule. -/
def forgetRejected (saved : Ledger) (state : RunState) : Ledger :=
  if saved.vfsProvider = some VfsProvider.nomount.asStr ∧ state.vfsActiveMounts = [] then
    { saved with pendingRules := [], isolatedUids := [] }
  else saved

def adopted (saved : Ledger) (session : BootSession) (current : List SavedRule)
    (observed : List UInt32) : Ledger :=
  { saved with
    rules := saved.pendingRules.filter fun expected => current.any (semanticEqual expected)
    isolatedUids := ownedUids saved.isolatedUids session.originalUids observed }

def finished (saved : Ledger) (modules : List AppModule) (verification : Except Error Unit)
    (successful : Bool) : Ledger :=
  { saved with
    modules := modules
    pendingRules := if verification.toOption.isSome then [] else saved.pendingRules
    phase := if successful && verification.toOption.isSome then .ready else .error
    error :=
      match verification with
      | .error e => some e.message
      | .ok _ => if successful then none else some "boot pipeline failed; inspect status before recovery" }

def openOrInspect (active : Probe) (saved : Ledger) : Except Error Unit :=
  if saved.vfsProvider.isSome then Device.openKernel active saved else active.map fun _ => ()

/-- The rules and uids which the kernel confirms, and the verdict on the advertised ones. -/
def confirmVfs (active : Probe) (session : BootSession) (state : RunState) (saved : Ledger) :
    Op τ (Ledger × Except Error Unit) :=
  if saved.pendingRules ≠ [] ∨ Device.available active then do
    Prog.ofExcept (openOrInspect active saved)
    let current ← Op.list
    let observed ← Op.uids
    return (adopted saved session current observed,
      confirmBootRules saved.pendingRules current state.vfsActiveMounts)
  else return ({ saved with isolatedUids := [] }, .ok ())

/-- What `finish` reads besides the ledger and the kernel. -/
structure Outcome where
  successful : Bool
  state : RunState
  effects : List String
  unmounts : List String
  modules : Except Error (List AppModule)
  active : Probe

def finish (host : Host) (session : BootSession) (outcome : Outcome) : Op τ Unit := do
  let saved ← Device.load host
  let targets := runtimeMountTargets outcome.state outcome.effects
  let current ← Mounts.snapshot
  let mounts ← Prog.ofExcept (captureSnapshot targets (identities session.baseline) current)
  let saved := { saved with mounts := mounts, ksuUnmounts := some outcome.unmounts }
  let (saved, verification) ← confirmVfs outcome.active session outcome.state
    (forgetRejected saved outcome.state)
  let modules ← Prog.ofExcept outcome.modules
  Op.persist (finished saved modules verification outcome.successful)
  Prog.ofExcept verification

end Boot

end HybridMount
