import HybridMount.BootLoad
import HybridMount.HotOwnership
import HybridMount.HotPlan
import HybridMount.VfsShares

/-! What is live after a boot and any sequence of successful hot operations: each active module has
its share of the boot's plan or the rules of a plan of its own. -/

namespace HybridMount

open Traced

namespace Hot

variable {host : Host} {m₁ m : Machine FlatTable} {moduleId : String} {action : HotAction}
  {request : Except Error Request}

open Boot (Leaves query_leaves check_leaves load_leaves persist_leaves read_leaves)

/-- What a hot operation that returns has done to the table and to the records. -/
structure Commits (host : Host) (action : HotAction) (moduleId : String) (wanted : Request)
    (m₁ m : Machine FlatTable) : Prop where
  admitted : checkAction action (ownedBy (m₁.effective host) moduleId) = .ok ()
  accepted : ∃ foreign, validateSnapshot m₁.rules.rules (ownedBy (m₁.effective host) moduleId)
    (plannedRules wanted.plan) = .ok foreign
  table : m.rules = Rules.target (ownedBy (m₁.effective host) moduleId) (plannedRules wanted.plan) m₁.rules
  records : (m.effective host).rules =
    Transaction.desiredRules (m₁.effective host) (ownedBy (m₁.effective host) moduleId)
      (plannedRules wanted.plan)

theorem apply_commits (active : Probe) (guard : Except Error Unit) :
    Leaves (· = m₁) (apply host active guard action moduleId request)
      (fun _ m => ∃ wanted, requested action request = .ok wanted ∧ Commits host action moduleId wanted m₁ m)
        fun _ _ => True := by
  have hcheck : ∀ {α : Type} (x : Except Error α), Leaves (· = m₁) (Prog.ofExcept x) (fun _ m => m = m₁)
      fun _ _ => True :=
    fun x => check_leaves.weaken (fun _ _ hs => hs.1) fun _ _ hs => hs
  refine Sat.bind load_leaves fun saved => Sat.given ?_
  rintro rfl
  refine Sat.bind (hcheck _) fun _ => ?_
  refine Sat.bind (hcheck _) fun _ => ?_
  refine Sat.bind (hcheck _) fun _ => ?_
  refine Sat.bind (hcheck _) fun provider => ?_
  let saved : Ledger := { m₁.effective host with vfsProvider := some provider.asStr }
  have howned : Leaves (· = m₁) (Rules.verifyOwned saved.rules) (fun _ m => m = m₁) fun _ _ => True :=
    Sat.bind (query_leaves.weaken (fun _ _ hs => hs.1) fun _ _ hs => hs) fun _ => hcheck _
  have hvalidate : Leaves (· = m₁) (Mounts.validate saved.mounts) (fun _ m => m = m₁) fun _ _ => True := by
    have hh : Leaves (· = m₁) (Mounts.validate saved.mounts) (fun _ m => m = m₁) fun _ m => m = m₁ :=
      Mounts.validate_invariant fun _ _ _ => trivial
    exact hh.weaken (fun _ _ hs => hs) fun _ _ _ => trivial
  refine Sat.bind howned fun _ => Sat.bind hvalidate fun _ => Sat.bind (hcheck _) fun _ => ?_
  refine Sat.bind check_leaves fun _ => Sat.given fun hadmitted => ?_
  refine Sat.bind check_leaves fun wanted => Sat.given fun hwanted => ?_
  have hpreflight : Leaves (· = m₁) (Rules.preflight (ownedBy saved moduleId) (plannedRules wanted.plan))
      (fun _ m => m = m₁ ∧ ∃ foreign, validateSnapshot m₁.rules.rules (ownedBy saved moduleId)
      (plannedRules wanted.plan) = .ok foreign)
      fun _ _ => True := by
    refine Sat.bind query_leaves fun current => Sat.given ?_
    rintro rfl
    exact Sat.bind check_leaves fun foreign => Sat.pure fun _ hs => ⟨hs.1, foreign, hs.2⟩
  refine Sat.bind hpreflight fun _ => Sat.given ?_
  rintro ⟨foreign, hsnapshot⟩
  let c : Attempt := ⟨saved, ownedBy saved moduleId, plannedRules wanted.plan, wanted.isolateUids, m₁⟩
  have hacc : c.Accepted foreign := ⟨hsnapshot, List.filter_subset_self _⟩
  have hrec : Leaves (· = m₁)
      (Transaction.reconcile saved (ownedBy saved moduleId) (plannedRules wanted.plan) wanted.isolateUids)
      (fun committed m => m.rules = Rules.target (ownedBy saved moduleId) (plannedRules wanted.plan)
        m₁.rules ∧ committed = c.committed)
      fun _ _ => True := by
    refine ((Attempt.reconcile_guarded hacc).guarantee fun _ _ => trivial).weaken (fun _ _ hs => ?_)
      fun _ _ _ => trivial
    exact ⟨hs.2.rules, hs.1⟩
  refine Sat.bind hrec fun committed => Sat.given ?_
  rintro rfl
  let updated := refreshed c.committed moduleId wanted.updatedModule
  have hboot : updated.bootId = host.bootId := @effective_bootId host FlatTable m₁
  let Target : Machine FlatTable → Prop := fun m =>
    m.rules = Rules.target (ownedBy saved moduleId) (plannedRules wanted.plan) m₁.rules
  have hpersist : ∀ l : Ledger, Leaves Target (Op.persist l) (fun _ m => Target m ∧ m.stored = some l)
      fun _ _ => True := by
    intro l
    refine Ensures.of_eq fun m hm => persist_leaves.weaken (fun _ s hs => ?_) fun _ _ hs => hs
    rw [hs]
    exact ⟨hm, rfl⟩
  refine Sat.bind ((hpersist { updated with phase := .syncing }).weaken (fun _ _ hs => hs.1) fun _ _ hs => hs)
    fun _ => ?_
  refine Sat.bind ((read_leaves (P := Target)).weaken (fun _ _ hs => hs) fun _ _ _ => trivial) fun _ => ?_
  refine Sat.bind (hpersist { updated with phase := .ready }) fun _ => Sat.pure fun s hs => ?_
  refine ⟨wanted, hwanted, hadmitted, ⟨foreign, hsnapshot⟩, hs.1, ?_⟩
  have hstored : s.machine.effective host = { updated with phase := .ready } := by
    rw [Machine.effective, hs.2]
    exact if_pos hboot
  rw [hstored]
  rfl

namespace Commits

variable {wanted : Request} {x : SavedRule}

theorem mem_rules (h : Commits host action moduleId wanted m₁ m) : x ∈ (m.effective host).rules ↔
    (x ∈ (m₁.effective host).rules ∧ x.moduleId ≠ moduleId) ∨ x ∈ plannedRules wanted.plan := by
  rw [h.records, Transaction.desiredRules, List.mem_append, List.mem_filter]
  refine or_congr_left (and_congr_right fun hx => ?_)
  simp only [Bool.not_eq_true', List.any_eq_false, beq_iff_eq]
  constructor
  · intro hno hid
    exact hno x (List.mem_filter.mpr ⟨hx, beq_iff_eq.mpr hid⟩) rfl
  · intro hid old hold hsame
    exact hid (hsame.symm.trans (beq_iff_eq.mp (List.mem_filter.mp hold).2))

theorem apart (h : Commits host action moduleId wanted m₁ m)
    (hkeys : ((m₁.effective host).rules.map SavedRule.key).Nodup)
    (hlive : Holds (m₁.effective host).rules m₁) (hx : x ∈ (m₁.effective host).rules)
    (hid : x.moduleId ≠ moduleId) {y : SavedRule}
    (hy : y ∈ ownedBy (m₁.effective host) moduleId ++ plannedRules wanted.plan) : x.key ≠ y.key := by
  obtain ⟨foreign, haccepted⟩ := h.accepted
  have hforeign := (validateSnapshot_eq_ok.mp haccepted).2.2.2.1
  refine @key_ne_of_accepted _ _ _ _ haccepted (wire x) _ ?_ hy
  rw [hforeign, mem_foreignRules]
  refine ⟨(hlive _).mpr ⟨x, hx, rfl⟩, fun owned howned hkey => hid ?_⟩
  obtain ⟨howned, hown⟩ := List.mem_filter.mp howned
  rw [← List.inj_on_of_nodup_map hkeys howned hx hkey]
  exact beq_iff_eq.mp hown

theorem keys (h : Commits host action moduleId wanted m₁ m)
    (hkeys : ((m₁.effective host).rules.map SavedRule.key).Nodup)
    (hlive : Holds (m₁.effective host).rules m₁) : ((m.effective host).rules.map SavedRule.key).Nodup := by
  obtain ⟨foreign, haccepted⟩ := h.accepted
  rw [h.records, Transaction.desiredRules, List.map_append, List.nodup_append]
  refine ⟨hkeys.sublist (List.filter_sublist.map _), (validateSnapshot_eq_ok.mp haccepted).2.1, ?_⟩
  rintro key hkept key' hnew rfl
  obtain ⟨x, hx, rfl⟩ := List.mem_map.mp hkept
  obtain ⟨y, hy, hkey⟩ := List.mem_map.mp hnew
  obtain ⟨hx, hno⟩ := List.mem_filter.mp hx
  simp only [Bool.not_eq_true', List.any_eq_false, beq_iff_eq] at hno
  refine h.apart hkeys hlive hx (fun hid => ?_) (List.mem_append_right _ hy) hkey.symm
  exact hno x (List.mem_filter.mpr ⟨hx, beq_iff_eq.mpr hid⟩) rfl

theorem holds (h : Commits host action moduleId wanted m₁ m)
    (hkeys : ((m₁.effective host).rules.map SavedRule.key).Nodup)
    (hlive : Holds (m₁.effective host).rules m₁) : Holds (m.effective host).rules m := by
  obtain ⟨foreign, haccepted⟩ := h.accepted
  intro r
  rw [h.table, Rules.mem_target haccepted]
  constructor
  · rintro (⟨a, ha, rfl⟩ | ⟨hr, hobsolete, hnew⟩)
    · exact ⟨a, h.mem_rules.mpr (.inr ha), rfl⟩
    · obtain ⟨x, hx, rfl⟩ := (hlive r).mp hr
      refine ⟨x, h.mem_rules.mpr (.inl ⟨hx, fun hid => ?_⟩), rfl⟩
      have hbefore : x ∈ ownedBy (m₁.effective host) moduleId := List.mem_filter.mpr ⟨hx, beq_iff_eq.mpr hid⟩
      exact hobsolete x (mem_obsoleteRules.mpr ⟨hbefore, hnew⟩) rfl
  · rintro ⟨x, hx, rfl⟩
    rcases h.mem_rules.mp hx with ⟨hx, hid⟩ | hnew
    · refine .inr ⟨(hlive _).mpr ⟨x, hx, rfl⟩, fun y hy => ?_, fun y hy => ?_⟩
      · exact h.apart hkeys hlive hx hid (List.mem_append_left _ (mem_obsoleteRules.mp hy).1)
      · exact h.apart hkeys hlive hx hid (List.mem_append_right _ hy)
    · exact .inl ⟨x, hnew, rfl⟩

end Commits

end Hot

/-- A hot operation with what it meets. -/
structure HotCall where
  action : HotAction
  moduleId : String
  active : Probe
  guard : Except Error Unit
  faults : List (Option Fault)

namespace Installed

/-- What a boot plans with VFS at hand. -/
def bootInput (installed : Installed) : Plan.PlanInput where
  modules := installed.modules
  config := installed.config
  layout := installed.layout.layout
  vfsAvailable := true

/-- The same with exactly these modules enabled. -/
def inputWith (installed : Installed) (enabled : String → Bool) : Plan.PlanInput :=
  { installed.bootInput with modules := installed.modules.map fun m => { m with disabled := !enabled m.id } }

end Installed

/-- The call of a load, reload or unload on a machine. -/
def HotCall.run (call : HotCall) (installed : Installed) (host : Host) (m : Machine FlatTable) :
    Run (Session FlatTable) (Event FlatTable) Error Nat :=
  Hot.apply host call.active call.guard call.action call.moduleId
    (Hot.requestFor installed (some installed.layout) (m.effective host) call.moduleId) ⟨m, call.faults⟩

/-- A boot into an empty rule table and hot operations after it, all of which returned; the last operation
comes first in the list. -/
inductive Ran (installed : Installed) (host : Host) : Plan.MountPlan → List String → List HotCall →
    Machine FlatTable → Prop
  | boot {m : Machine FlatTable} {plan : Plan.MountPlan} {active : Probe} {config : Boot.Config}
      {nomount : Bool} {entry : Boot.VfsEntry}
      {outcome : Boot.Outcome} {faults : List (Option Fault)} {stats : VfsExecStats}
      (hempty : m.rules.rules = [])
      (hplan : Plan.buildPlan installed.bootInput = .ok plan)
      (hok : (Boot.complete host active (recorded plan) config nomount entry outcome ⟨m, faults⟩).result =
        .ok stats) :
      Ran installed host plan stats.mountedModuleIds []
        (Boot.complete host active (recorded plan) config nomount entry outcome ⟨m, faults⟩).state.machine
  | hot {m : Machine FlatTable} {plan : Plan.MountPlan} {loaded : List String} {calls : List HotCall}
      {generation : Nat}
      (call : HotCall) (hrun : Ran installed host plan loaded calls m)
      (hok : (call.run installed host m).result = .ok generation) :
      Ran installed host plan loaded (call :: calls) (call.run installed host m).state.machine

/-- What the last operation on a module was. -/
def lastAction (calls : List HotCall) (moduleId : String) : Option HotAction :=
  (calls.find? fun call => call.moduleId = moduleId).map HotCall.action

/-- The boot, or the last operation on it, has left the module loaded. -/
def isActive (loaded : List String) (calls : List HotCall) (moduleId : String) : Bool :=
  match lastAction calls moduleId with
  | some action => action ≠ .unload
  | none => loaded.contains moduleId

/-- The rules which a module has in a plan of itself alone. -/
def Installed.aloneRules (installed : Installed) (moduleId : String) : List SavedRule :=
  match installed.modules.find? fun m => m.id = moduleId with
  | none => []
  | some module =>
    match Plan.buildPlan (Policy.aloneInput installed module) with
    | .error _ => []
    | .ok plan => plannedRules (recorded plan)

/-- The rules of a module when it is active: those of its own plan once it has been operated on, its
share of the boot's before. -/
def Installed.shareOf (installed : Installed) (plan : Plan.MountPlan) (calls : List HotCall)
    (moduleId : String) : List SavedRule :=
  match lastAction calls moduleId with
  | some _ => installed.aloneRules moduleId
  | none => (plannedRules (recorded plan)).filter fun rule => rule.moduleId = moduleId

section Names

open Plan (Names Slashless)

theorem segments_append {name rest first : List Char} {others : List (List Char)} (h : '/' ∉ name)
    (hrest : Path.segments rest = first :: others) :
    Path.segments (name ++ rest) = (name ++ first) :: others := by
  induction name with
  | nil => exact hrest
  | cons c name ih =>
    obtain ⟨hc, hname⟩ := not_or.mp (mt List.mem_cons.mpr h)
    rw [List.cons_append, Path.segments, if_neg fun hh => hc hh.symm, ih hname]
    rfl

theorem segments_pathText {path : Names} (h : Slashless path) :
    Path.segments (pathText path) = [] :: path.map String.toList := by
  induction path with
  | nil => rfl
  | cons name path ih =>
    have htext : pathText (name :: path) = '/' :: (name.toList ++ pathText path) := rfl
    rw [htext, Path.segments, if_pos rfl,
      segments_append (h name List.mem_cons_self) (ih fun n hn => h n (List.mem_cons_of_mem _ hn)),
        List.append_nil]
    rfl

theorem showPath_injective {path path' : Names} (h : Slashless path) (h' : Slashless path')
    (heq : showPath path = showPath path') :
    path = path' := by
  have htext : pathText path = pathText path' := String.ofList_injective heq
  have hsegments := congrArg Path.segments htext
  rw [segments_pathText h, segments_pathText h', List.cons.injEq] at hsegments
  exact List.map_injective_iff.mpr (fun _ _ => String.toList_injective) hsegments.2

theorem slashless_targetComponents {target : Names} (h : Slashless target) :
    Slashless (Plan.targetComponents target) := by
  intro name hname
  obtain ⟨hname, -⟩ := List.mem_filter.mp hname
  rcases List.mem_append.mp hname with hin | hlast
  · exact h name (List.dropLast_subset _ hin)
  · obtain ⟨last, hin, rfl⟩ := Option.map_eq_some_iff.mp (Option.mem_toList.mp hlast)
    have hmem := h last (List.mem_of_getLast? hin)
    rw [Plan.trimEnd, String.toList_ofList]
    exact fun hh => hmem ((List.rdropWhile_prefix _ _).subset hh)

theorem Installed.slashless_place (installed : Installed) (input : Plan.PlanInput)
    (hlayout : input.layout = installed.layout.layout)
    {d : Plan.EntryDecision} (h : Slashless d.entry.relative) : Slashless (input.place d) := by
  refine slashless_targetComponents ?_
  intro name hname
  rw [Plan.PlanInput.target, hlayout, Plan.PartitionLayout.targetOf] at hname
  rcases List.mem_append.mp hname with hroot | hrest
  · unfold Plan.PartitionLayout.rootOf at hroot
    cases hget : installed.layout.layout.root? (installed.layout.layout.logicalPartition d.entry.relative) with
    | some root =>
      rw [hget] at hroot
      exact installed.rootNames _ (OrderedMap.get_mem hget) name hroot
    | none =>
      rw [hget] at hroot
      obtain rfl := List.mem_singleton.mp hroot
      unfold Plan.PartitionLayout.logicalPartition
      split
      · decide
      · rename_i heq
        exact h _ (by simp [heq])
      · rename_i heq
        split
        · exact h _ (by simp [heq])
        · exact h _ (by simp [heq])
  · exact h name (List.mem_of_mem_drop hrest)

end Names

section Plans

open Plan (PlanInput buildPlan buildVfsRules planModules)

variable {input : PlanInput} {plan alone : Plan.MountPlan} {module : Plan.ModuleRecord} {x : SavedRule}

theorem mem_recorded : x ∈ plannedRules (recorded plan) ↔
    ∃ rule ∈ buildVfsRules plan.tree, savedRule (toRule rule) = x := by
  simp [plannedRules, recorded]

theorem planned_explicit {plan : MountPlan} (h : x ∈ plannedRules plan) : derivedParent x = false := by
  obtain ⟨rule, -, rfl⟩ := List.mem_map.mp h
  exact savedRule_explicit rule

theorem buildPlan_shows (h : buildPlan input = .ok plan) : ∃ builder, planModules input = .ok builder ∧
    plan.tree = builder.tree ∧
    plan.vfsModuleIds = builder.vfsModuleIds.keys := by
  obtain ⟨builder, hfinished⟩ := Plan.buildPlan_finished h
  obtain rfl := hfinished.plan
  exact ⟨builder, hfinished.modules, rfl, rfl⟩

theorem recorded_module (h : buildPlan input = .ok plan) (hx : x ∈ plannedRules (recorded plan)) :
    x.moduleId ∈ plan.vfsModuleIds ∧ ∃ m ∈ input.planned, m.id = x.moduleId := by
  obtain ⟨builder, hmodules, htree, hids⟩ := buildPlan_shows h
  obtain ⟨rule, hrule, rfl⟩ := mem_recorded.mp hx
  rw [htree] at hrule
  obtain ⟨m, hm, d, hd, -, hid⟩ := Plan.rule_contribution hmodules hrule
  refine ⟨?_, m, hm, hid⟩
  rw [hids]
  exact (Plan.mem_vfsModuleIds hmodules).mpr ⟨m, hm, hid, List.ne_nil_of_mem hd⟩

theorem savedRule_key (rule : Plan.VfsRule) :
    (savedRule (toRule rule)).key = (showPath rule.action.virtualPath, 0) := by
  obtain ⟨action, moduleId⟩ := rule
  cases action with
  | inject virtualPath realPath => rfl
  | whiteout virtualPath => rfl
  | opaqueDir virtualPath => rfl

/-- The targets of a boot's rules differ as texts. -/
theorem Installed.keys (installed : Installed) (h : buildPlan installed.bootInput = .ok plan) :
    ((plannedRules (recorded plan)).map SavedRule.key).Nodup := by
  obtain ⟨builder, hmodules, htree, -⟩ := buildPlan_shows h
  have hpaths := Plan.buildVfsRules_nodup (Plan.ordered_plan_tree hmodules)
  have hslashless : ∀ rule ∈ buildVfsRules builder.tree, Plan.Slashless rule.action.virtualPath := by
    intro rule hrule
    obtain ⟨m, hm, d, hd, habove⟩ := Plan.rule_above hmodules hrule
    have hentry : d.entry ∈ m.entries := by
      obtain ⟨hd, -⟩ := List.mem_filter.mp hd
      obtain ⟨entry, hentry, rfl⟩ := List.mem_map.mp hd
      exact List.mem_of_mem_filter hentry
    have hplace := installed.slashless_place installed.bootInput rfl
      (installed.entryNames m (Plan.mem_planned.mp hm).1 d.entry hentry)
    exact fun name hname => hplace name (habove.subset hname)
  have hkeys : (plannedRules (recorded plan)).map SavedRule.key =
      (buildVfsRules builder.tree).map fun rule => (showPath rule.action.virtualPath, (0 : UInt32)) := by
    simp only [plannedRules, recorded, List.map_map, htree]
    exact List.map_congr_left fun rule _ => savedRule_key rule
  rw [hkeys, List.nodup_map_iff_inj_on (List.Nodup.of_map _ hpaths)]
  intro rule hrule rule' hrule' heq
  refine List.inj_on_of_nodup_map hpaths hrule hrule' ?_
  exact showPath_injective (hslashless rule hrule) (hslashless rule' hrule') (Prod.mk.inj heq).1

theorem alone_module {installed : Installed} (h : buildPlan (Policy.aloneInput installed module) = .ok alone)
    (hx : x ∈ plannedRules (recorded alone)) : x.moduleId = module.id := by
  obtain ⟨-, m, hm, hid⟩ := recorded_module h hx
  obtain rfl := List.mem_singleton.mp (Plan.mem_planned.mp hm).1
  exact hid.symm

theorem mapError_ok {α ε ε' : Type} {f : ε → ε'} {x : Except ε α} {a : α} (h : x.mapError f = .ok a) :
    x = .ok a := by
  cases x with
  | error e => cases h
  | ok b =>
    cases h
    rfl

/-- The plan of a hot operation is that of the module alone. -/
theorem planHotModule_ok {installed : Installed} {baseline : Option LayoutRecord} {saved : Ledger}
    (h : Policy.planHotModule installed baseline saved module = .ok plan) :
    buildPlan (Policy.aloneInput installed module) = .ok plan := by
  unfold Policy.planHotModule at h
  obtain ⟨-, -, h⟩ := Fallible.bind_ok h
  split at h
  · cases h
  · obtain ⟨relevant, -, h⟩ := Fallible.bind_ok h
    obtain ⟨-, -, h⟩ := Fallible.bind_ok h
    obtain ⟨chosen, hchosen, h⟩ := Fallible.bind_ok h
    dsimp only at h
    split at h
    · split at h
      · cases h
      · cases h
    · split at h
      · cases h
      · cases h
        exact mapError_ok hchosen

theorem requestFor_ok {installed : Installed} {baseline : Option LayoutRecord} {saved : Ledger}
    {moduleId : String}
    {wanted : Hot.Request} (h : Hot.requestFor installed baseline saved moduleId = .ok wanted) :
    ∃ module alone, installed.modules.find? (fun m => m.id = moduleId) = some module ∧
      buildPlan (Policy.aloneInput installed module) = .ok alone ∧ wanted.plan = recorded alone := by
  unfold Hot.requestFor at h
  cases hfind : installed.modules.find? fun m => m.id = moduleId with
  | none =>
    rw [hfind] at h
    cases h
  | some module =>
    rw [hfind] at h
    obtain ⟨-, -, h⟩ := Fallible.bind_ok h
    obtain ⟨alone, halone, h⟩ := Fallible.bind_ok h
    cases h
    exact ⟨module, alone, rfl, planHotModule_ok halone, rfl⟩

end Plans

section Runs

variable {installed : Installed} {host : Host} {plan : Plan.MountPlan} {loaded : List String}
  {calls : List HotCall}
  {m : Machine FlatTable} {moduleId : String} {x : SavedRule}

theorem Ran.booted (h : Ran installed host plan loaded calls m) :
    Plan.buildPlan installed.bootInput = .ok plan ∧ (loaded = plan.vfsModuleIds ∨ loaded = []) := by
  induction h with
  | @boot m plan active config nomount entry outcome faults stats hempty hplan hok =>
    obtain ⟨rules, hinstalls, -, -⟩ :=
      (Boot.complete_loads (installed.keys hplan) hempty).of_ok rfl (fun _ _ => trivial) hok
    refine ⟨hplan, ?_⟩
    cases hinstalls with
    | all => exact .inl rfl
    | nothing _ hnone _ => exact .inr hnone
  | hot call hrun hok ih => exact ih

/-- The records and the table have the shares of the active modules and nothing else. -/
structure Tracks (installed : Installed) (host : Host) (plan : Plan.MountPlan) (loaded : List String)
    (calls : List HotCall)
    (m : Machine FlatTable) : Prop where
  keys : ((m.effective host).rules.map SavedRule.key).Nodup
  live : Holds (m.effective host).rules m
  shares : ∀ x, x ∈ (m.effective host).rules ↔ isActive loaded calls x.moduleId = true ∧
    x ∈ installed.shareOf plan calls x.moduleId
  alone : ∀ moduleId action, lastAction calls moduleId = some action → action ≠ .unload →
    ∃ module alone, installed.modules.find? (fun m => m.id = moduleId) = some module ∧
      Plan.buildPlan (Policy.aloneInput installed module) = .ok alone

theorem lastAction_self (call : HotCall) : lastAction (call :: calls) call.moduleId = some call.action := by
  simp [lastAction]

theorem lastAction_other {call : HotCall} (h : call.moduleId ≠ moduleId) :
    lastAction (call :: calls) moduleId = lastAction calls moduleId := by
  simp [lastAction, h]

theorem Tracks.boot (hplan : Plan.buildPlan installed.bootInput = .ok plan) {stats : VfsExecStats}
    {rules : List SavedRule}
    (hinstalls : Boot.Installs (recorded plan) stats rules) (hlive : Holds rules m)
    (hrules : (m.effective host).rules = rules) :
    Tracks installed host plan stats.mountedModuleIds [] m := by
  refine ⟨?_, hrules ▸ hlive, fun x => ?_, fun _ _ h _ => by cases h⟩
  · rw [hrules]
    cases hinstalls with
    | all => exact installed.keys hplan
    | nothing _ _ _ => exact List.nodup_nil
  · rw [hrules]
    have hactive : isActive stats.mountedModuleIds [] x.moduleId = true ↔
        x.moduleId ∈ stats.mountedModuleIds :=
      List.contains_iff_mem
    have hshare : x ∈ installed.shareOf plan [] x.moduleId ↔ x ∈ plannedRules (recorded plan) := by
      simp [Installed.shareOf, lastAction]
    rw [hactive, hshare]
    cases hinstalls with
    | all => exact ⟨fun hx => ⟨(recorded_module hplan hx).1, hx⟩, fun hx => hx.2⟩
    | nothing _ hnone _ => simp [hnone]

theorem aloneRules_eq {module : Plan.ModuleRecord} {alone : Plan.MountPlan}
    (hfind : installed.modules.find? (fun m => m.id = moduleId) = some module)
    (halone : Plan.buildPlan (Policy.aloneInput installed module) = .ok alone) :
    installed.aloneRules moduleId = plannedRules (recorded alone) := by
  simp only [Installed.aloneRules, hfind, halone]

/-- What an operation asks for is the share of its module afterwards. -/
theorem requested_share (plan : Plan.MountPlan) (loaded : List String) (calls : List HotCall) {call : HotCall}
    {saved : Ledger} {wanted : Hot.Request}
    (h : Hot.requested call.action (Hot.requestFor installed (some installed.layout) saved call.moduleId) =
      .ok wanted) :
    (∀ x ∈ plannedRules wanted.plan, x.moduleId = call.moduleId) ∧
      (∀ x, x ∈ plannedRules wanted.plan ↔
        isActive loaded (call :: calls) call.moduleId = true ∧
          x ∈ installed.shareOf plan (call :: calls) call.moduleId) ∧
      (call.action ≠ .unload → ∃ module alone, installed.modules.find? (fun m => m.id = call.moduleId) =
        some module ∧
        Plan.buildPlan (Policy.aloneInput installed module) = .ok alone) := by
  have hactive : isActive loaded (call :: calls) call.moduleId = true ↔ call.action ≠ .unload := by
    simp [isActive, lastAction_self]
  have hshare : installed.shareOf plan (call :: calls) call.moduleId =
      installed.aloneRules call.moduleId := by
    simp [Installed.shareOf, lastAction_self]
  unfold Hot.requested at h
  by_cases hunload : call.action = .unload
  · rw [if_pos hunload] at h
    cases h
    exact ⟨fun _ hx => (by cases hx), fun x => by simp [hactive, hunload, plannedRules],
      fun hne => absurd hunload hne⟩
  · rw [if_neg hunload] at h
    obtain ⟨module, alone, hfind, halone, hwanted⟩ := requestFor_ok h
    have hid : module.id = call.moduleId := by simpa using List.find?_some hfind
    rw [hwanted]
    refine ⟨fun x hx => (alone_module halone hx).trans hid, fun x => ?_,
      fun _ => ⟨module, alone, hfind, halone⟩⟩
    rw [hactive, hshare, aloneRules_eq hfind halone]
    simp [hunload]

/-- An operation replaces the share of its module and leaves the others. -/
theorem Tracks.step {m₁ : Machine FlatTable} {call : HotCall} {wanted : Hot.Request}
    (h : Tracks installed host plan loaded calls m₁)
    (hwanted : Hot.requested call.action
      (Hot.requestFor installed (some installed.layout) (m₁.effective host) call.moduleId) = .ok wanted)
    (hcommits : Hot.Commits host call.action call.moduleId wanted m₁ m) :
    Tracks installed host plan loaded (call :: calls) m := by
  obtain ⟨hown, hshare, halone⟩ := requested_share plan loaded calls hwanted
  refine ⟨hcommits.keys h.keys h.live, hcommits.holds h.keys h.live, fun x => ?_,
    fun moduleId action hlast hne => ?_⟩
  · rw [hcommits.mem_rules]
    by_cases hid : x.moduleId = call.moduleId
    · rw [hid, ← hshare x]
      simp
    · have hold : isActive loaded (call :: calls) x.moduleId = isActive loaded calls x.moduleId := by
        simp only [isActive, lastAction_other (Ne.symm hid)]
      have hsame : installed.shareOf plan (call :: calls) x.moduleId = installed.shareOf plan calls
          x.moduleId := by
        simp only [Installed.shareOf, lastAction_other (Ne.symm hid)]
      rw [hold, hsame, ← h.shares x]
      constructor
      · rintro (hx | hx)
        · exact hx.1
        · exact absurd (hown x hx) hid
      · exact fun hx => .inl ⟨hx, hid⟩
  · by_cases hid : call.moduleId = moduleId
    · subst hid
      rw [lastAction_self] at hlast
      cases hlast
      exact halone hne
    · rw [lastAction_other hid] at hlast
      exact h.alone moduleId action hlast hne

theorem Ran.tracks (h : Ran installed host plan loaded calls m) :
    Tracks installed host plan loaded calls m := by
  induction h with
  | @boot m plan active config nomount entry outcome faults stats hempty hplan hok =>
    obtain ⟨rules, hinstalls, hlive, hrules⟩ :=
      (Boot.complete_loads (installed.keys hplan) hempty).of_ok rfl (fun _ _ => trivial) hok
    exact .boot hplan hinstalls hlive hrules
  | hot call hrun hok ih =>
    obtain ⟨wanted, hwanted, hcommits⟩ :=
      (Hot.apply_commits call.active call.guard).of_ok rfl (fun _ _ => trivial) hok
    exact ih.step hwanted hcommits

end Runs

end HybridMount
