import HybridMount.PipelineReports

/-! The list of modules a query shows: the modules which are installed, with what the last snapshot
says of their mounts, and those which are gone but whose mounts are not. -/

namespace HybridMount.Pipeline

open Plan

abbrev CachedModules := OrderedMap.Map String AppModule compare

def cachedById (cached : List AppModule) : CachedModules :=
  cached.foldl (fun found module => found.insert module.id module) .empty

/-- What the snapshot knows goes over the installed module. -/
def AppModule.withPrevious (module previous : AppModule) : AppModule :=
  { module with
    mode := previous.mode
    partitionErrors := if previous.partitionErrors.isEmpty then module.partitionErrors
      else previous.partitionErrors
    operationErrors := if previous.operationErrors.isEmpty then module.operationErrors
      else previous.operationErrors
    isMounted := previous.isMounted }

def takePrevious (found : CachedModules × List AppModule) (module : AppModule) :
    CachedModules × List AppModule :=
  match found.1.get module.id with
  | some previous => (found.1.remove module.id, found.2 ++ [module.withPrevious previous])
  | none => (found.1, found.2 ++ [module])

/-- The rules may have been edited since. -/
def AppModule.syncRules (config : Plan.Config) (module : AppModule) : AppModule :=
  let blacklisted := config.isModuleBlacklisted module.id
  { module with
    blacklisted := blacklisted
    enabled := module.enabled && !blacklisted
    rules := appModuleRules config module.id }

def fallbackAppModules (installed : List ModuleRecord) (config : Plan.Config) (layout : PartitionLayout)
    (vfsAvailable : Bool)
    (mountErrors : List String) : Except PlanError (List AppModule) := do
  let plan ← buildPlan ⟨installed, config, layout, vfsAvailable⟩
  return appModules installed config plan mountErrors []

/-- The modules of the snapshot which are gone, but not from the kernel. -/
def removedModules (bootOwned : List String) (cached : CachedModules) : List AppModule :=
  (cached.values.filter fun module => module.isMounted && bootOwned.contains module.id).map fun module =>
    { module with enabled := false }

def mergeModuleSnapshot (cached : List AppModule) (installed : List ModuleRecord) (config : Plan.Config)
    (bootOwned : List String)
    (layout : PartitionLayout) (vfsAvailable : Bool) (mountErrors : List String) :
    Except PlanError (List AppModule) := do
  let fallback ← fallbackAppModules installed config layout vfsAvailable mountErrors
  let merged := fallback.foldl takePrevious (cachedById cached, [])
  return (merged.2 ++ removedModules bootOwned merged.1).map (AppModule.syncRules config)

/-- `file` is what the snapshot decodes to, if it can be read at all. -/
def queryModuleSnapshot (file : Option (List AppModule)) (installed : List ModuleRecord)
    (config : Plan.Config) (bootOwned : List String)
    (layout : PartitionLayout) (vfsAvailable : Bool) (mountErrors : List String) :
    Except PlanError (List AppModule) :=
  let cached := (file.getD []).map fun module => { module with partitionErrors := [], operationErrors := [] }
  mergeModuleSnapshot cached installed config bootOwned layout vfsAvailable mountErrors

/-- The last entry of the snapshot for the module. -/
def lastEntry (cached : List AppModule) (id : String) : Option AppModule :=
  (cached.filter fun module => module.id = id).getLast?

section

variable {cached : List AppModule} {installed : List ModuleRecord} {config : Plan.Config}
  {bootOwned : List String}
  {layout : PartitionLayout} {vfsAvailable : Bool} {mountErrors : List String}
    {merged fallback : List AppModule} {found : CachedModules}
  {id : String} {e : AppModule}

theorem get_cachedById : (cachedById cached).get id = lastEntry cached id := by
  have hfold : ∀ found : CachedModules,
      (cached.foldl (fun found module => found.insert module.id module) found).get id =
      (lastEntry cached id).or (found.get id) := by
    induction cached with
    | nil =>
      intro found
      rfl
    | cons module rest ih =>
      intro found
      rw [List.foldl_cons, ih, OrderedMap.Map.get_insert, lastEntry, lastEntry, List.filter_cons]
      by_cases hid : id = module.id
      · subst hid
        cases hrest : rest.filter fun other => other.id = module.id with
        | nil => simp
        | cons first more => simp [List.getLast?_cons]
      · simp [hid, Ne.symm hid]
  rw [cachedById, hfold]
  simp

theorem id_of_lastEntry (h : lastEntry cached id = some e) : e ∈ cached ∧ e.id = id := by
  have hmem := List.mem_of_getLast? h
  obtain ⟨hcached, hid⟩ := List.mem_filter.mp hmem
  exact ⟨hcached, of_decide_eq_true hid⟩

/-- Modules which differ by their ids each take what the snapshot knows of them. -/
theorem foldl_takePrevious (found : CachedModules) (merged : List AppModule)
    (hnodup : (fallback.map AppModule.id).Nodup) :
    (fallback.foldl takePrevious (found, merged)).2 = merged ++ fallback.map (fun module =>
      ((found.get module.id).map module.withPrevious).getD module) ∧
    ∀ id, (fallback.foldl takePrevious (found, merged)).1.get id = if id ∈ fallback.map AppModule.id then none
      else found.get id := by
  induction fallback generalizing found merged with
  | nil => simp
  | cons module rest ih =>
    obtain ⟨hfresh, hrest⟩ := List.nodup_cons.mp hnodup
    rw [List.foldl_cons, takePrevious]
    cases hget : found.get module.id with
    | none =>
      obtain ⟨hout, hkept⟩ := ih found (merged ++ [module]) hrest
      refine ⟨?_, fun id => ?_⟩
      · rw [hout, List.map_cons, hget, List.append_assoc]
        rfl
      · rw [hkept]
        by_cases hid : id = module.id
        · subst hid
          simp [hget]
        · simp [hid]
    | some previous =>
      obtain ⟨hout, hkept⟩ := ih (found.remove module.id) (merged ++ [module.withPrevious previous]) hrest
      refine ⟨?_, fun id => ?_⟩
      · rw [hout, List.map_cons, hget, List.append_assoc]
        refine congrArg (merged ++ module.withPrevious previous :: ·)
          (List.map_congr_left fun other hother => ?_)
        have hne : other.id ≠ module.id := fun heq => hfresh (heq ▸ List.mem_map_of_mem hother)
        rw [OrderedMap.Map.get_remove, if_neg hne]
      · rw [hkept, OrderedMap.Map.get_remove]
        by_cases hid : id = module.id
        · subst hid
          simp
        · simp [hid]

theorem ids_fallback
    (h : fallbackAppModules installed config layout vfsAvailable mountErrors = .ok fallback) :
    fallback.map AppModule.id = installed.map ModuleRecord.id ∧ ∀ e ∈ fallback, e.isMounted = false ∧
      ∃ m ∈ installed, m.id = e.id ∧ e.enabled = (!m.disabled && !config.isModuleBlacklisted m.id) := by
  obtain ⟨plan, -, h⟩ := Fallible.bind_ok h
  cases h
  refine ⟨by rw [appModules, List.map_map]; rfl, fun e he => ?_⟩
  obtain ⟨m, hm, rfl⟩ := List.mem_map.mp he
  exact ⟨unmounted_appModules _ he, m, hm, rfl, rfl⟩

theorem mem_removedModules : e ∈ removedModules bootOwned found ↔
    ∃ previous, (∃ id, found.get id = some previous) ∧
    previous.isMounted = true ∧ previous.id ∈ bootOwned ∧ e = { previous with enabled := false } := by
  simp only [removedModules, List.mem_map, List.mem_filter, OrderedMap.Map.mem_values, Bool.and_eq_true,
    List.contains_iff_mem, and_assoc]
  exact exists_congr fun previous => and_congr_right fun _ => and_congr_right fun _ => and_congr_right
    fun _ => eq_comm

/-- An installed module as the snapshot knows it. -/
def known (cached : List AppModule) (module : AppModule) : AppModule :=
  ((lastEntry cached module.id).map module.withPrevious).getD module

theorem known_id {module : AppModule} : (known cached module).id = module.id := by
  unfold known
  cases lastEntry cached module.id with
  | none => rfl
  | some previous => rfl

theorem known_enabled {module : AppModule} : (known cached module).enabled = module.enabled := by
  unfold known
  cases lastEntry cached module.id with
  | none => rfl
  | some previous => rfl

/-- A module which is gone, but not from the kernel. -/
def Gone (cached : List AppModule) (installed : List ModuleRecord) (bootOwned : List String)
    (e : AppModule) : Prop :=
  ∃ previous, lastEntry cached previous.id = some previous ∧ previous.isMounted = true ∧
    previous.id ∈ bootOwned ∧
    previous.id ∉ installed.map ModuleRecord.id ∧ e = { previous with enabled := false }

theorem merge_ok (hnodup : (installed.map ModuleRecord.id).Nodup)
    (h : mergeModuleSnapshot cached installed config bootOwned layout vfsAvailable mountErrors = .ok merged) :
    ∃ fallback removed, fallbackAppModules installed config layout vfsAvailable mountErrors = .ok fallback ∧
      merged = (fallback.map (known cached) ++ removed).map (AppModule.syncRules config) ∧
      (∀ e, e ∈ removed ↔ Gone cached installed bootOwned e) ∧ (removed.map AppModule.id).Nodup := by
  obtain ⟨fallback, hfallback, h⟩ := Fallible.bind_ok h
  cases h
  have hids := (ids_fallback hfallback).1
  obtain ⟨hout, hkept⟩ := foldl_takePrevious (cachedById cached) [] (hids ▸ hnodup)
  let left := (fallback.foldl takePrevious (cachedById cached, [])).1
  have hleft : ∀ id previous, left.get id = some previous ↔
      lastEntry cached id = some previous ∧ id ∉ installed.map ModuleRecord.id := by
    intro id previous
    rw [hkept, hids, get_cachedById]
    by_cases hid : id ∈ installed.map ModuleRecord.id
    · simp [hid]
    · simp [hid]
  have hown : ∀ id previous, left.get id = some previous → previous.id = id := by
    intro id previous hget
    exact (id_of_lastEntry ((hleft id previous).mp hget).1).2
  refine ⟨fallback, removedModules bootOwned left, hfallback, ?_, fun e => ?_, ?_⟩
  · have hknown : fallback.map (fun module =>
        (((cachedById cached).get module.id).map module.withPrevious).getD module) =
        fallback.map (known cached) := List.map_congr_left fun module _ => by rw [known, get_cachedById]
    rw [hout, List.nil_append, hknown]
  · rw [mem_removedModules]
    refine exists_congr fun previous => ?_
    constructor
    · rintro ⟨⟨id, hget⟩, hmounted, howned, rfl⟩
      obtain rfl := hown id previous hget
      exact ⟨((hleft _ _).mp hget).1, hmounted, howned, ((hleft _ _).mp hget).2, rfl⟩
    · rintro ⟨hlast, hmounted, howned, hgone, rfl⟩
      exact ⟨⟨_, (hleft _ _).mpr ⟨hlast, hgone⟩⟩, hmounted, howned, rfl⟩
  · have hvalues : left.values.map AppModule.id = left.keys := by
      rw [OrderedMap.Map.values, OrderedMap.Map.keys, List.map_map]
      exact List.map_congr_left fun entry hentry =>
        hown entry.1 entry.2 (OrderedMap.Map.mem_entries.mp hentry)
    have hsub : ((removedModules bootOwned left).map AppModule.id).Sublist
        (left.values.map AppModule.id) := by
      rw [removedModules, List.map_map]
      exact List.filter_sublist.map _
    exact (hvalues ▸ OrderedMap.Map.nodup_keys).sublist hsub

theorem lastEntry_map {f : AppModule → AppModule} (hf : ∀ module, (f module).id = module.id) :
    lastEntry (cached.map f) id = (lastEntry cached id).map f := by
  rw [lastEntry, lastEntry, List.filter_map, List.getLast?_map]
  congr 2
  exact List.filter_congr fun module _ => by simp [hf]

theorem known_isMounted {module : AppModule} (h : module.isMounted = false) :
    (known cached module).isMounted = true ↔ ∃ previous, lastEntry cached module.id = some previous ∧
    previous.isMounted = true := by
  unfold known
  cases lastEntry cached module.id with
  | none => simp [h]
  | some previous => simp [AppModule.withPrevious]

/-- What is merged, and which entry is whose. -/
theorem mem_merged (hnodup : (installed.map ModuleRecord.id).Nodup)
    (h : mergeModuleSnapshot cached installed config bootOwned layout vfsAvailable mountErrors = .ok merged) :
    ∃ removed, merged.map AppModule.id = installed.map ModuleRecord.id ++ removed ∧ removed.Nodup ∧
      (∀ id, id ∈ removed ↔ (∃ previous, lastEntry cached id = some previous ∧ previous.isMounted = true) ∧
        id ∈ bootOwned ∧
        id ∉ installed.map ModuleRecord.id) ∧
      ∀ e ∈ merged, e.blacklisted = config.isModuleBlacklisted e.id ∧ e.rules = appModuleRules config e.id ∧
        ((∃ m ∈ installed, m.id = e.id ∧ e.enabled = (!m.disabled && !config.isModuleBlacklisted m.id) ∧
            (e.isMounted = true ↔ ∃ previous, lastEntry cached e.id = some previous ∧
              previous.isMounted = true)) ∨
          e.enabled = false ∧ e.isMounted = true ∧ e.id ∈ bootOwned ∧ e.id ∉ installed.map ModuleRecord.id ∧
            ∃ previous, lastEntry cached e.id = some previous ∧ previous.isMounted = true) := by
  obtain ⟨fallback, removed, hfallback, rfl, hgone, hremoved⟩ := merge_ok hnodup h
  obtain ⟨hids, hentries⟩ := ids_fallback hfallback
  refine ⟨removed.map AppModule.id, ?_, hremoved, fun id => ?_, fun e he => ?_⟩
  · rw [List.map_map, List.map_append, ← hids, List.map_map]
    congr 1
    exact List.map_congr_left fun module _ => known_id
  · constructor
    · intro hid
      obtain ⟨e, he, rfl⟩ := List.mem_map.mp hid
      obtain ⟨previous, hlast, hmounted, howned, hnot, rfl⟩ := (hgone e).mp he
      exact ⟨⟨previous, hlast, hmounted⟩, howned, hnot⟩
    · rintro ⟨⟨previous, hlast, hmounted⟩, howned, hnot⟩
      obtain rfl := (id_of_lastEntry hlast).2
      exact List.mem_map.mpr ⟨_, (hgone _).mpr ⟨previous, hlast, hmounted, howned, hnot, rfl⟩, rfl⟩
  · obtain ⟨entry, hentry, rfl⟩ := List.mem_map.mp he
    refine ⟨rfl, rfl, ?_⟩
    rcases List.mem_append.mp hentry with hentry | hentry
    · obtain ⟨module, hmodule, rfl⟩ := List.mem_map.mp hentry
      obtain ⟨hmounted, m, hm, hid, henabled⟩ := hentries module hmodule
      refine .inl ⟨m, hm, hid.trans known_id.symm, ?_, ?_⟩
      · have hid' : (known cached module).id = m.id := known_id.trans hid.symm
        simp only [AppModule.syncRules, known_enabled, henabled, hid']
        cases config.isModuleBlacklisted m.id with
        | false => simp
        | true => simp
      · change (known cached module).isMounted = true ↔
          ∃ previous, lastEntry cached (known cached module).id = some previous ∧ _
        rw [known_id]
        exact known_isMounted hmounted
    · obtain ⟨previous, hlast, hmounted, howned, hnot, rfl⟩ := (hgone entry).mp hentry
      exact .inr ⟨rfl, hmounted, howned, hnot, previous, hlast, hmounted⟩

theorem mounted_iff (hnodup : (installed.map ModuleRecord.id).Nodup)
    (h : mergeModuleSnapshot cached installed config bootOwned layout vfsAvailable mountErrors = .ok merged)
    (id : String) :
    (∃ e ∈ merged, e.id = id ∧ e.isMounted = true) ↔
    (∃ previous, lastEntry cached id = some previous ∧ previous.isMounted = true) ∧
      (id ∈ installed.map ModuleRecord.id ∨ id ∈ bootOwned) := by
  obtain ⟨removed, hids, -, hgone, hentries⟩ := mem_merged hnodup h
  constructor
  · rintro ⟨e, he, rfl, hmounted⟩
    rcases (hentries e he).2.2 with ⟨m, hm, hid, -, hknown⟩ | ⟨-, -, howned, -, hprevious⟩
    · exact ⟨hknown.mp hmounted, .inl (hid ▸ List.mem_map_of_mem hm)⟩
    · exact ⟨hprevious, .inr howned⟩
  · rintro ⟨hprevious, hinstalled⟩
    have hid : id ∈ merged.map AppModule.id := by
      rw [hids, List.mem_append, hgone]
      by_cases hmem : id ∈ installed.map ModuleRecord.id
      · exact .inl hmem
      · exact .inr ⟨hprevious, hinstalled.resolve_left hmem, hmem⟩
    obtain ⟨e, he, rfl⟩ := List.mem_map.mp hid
    rcases (hentries e he).2.2 with ⟨-, -, -, -, hknown⟩ | ⟨-, hmounted, -⟩
    · exact ⟨e, he, rfl, hknown.mpr hprevious⟩
    · exact ⟨e, he, rfl, hmounted⟩

theorem enabled_iff (hnodup : (installed.map ModuleRecord.id).Nodup)
    (h : mergeModuleSnapshot cached installed config bootOwned layout vfsAvailable mountErrors = .ok merged)
    (he : e ∈ merged) :
    e.enabled = true ↔ ∃ m ∈ installed, m.id = e.id ∧ m.disabled = false ∧
    config.isModuleBlacklisted m.id = false := by
  obtain ⟨removed, -, -, -, hentries⟩ := mem_merged hnodup h
  rcases (hentries e he).2.2 with ⟨m, hm, hid, henabled, -⟩ | ⟨henabled, -, -, hnot, -⟩
  · rw [henabled]
    constructor
    · intro hboth
      simp only [Bool.and_eq_true, Bool.not_eq_true'] at hboth
      exact ⟨m, hm, hid, hboth.1, hboth.2⟩
    · rintro ⟨m', hm', hid', hdisabled, hblack⟩
      obtain rfl := List.inj_on_of_nodup_map hnodup hm hm' (hid.trans hid'.symm)
      simp [hdisabled, hblack]
  · rw [henabled]
    constructor
    · intro hfalse
      cases hfalse
    · rintro ⟨m, hm, hid, -⟩
      exact absurd (hid ▸ List.mem_map_of_mem hm) hnot

/-- The view names the installed modules and then, each once, those which are gone but were mounted and are
still owned by this boot. A module is shown as mounted just where the snapshot says so and it is installed
or still owned. -/
theorem view_mounted {file : Option (List AppModule)} (hnodup : (installed.map ModuleRecord.id).Nodup)
    (h : queryModuleSnapshot file installed config bootOwned layout vfsAvailable mountErrors = .ok merged) :
    (∃ gone, merged.map AppModule.id = installed.map ModuleRecord.id ++ gone ∧
      ∀ id, id ∈ gone ↔ (∃ previous, lastEntry (file.getD []) id = some previous ∧
        previous.isMounted = true) ∧
        id ∈ bootOwned ∧ id ∉ installed.map ModuleRecord.id) ∧
      (merged.map AppModule.id).Nodup ∧
      (∀ id, (∃ e ∈ merged, e.id = id ∧ e.isMounted = true) ↔
        (∃ previous, lastEntry (file.getD []) id = some previous ∧ previous.isMounted = true) ∧
          (id ∈ installed.map ModuleRecord.id ∨ id ∈ bootOwned)) ∧
      ∀ e ∈ merged, e.blacklisted = config.isModuleBlacklisted e.id ∧ e.rules = appModuleRules config e.id ∧
        (e.enabled = true ↔ ∃ m ∈ installed, m.id = e.id ∧ m.disabled = false ∧
          config.isModuleBlacklisted m.id = false) := by
  let unreported := fun module : AppModule => { module with partitionErrors := [], operationErrors := [] }
  have hmerged : mergeModuleSnapshot ((file.getD []).map unreported) installed config bootOwned layout
      vfsAvailable mountErrors =
      .ok merged := h
  have hlast : ∀ id, (∃ previous, lastEntry ((file.getD []).map unreported) id = some previous ∧
      previous.isMounted = true) ↔
      ∃ previous, lastEntry (file.getD []) id = some previous ∧ previous.isMounted = true := by
    intro id
    rw [show lastEntry ((file.getD []).map unreported) id = (lastEntry (file.getD []) id).map unreported from
      lastEntry_map fun _ => rfl]
    cases lastEntry (file.getD []) id with
    | none => simp
    | some previous => simp [unreported]
  obtain ⟨gone, hids, hdistinct, hgone, hentries⟩ := mem_merged hnodup hmerged
  refine ⟨⟨gone, hids, fun id => ?_⟩, ?_, fun id => (mounted_iff hnodup hmerged id).trans ?_, fun e he => ?_⟩
  · rw [hgone, hlast]
  · rw [hids]
    exact hnodup.append hdistinct fun id hid hid' => ((hgone id).mp hid').2.2 hid
  · rw [hlast]
  · exact ⟨(hentries e he).1, (hentries e he).2.1, enabled_iff hnodup hmerged he⟩

end

/-- An entry of the snapshot for a module which was mounted. -/
def mountedEntry (id : String) : AppModule :=
  { id := id, mode := .overlay, isMounted := true, enabled := true, blacklisted := false
    sourcePath := ["data", "adb", "modules", id], mountError := none, suggestIgnore :=
      false, rules := ⟨none, []⟩
    partitionErrors := [], operationErrors := [] }

def installedRecord (id : String) : ModuleRecord :=
  { id := id, sourcePath := ["data", "adb", "modules", id], entries := [] }

/-- Of the three modules which were mounted one is still installed, and of the others this boot owns one. -/
theorem query_deleted :
    (queryModuleSnapshot (some [mountedEntry "fonts", mountedEntry "older", mountedEntry "tool"])
      [installedRecord "new", installedRecord "tool"] ⟨.overlay, [], []⟩ ["fonts", "tool"] ⟨[], [], []⟩ false
        []).toOption.map
        (fun merged => merged.map fun e => (e.id, e.isMounted, e.enabled)) =
      some [("new", false, true), ("tool", true, true), ("fonts", true, false)] := by decide +kernel

theorem view_mounted_deleted : ∃ merged : List AppModule, merged.map AppModule.id = ["new", "tool", "fonts"] ∧
    (∃ e ∈ merged, e.id = "tool" ∧ e.isMounted = true) ∧ ¬ ∃ e ∈ merged, e.id = "older" ∧
    e.isMounted = true := by
  obtain ⟨merged, hsome, hseen⟩ := Option.map_eq_some_iff.mp query_deleted
  have hview := view_mounted (by decide) (Fallible.ok_of_toOption hsome)
  have hids := congrArg (List.map Prod.fst) hseen
  rw [List.map_map] at hids
  refine ⟨merged, hids, (hview.2.2.1 "tool").mpr ⟨⟨mountedEntry "tool", by decide +kernel, rfl⟩,
    .inl (by decide)⟩, ?_⟩
  intro holder
  have howned := ((hview.2.2.1 "older").mp holder).2
  exact absurd howned (by decide)

end HybridMount.Pipeline
