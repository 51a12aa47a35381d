import HybridMount.SettingsRuns
import HybridMount.VfsShares

/-! The module blacklists fail closed: whichever configuration was loaded, both files were read, and
a plan made with it is the plan of a device where no module which they name is installed. -/

namespace HybridMount.Settings

open Plan (validModuleId)

variable {τ : Type} {toml : Toml τ} {disk : Disk} {config config' : Config τ}

/-- The ids a blacklist file names. -/
def named (toml : Toml τ) (node : Node) : List String :=
  match node.readToString with
  | .error _ => []
  | .ok text => (((toml.blacklist text).getD []).map entryId).filter (· ≠ "")

def Disk.named (toml : Toml τ) (disk : Disk) : List String :=
  Settings.named toml disk.bundled ++ Settings.named toml disk.persistent

/-- A blacklist file is missing, or a list of valid module ids. -/
def Sane (toml : Toml τ) (node : Node) : Prop :=
  node.readToString = .error .notFound ∨ ∃ text entries, node.readToString = .ok text ∧
    toml.blacklist text = some entries ∧
    ∀ entry ∈ entries, entryId entry = "" ∨ validModuleId (entryId entry) = true

/-- The field of the blacklist is no part of the text. -/
def Toml.SkipsBlacklist (toml : Toml τ) : Prop := ∀ text config, toml.fromStr text = some config →
    config.moduleBlacklist = .empty

def ids (blacklist : Blacklist) : List String := blacklist.keys.map ModuleId.id

theorem mem_ids_add {blacklist : Blacklist} {k : ModuleId} {id : String} : id ∈ ids (blacklist.add k) ↔
    id = k.id ∨ id ∈ ids blacklist := by
  simp only [ids, List.mem_map]
  constructor
  · rintro ⟨k', hk', hid⟩
    rcases OrderedMap.Map.mem_keys_add.mp hk' with rfl | hk'
    · exact .inl hid.symm
    · exact .inr ⟨k', hk', hid⟩
  · rintro (hid | ⟨k', hk', hid⟩)
    · exact ⟨k, OrderedMap.Map.mem_keys_add.mpr (.inl rfl), hid.symm⟩
    · exact ⟨k', OrderedMap.Map.mem_keys_add.mpr (.inr hk'), hid⟩

theorem mem_ids_foldl_add {more : List ModuleId} {blacklist : Blacklist} {id : String} :
    id ∈ ids (more.foldl OrderedMap.Map.add blacklist) ↔ id ∈ more.map ModuleId.id ∨ id ∈ ids blacklist := by
  induction more generalizing blacklist with
  | nil => simp
  | cons k rest ih =>
    rw [List.foldl_cons, ih, mem_ids_add, List.map_cons, List.mem_cons, or_left_comm, or_assoc]

theorem ids_empty : ids .empty = [] := rfl

theorem addBlacklisted_ok {path entry : String} {blacklist blacklist' : Blacklist}
    (h : addBlacklisted path blacklist entry = .ok blacklist') :
    (entryId entry = "" ∨ validModuleId (entryId entry) = true) ∧
      ∀ id, id ∈ ids blacklist' ↔ (id = entryId entry ∧ id ≠ "") ∨ id ∈ ids blacklist := by
  unfold addBlacklisted at h
  dsimp only at h
  by_cases hempty : entryId entry = ""
  · rw [if_pos hempty] at h
    cases h
    refine ⟨.inl hempty, fun id => ?_⟩
    rw [hempty]
    simp
  · rw [if_neg hempty] at h
    split at h
    · rename_i hvalid
      cases h
      refine ⟨.inr hvalid, fun id => ?_⟩
      rw [mem_ids_add]
      refine or_congr_left ⟨fun hid => ⟨hid, fun hnone => hempty ?_⟩, And.left⟩
      rw [← hnone, hid]
    · cases h

theorem foldlM_addBlacklisted {path : String} {entries : List String} {blacklist blacklist' : Blacklist}
    (h : entries.foldlM (addBlacklisted path) blacklist = .ok blacklist') :
    (∀ entry ∈ entries, entryId entry = "" ∨ validModuleId (entryId entry) = true) ∧
      ∀ id, id ∈ ids blacklist' ↔ (id ∈ entries.map entryId ∧ id ≠ "") ∨ id ∈ ids blacklist := by
  induction entries generalizing blacklist with
  | nil =>
    cases h
    simp
  | cons entry rest ih =>
    rw [List.foldlM_cons] at h
    obtain ⟨middle, hmiddle, hrest⟩ := Fallible.bind_ok h
    obtain ⟨hvalid, hentry⟩ := addBlacklisted_ok hmiddle
    obtain ⟨hvalids, hids⟩ := ih hrest
    refine ⟨fun e he => ?_, fun id => ?_⟩
    · rcases List.mem_cons.mp he with rfl | he
      · exact hvalid
      · exact hvalids e he
    · rw [hids id, hentry id, List.map_cons, List.mem_cons, or_and_right, or_left_comm, or_assoc]

theorem readModuleBlacklist_ok {path : String} {node : Node} {blacklist : Blacklist}
    (h : readModuleBlacklist toml path node = .ok blacklist) : Sane toml node ∧ ∀ id, id ∈ ids blacklist ↔
    id ∈ named toml node := by
  unfold readModuleBlacklist at h
  unfold named
  cases hread : node.readToString with
  | error kind =>
    rw [hread] at h
    cases kind with
    | notFound =>
      cases h
      exact ⟨.inl hread, fun id => by rw [ids_empty]⟩
    | other => cases h
  | ok text =>
    simp only [hread] at h
    cases hparse : toml.blacklist text with
    | none =>
      rw [hparse] at h
      cases h
    | some entries =>
      rw [hparse] at h
      obtain ⟨hvalid, hids⟩ := foldlM_addBlacklisted h
      refine ⟨.inr ⟨text, entries, hread, hparse, hvalid⟩, fun id => ?_⟩
      rw [hids id, ids_empty]
      simp [hparse]

/-- What a loader answers, when it answers, holds the ids of both files. -/
structure Guarded (toml : Toml τ) (disk : Disk) (config : Config τ) : Prop where
  bundled : Sane toml disk.bundled
  persistent : Sane toml disk.persistent
  ids : ∀ id, id ∈ ids config.moduleBlacklist ↔ id ∈ disk.named toml

theorem Guarded.of_load (hempty : config.moduleBlacklist = .empty)
    (h : loadModuleBlacklists toml disk config = .ok config') :
    Guarded toml disk config' := by
  obtain ⟨bundled, hbundled, h⟩ := Fallible.bind_ok h
  obtain ⟨persistent, hpersistent, h⟩ := Fallible.bind_ok h
  cases h
  obtain ⟨hsaneBundled, hidsBundled⟩ := readModuleBlacklist_ok hbundled
  obtain ⟨hsanePersistent, hidsPersistent⟩ := readModuleBlacklist_ok hpersistent
  refine ⟨hsaneBundled, hsanePersistent, fun id => ?_⟩
  have hboth : id ∈ Settings.ids
      ((config.extendBlacklist bundled).extendBlacklist persistent).moduleBlacklist ↔
      id ∈ Settings.ids persistent ∨ id ∈ Settings.ids bundled := by
    simp only [Config.extendBlacklist]
    rw [mem_ids_foldl_add, mem_ids_foldl_add, hempty, ids_empty]
    simp [Settings.ids]
  rw [hboth, hidsBundled, hidsPersistent, Disk.named, List.mem_append, or_comm]

section Loaders

variable (hskips : toml.SkipsBlacklist)

include hskips

theorem load_guarded (h : load toml disk = .ok config) : Guarded toml disk config := by
  unfold load at h
  split at h
  · cases h
  rename_i text htext
  cases hparse : fromToml toml text with
  | error err =>
    rw [hparse] at h
    cases err <;> cases h
  | ok parsed =>
    rw [hparse] at h
    refine .of_load (hskips text parsed ?_) h
    unfold fromToml at hparse
    split at hparse
    · cases hparse
    · rename_i hstr
      split at hparse
      · cases hparse
      · cases hparse
        exact hstr

theorem loadAllowingMissing_guarded {strict : Bool} (h : loadAllowingMissing toml disk strict = .ok config) :
    Guarded toml disk config := by
  unfold loadAllowingMissing at h
  cases hload : load toml disk with
  | ok loaded =>
    rw [hload] at h
    cases h
    obtain ⟨hbundled, hpersistent, hids⟩ := load_guarded hskips hload
    exact ⟨hbundled, hpersistent, hids⟩
  | error err =>
    simp only [hload] at h
    split at h
    · exact .of_load rfl h
    · cases h

theorem loadOrDefault_guarded (h : loadOrDefault toml disk = .ok config) : Guarded toml disk config := by
  unfold loadOrDefault at h
  cases hload : loadAllowingMissing toml disk false with
  | ok loaded =>
    rw [hload] at h
    cases h
    exact loadAllowingMissing_guarded hskips hload
  | error err =>
    rw [hload] at h
    cases err with
    | configRead path source => exact .of_load rfl h
    | configParse path => exact .of_load rfl h
    | unsupportedGlobalDefaultMode => exact .of_load rfl h
    | tomlParse => cases h
    | tomlSerialize => cases h
    | moduleBlacklistRead path => cases h
    | moduleBlacklistParse path => cases h
    | invalidBlacklistModuleId path moduleId => cases h
    | msg text => cases h

end Loaders

theorem planned_uninstalled {modules : List Plan.ModuleRecord} {planning : Plan.Config}
    {layout : Plan.PartitionLayout}
    {vfsAvailable : Bool} {gone : List String} (h : ∀ id, id ∈ planning.moduleBlacklist ↔ id ∈ gone) :
    Plan.PlanInput.planned ⟨modules, planning, layout, vfsAvailable⟩ =
      Plan.PlanInput.planned ⟨modules.filter fun m => m.id ∉ gone, { planning with moduleBlacklist := [] },
        layout, vfsAvailable⟩ := by
  have hall : ∀ input : Plan.PlanInput, input.planned = input.planned.filter fun _ => true := by simp
  rw [hall ⟨modules, planning, layout, vfsAvailable⟩,
    hall ⟨modules.filter fun m => m.id ∉ gone, _, layout, vfsAvailable⟩,
    Plan.planned_filter, Plan.planned_filter, List.filter_filter]
  refine congrArg (List.insertionSort Plan.IdLe) (List.filter_congr fun m _ => ?_)
  have hm : planning.isModuleBlacklisted m.id = decide (m.id ∈ gone) := by
    rw [Plan.Config.isModuleBlacklisted, Bool.eq_iff_iff, List.contains_iff_mem, decide_eq_true_iff, h]
  rw [hm]
  simp [Plan.Config.isModuleBlacklisted]

theorem buildPlan_uninstalled {modules : List Plan.ModuleRecord} {planning : Plan.Config}
    {layout : Plan.PartitionLayout}
    {vfsAvailable : Bool} {gone : List String} (h : ∀ id, id ∈ planning.moduleBlacklist ↔ id ∈ gone) :
    Plan.buildPlan ⟨modules, planning, layout, vfsAvailable⟩ =
      Plan.buildPlan ⟨modules.filter fun m => m.id ∉ gone, { planning with moduleBlacklist := [] }, layout,
        vfsAvailable⟩ := by
  unfold Plan.buildPlan Plan.planModules
  rw [planned_uninstalled h]
  rfl

theorem blacklists_fail_closed (hskips : toml.SkipsBlacklist)
    (h : load toml disk = .ok config ∨ loadForBoot toml disk = .ok config ∨
      loadOrDefault toml disk = .ok config) :
    Sane toml disk.bundled ∧ Sane toml disk.persistent ∧ ∀ modules layout vfsAvailable,
      Plan.buildPlan ⟨modules, config.toPlan, layout, vfsAvailable⟩ =
        Plan.buildPlan ⟨modules.filter fun m => m.id ∉ disk.named toml,
          { config.toPlan with moduleBlacklist := [] }, layout,
          vfsAvailable⟩ := by
  have hguarded : Guarded toml disk config := by
    rcases h with h | h | h
    · exact load_guarded hskips h
    · exact loadAllowingMissing_guarded hskips h
    · exact loadOrDefault_guarded hskips h
  exact ⟨hguarded.bundled, hguarded.persistent, fun modules layout vfsAvailable =>
    buildPlan_uninstalled hguarded.ids⟩

/-- The serializer of the plain configurations; a blacklist file is one entry. -/
def nameToml : Toml Unit := { plainToml with blacklist := fun text => some [text] }

theorem nameToml_skips : nameToml.SkipsBlacklist := by
  intro text config h
  simp only [nameToml, plainToml] at h
  obtain ⟨entry, hfound, rfl⟩ := Option.map_eq_some_iff.mp h
  have hmem : entry ∈ plainTexts := List.mem_of_find?_eq_some hfound
  simp only [plainTexts, List.mem_cons, List.not_mem_nil, or_false] at hmem
  rcases hmem with rfl | rfl | rfl | rfl <;> rfl

def namingDisk : Disk := ⟨.absent, true, .absent, .regular (some " fonts ")⟩

theorem valid_fonts : validModuleId "fonts" = true := by decide

def namingConfig : Config Unit :=
  { configMissing := true, moduleBlacklist := (OrderedMap.Map.empty : Blacklist).add ⟨"fonts", valid_fonts⟩ }

theorem loads_naming : loadForBoot nameToml namingDisk = .ok namingConfig := by rfl

theorem blacklists_fail_closed_naming :
    Sane nameToml namingDisk.bundled ∧ Sane nameToml namingDisk.persistent ∧
    ∀ modules layout vfsAvailable, Plan.buildPlan ⟨modules, namingConfig.toPlan, layout, vfsAvailable⟩ =
      Plan.buildPlan ⟨modules.filter fun m => m.id ∉ namingDisk.named nameToml,
        { namingConfig.toPlan with moduleBlacklist := [] }, layout,
        vfsAvailable⟩ :=
  blacklists_fail_closed nameToml_skips (.inr (.inl loads_naming))

example : namingDisk.named nameToml = ["fonts"] := by rfl

end HybridMount.Settings
