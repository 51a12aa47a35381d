import HybridMount.ShadowedRules

/-! Which modules are reported as mounted, from the mount points of a run in which every overlay of
the plan was mounted. -/

namespace HybridMount.Plan

/-- The mount points of a run whose steps all succeeded, as texts in order. -/
def activeMounts (plan : MountPlan) (execution : OverlayExecutionPlan) : List Names :=
  let mounted := (execution.direct.filterMap fun index =>
    (plan.overlayOps[index]?).map OverlayOperation.target) ++ execution.shallow.keys
  (mounted.insertionSort fun left right => textOrder left right ≠ .gt).dedup

/-- The modules with a source of the backend at the node or below it. -/
def collectBackendIds (node : MountNode) (backend : Mode) : List String :=
  node.collect (fun (_ : Unit) _ below =>
    ((below.value.sources.filter fun source => source.backend = backend).map MountSource.moduleId, ()))
    () []

namespace MountTree

def moduleIdsForTarget (tree : MountNode) (backend : Mode) (target : Names) : List String :=
  match MountTree.find tree target with
  | some node => (node.value.sources.filter fun source => source.backend = backend).map MountSource.moduleId
  | none => []

def moduleIdsForSubtree (tree : MountNode) (backend : Mode) (target : Names) : List String :=
  match MountTree.find tree target with
  | some node => collectBackendIds node backend
  | none => []

end MountTree

/-- The order and the repetitions of the ids do not count: the source keeps them in a set. -/
def mountedModuleIdsForSnapshot (modules : List ModuleRecord) (plan : MountPlan)
    (overlayTargets magicTargets : List Names) :
    List String :=
  let overlay := overlayTargets.flatMap fun target =>
    if target ∈ plan.overlayFiles.map Prod.fst then MountTree.moduleIdsForSubtree plan.tree .overlay target
    else MountTree.moduleIdsForTarget plan.tree .overlay target
  let magic := magicTargets.flatMap fun target => MountTree.moduleIdsForTarget plan.tree .magic target
  let scanned := modules.map ModuleRecord.id
  (overlay ++ magic).filter fun id => id ∈ scanned

/-- The module has an entry of the backend at the node. -/
def ContributesAt (input : PlanInput) (backend : Mode) (id : String) (node : Names) : Prop :=
  ∃ m d, Planned input m d ∧ m.id = id ∧ d.mode = backend ∧ node = targetComponents (input.target d)

/-- The target of a layer is there already, or the directory of a single file, below which the tree
has the file. -/
def KeepsTarget (input : PlanInput) (probe : Names → Probe) (m : ModuleRecord) : Prop :=
  (∃ dir, .layer dir ∈ contributions input.layout m (input.rulesOf m) ∧
    probe (input.layout.targetOf dir) = .directory) ∨
  ∃ parent relative, .file parent relative ∈ contributions input.layout m (input.rulesOf m) ∧
    probe (input.layout.targetOf parent) = .directory ∧
    targetComponents (input.layout.targetOf parent) <+: targetComponents (input.layout.targetOf relative)

/-- The plan has a layer or a single file for the target. -/
def OverlayTarget (plan : MountPlan) (target : Names) : Prop :=
  (∃ operation ∈ plan.overlayOps, operation.target = target) ∨ ∃ rule ∈ plan.overlayFiles,
    rule.1 = target ∧ rule.2 ≠ []

/-- An entry of the module where some target lands, or below a place which is also the directory of
a file rule. -/
def MeetsLanding (input : PlanInput) (probe : Names → Probe) (plan : MountPlan) (magicTargets : List Names)
    (id : String) : Prop :=
  (∃ target point, OverlayTarget plan target ∧ Lands probe target point ∧
    ∃ node, ContributesAt input .overlay id node ∧
    (node = targetComponents point ∨ (∃ rule ∈ plan.overlayFiles, rule.1 = point) ∧
      targetComponents point <+: node)) ∨
  ∃ point ∈ magicTargets, ContributesAt input .magic id (targetComponents point)

/-- An entry of the module at a mount point, or below one which is also the directory of a file rule. -/
def MeetsMountPoint (input : PlanInput) (plan : MountPlan) (overlayTargets magicTargets : List Names)
    (id : String) : Prop :=
  (∃ point ∈ overlayTargets, ∃ node, ContributesAt input .overlay id node ∧
    (node = targetComponents point ∨ (∃ rule ∈ plan.overlayFiles, rule.1 = point) ∧
      targetComponents point <+: node)) ∨
  ∃ point ∈ magicTargets, ContributesAt input .magic id (targetComponents point)

/-- The report is complete, and nothing is in it without a contribution at or below a mount point. -/
structure ReportedExactly (input : PlanInput) (plan : MountPlan) (modules : List ModuleRecord)
    (overlayTargets magicTargets : List Names) : Prop where
  complete : ∀ id ∈ plan.overlayModuleIds, id ∈ modules.map ModuleRecord.id →
    id ∈ mountedModuleIdsForSnapshot modules plan overlayTargets magicTargets
  contributed : ∀ id ∈ mountedModuleIdsForSnapshot modules plan overlayTargets magicTargets,
    id ∈ modules.map ModuleRecord.id ∧
      ((∃ point ∈ overlayTargets, ∃ node, targetComponents point <+: node ∧
        ContributesAt input .overlay id node) ∨
        ∃ point ∈ magicTargets, ContributesAt input .magic id (targetComponents point))

variable {input : PlanInput} {plan : MountPlan} {builder : PlanBuilder} {m : ModuleRecord}
  {modules : List ModuleRecord}
  {overlayTargets magicTargets : List Names} {tree node : MountNode} {backend : Mode}
    {target path point : Names} {id : String}
  {probe : Names → Probe} {execution : OverlayExecutionPlan}

section Tree

theorem mem_collectBackendIds (hordered : node.Ordered compare) : id ∈ collectBackendIds node backend ↔
    ∃ rest below, node.find compare rest = some below ∧ ∃ s ∈ below.value.sources, s.backend = backend ∧
    s.moduleId = id := by
  rw [collectBackendIds, Trie.mem_collect_descend hordered]
  constructor
  · intro h
    obtain ⟨rest, _, below, hdescend, hmem⟩ := h
    exact ⟨rest, below, Trie.descend_find hdescend, by simpa [and_assoc] using hmem⟩
  · intro h
    obtain ⟨rest, below, hfind, hmem⟩ := h
    obtain ⟨s', hdescend⟩ := Trie.exists_descend _ () [] hfind
    exact ⟨rest, s', below, hdescend, by simpa [and_assoc] using hmem⟩

theorem contributesAt_iff (h : planModules input = .ok builder) : ContributesAt input backend id path ↔
    ∃ below, builder.tree.find compare path = some below ∧ ∃ s ∈ below.value.sources, s.backend = backend ∧
    s.moduleId = id := by
  constructor
  · intro hat
    obtain ⟨m, d, hd, hid, hmode, hpath⟩ := hat
    obtain ⟨below, hbelow, hs⟩ := mem_sourcesAt_find.mp ((mem_plan_tree h).mpr ⟨m, d, hd, rfl, hpath⟩)
    exact ⟨below, hbelow, sourceOf m d, hs, hmode, hid⟩
  · intro hfound
    obtain ⟨below, hbelow, s, hs, hbackend, hid⟩ := hfound
    obtain ⟨m, d, hd, rfl, hpath⟩ := (mem_plan_tree h).mp (mem_sourcesAt_find.mpr ⟨below, hbelow, hs⟩)
    exact ⟨m, d, hd, hid, hbackend, hpath⟩

theorem mem_moduleIdsForTarget (h : planModules input = .ok builder) :
    id ∈ MountTree.moduleIdsForTarget builder.tree backend target ↔
    ContributesAt input backend id (targetComponents target) := by
  rw [contributesAt_iff h, MountTree.moduleIdsForTarget, MountTree.find]
  cases hnode : Trie.find compare (targetComponents target) builder.tree with
  | none => simp
  | some node => simp [and_assoc]

theorem mem_moduleIdsForSubtree (h : planModules input = .ok builder) :
    id ∈ MountTree.moduleIdsForSubtree builder.tree backend target ↔
      ∃ node, targetComponents target <+: node ∧ ContributesAt input backend id node := by
  simp only [contributesAt_iff h, MountTree.moduleIdsForSubtree, MountTree.find]
  cases hnode : Trie.find compare (targetComponents target) builder.tree with
  | none =>
    simp only [List.not_mem_nil, false_iff, not_exists, not_and]
    intro path hpre below hbelow
    obtain ⟨rest, rfl⟩ := hpre
    simp [Trie.find_append, hnode] at hbelow
  | some node =>
    simp only [mem_collectBackendIds ((ordered_plan_tree h).find hnode)]
    constructor
    · intro hmem
      obtain ⟨rest, below, hbelow, hs⟩ := hmem
      exact ⟨targetComponents target ++ rest, List.prefix_append _ _,
        below, by simp [Trie.find_append, hnode, hbelow], hs⟩
    · intro hmem
      obtain ⟨path, ⟨rest, rfl⟩, below, hbelow, hs⟩ := hmem
      exact ⟨rest, below, by simpa [Trie.find_append, hnode] using hbelow, hs⟩

end Tree

/-- The report by what the modules contribute. -/
theorem mem_mounted (h : planModules input = .ok builder) (htree : plan.tree = builder.tree) :
    id ∈ mountedModuleIdsForSnapshot modules plan overlayTargets magicTargets ↔
      id ∈ modules.map ModuleRecord.id ∧ MeetsMountPoint input plan overlayTargets magicTargets id := by
  have hoverlay : ∀ point, (id ∈ if point ∈ plan.overlayFiles.map Prod.fst then
        MountTree.moduleIdsForSubtree builder.tree .overlay point
          else MountTree.moduleIdsForTarget builder.tree .overlay point) ↔
      ∃ node, ContributesAt input .overlay id node ∧
        (node = targetComponents point ∨ (∃ rule ∈ plan.overlayFiles, rule.1 = point) ∧
          targetComponents point <+: node) := by
    intro point
    by_cases hrule : point ∈ plan.overlayFiles.map Prod.fst
    · have hruled : ∃ rule ∈ plan.overlayFiles, rule.1 = point := List.mem_map.mp hrule
      rw [if_pos hrule, mem_moduleIdsForSubtree h]
      constructor
      · intro hmem
        obtain ⟨node, hpre, hat⟩ := hmem
        exact ⟨node, hat, .inr ⟨hruled, hpre⟩⟩
      · intro hmem
        obtain ⟨node, hat, rfl | ⟨-, hpre⟩⟩ := hmem
        · exact ⟨_, List.prefix_refl _, hat⟩
        · exact ⟨node, hpre, hat⟩
    · have hfree : ¬∃ rule ∈ plan.overlayFiles, rule.1 = point :=
        fun hruled => hrule (List.mem_map.mpr hruled)
      rw [if_neg hrule, mem_moduleIdsForTarget h]
      simp [hfree]
  simp only [mountedModuleIdsForSnapshot, MeetsMountPoint, List.mem_filter, List.mem_append, List.mem_flatMap,
    htree, hoverlay,
    decide_eq_true_eq, mem_moduleIdsForTarget h]
  exact and_comm

section Active

theorem mem_activeMounts : point ∈ activeMounts plan execution ↔
    (∃ index ∈ execution.direct, ∃ operation, plan.overlayOps[index]? = some operation ∧
      operation.target = point) ∨
      point ∈ execution.shallow.keys := by
  simp [activeMounts, List.mem_dedup, List.mem_insertionSort]

section Landing

variable {point' destination : Names} {result : OverlayDirectoryTarget} {rule : Names × List Names}
  {execution' : OverlayExecutionPlan}
  {operation : OverlayOperation × Nat} {rules : List (Names × List Names)}
    {operations : List (OverlayOperation × Nat)}

/-- The mount points are the places where the targets of the plan land. -/
theorem active_lands (h : buildOverlayExecutionPlan probe plan = .ok execution) :
    point ∈ activeMounts plan execution ↔ ∃ target, OverlayTarget plan target ∧ Lands probe target point := by
  obtain ⟨built, hbuilt, hdirect, -⟩ := build_grouped h
  have hindices : ∀ index, index ∈ execution.direct ↔ ∃ operation, plan.overlayOps[index]? = some operation ∧
      probe operation.target = .directory := by
    intro index
    simp [hdirect, hbuilt.direct, directIndices, List.mk_mem_zipIdx_iff_getElem?]
  rw [mem_activeMounts, keyed_execution h point]
  constructor
  · rintro (⟨index, hindex, operation, hoperation, rfl⟩ | ⟨rule, hrule, hfiles, hlands⟩ |
      ⟨operation, hoperation, -, hlands⟩)
    · obtain ⟨there, hthere, hdirectory⟩ := (hindices index).mp hindex
      obtain rfl : there = operation := Option.some.inj (hthere.symm.trans hoperation)
      exact ⟨_, .inl ⟨there, List.mem_of_getElem? hthere, rfl⟩, .inl ⟨hdirectory, rfl⟩⟩
    · exact ⟨_, .inr ⟨rule, hrule, rfl, hfiles⟩, hlands⟩
    · obtain ⟨operation, index⟩ := operation
      exact ⟨_, .inl ⟨operation, List.mem_of_getElem? (List.mk_mem_zipIdx_iff_getElem?.mp hoperation), rfl⟩,
        hlands⟩
  · rintro ⟨target, ⟨operation, hoperation, rfl⟩ | ⟨rule, hrule, rfl, hfiles⟩, hlands⟩
    · obtain ⟨index, hindex⟩ := List.getElem?_of_mem hoperation
      rcases hlands with ⟨hdirectory, rfl⟩ | hmissing
      · exact .inl ⟨index, (hindices index).mpr ⟨operation, hindex, hdirectory⟩, operation, hindex, rfl⟩
      · exact .inr (.inr ⟨(operation, index), List.mk_mem_zipIdx_iff_getElem?.mpr hindex, hmissing.1,
          .inr hmissing⟩)
    · exact .inr (.inl ⟨rule, hrule, hfiles, hlands⟩)

end Landing

theorem active_of_directory (hexecution : buildOverlayExecutionPlan probe plan = .ok execution)
    (hprobe : probe point = .directory)
    (h : OverlayTarget plan point) : point ∈ activeMounts plan execution :=
  (active_lands hexecution).mpr ⟨point, h, .inl ⟨hprobe, rfl⟩⟩

theorem meets_landing_iff (hexecution : buildOverlayExecutionPlan probe plan = .ok execution)
    {magicTargets : List Names} :
    MeetsMountPoint input plan (activeMounts plan execution) magicTargets id ↔
    MeetsLanding input probe plan magicTargets id := by
  simp only [MeetsMountPoint, MeetsLanding, active_lands hexecution]
  constructor
  · rintro (⟨point, ⟨target, htarget, hlands⟩, hnode⟩ | hmagic)
    · exact .inl ⟨target, point, htarget, hlands, hnode⟩
    · exact .inr hmagic
  · rintro (⟨target, point, htarget, hlands, hnode⟩ | hmagic)
    · exact .inl ⟨point, ⟨target, htarget, hlands⟩, hnode⟩
    · exact .inr hmagic

end Active

/-- What keeps its target is at a mount point or below the directory of a file rule. -/
theorem KeepsTarget.meets (h : buildPlan input = .ok plan)
    (hclosed : ∀ m ∈ input.modules, ParentClosed m.entries)
    (hexecution : buildOverlayExecutionPlan probe plan = .ok execution) (hm : m ∈ input.planned)
    (hkeeps : KeepsTarget input probe m) :
    MeetsMountPoint input plan (activeMounts plan execution) magicTargets m.id := by
  obtain ⟨builder, hmodules, -, hops, hfiles⟩ := buildPlan_ok h
  rcases hkeeps with ⟨dir, hlayer, hprobe⟩ | ⟨parent, relative, hfile, hprobe, hbelow⟩
  · obtain ⟨operation, hoperation, htarget⟩ := operation_of_layer hmodules hm hlayer
    obtain ⟨d, hd, hmode, rfl, -⟩ := layer_decision (hclosed m (mem_planned.mp hm).1) hm hlayer
    rw [← hops] at hoperation
    have hactive := active_of_directory hexecution hprobe (.inl ⟨operation, hoperation, htarget⟩)
    exact .inl ⟨_, hactive, _, ⟨m, d, hd.toPlanned, rfl, hmode, rfl⟩, .inl rfl⟩
  · obtain ⟨rule, hrule, htarget, hsource⟩ := rule_of_file hmodules hm hfile
    obtain ⟨d, hd, hmode, rfl⟩ := file_entry hfile
    rw [← hfiles] at hrule
    have hactive := active_of_directory hexecution hprobe
      (.inr ⟨rule, hrule, htarget, List.ne_nil_of_mem hsource⟩)
    exact .inl ⟨_, hactive, _, ⟨m, d, ⟨hm, hd⟩, rfl, hmode, rfl⟩, .inr ⟨⟨rule, hrule, htarget⟩, hbelow⟩⟩

theorem KeepsTarget.lands (h : buildPlan input = .ok plan)
    (hclosed : ∀ m ∈ input.modules, ParentClosed m.entries)
    (hexecution : buildOverlayExecutionPlan probe plan = .ok execution) (hm : m ∈ input.planned)
    (hkeeps : KeepsTarget input probe m) :
    MeetsLanding input probe plan magicTargets m.id :=
  (meets_landing_iff hexecution).mp (hkeeps.meets h hclosed hexecution hm)

/-- The report is exact if and only if every scanned module of the plan's overlays has, with all it
has mounted elsewhere, an entry where some target lands. -/
theorem mounted_modules_reported_iff (h : buildPlan input = .ok plan)
    (hexecution : buildOverlayExecutionPlan probe plan = .ok execution)
    (modules : List ModuleRecord) (magicTargets : List Names) :
    ReportedExactly input plan modules (activeMounts plan execution) magicTargets ↔
      ∀ id ∈ plan.overlayModuleIds, id ∈ modules.map ModuleRecord.id →
        MeetsLanding input probe plan magicTargets id := by
  simp only [← meets_landing_iff hexecution]
  obtain ⟨builder, hmodules, htree, -⟩ := buildPlan_ok h
  constructor
  · intro hexact id hid hscanned
    exact ((mem_mounted hmodules htree).mp (hexact.complete id hid hscanned)).2
  · intro hall
    refine ⟨fun id hid hscanned => ?_, fun id hid => ?_⟩
    · exact (mem_mounted hmodules htree).mpr ⟨hscanned, hall id hid hscanned⟩
    · obtain ⟨hscanned, hmeets⟩ := (mem_mounted hmodules htree).mp hid
      refine ⟨hscanned, ?_⟩
      rcases hmeets with ⟨point, hpoint, node, hat, hnode⟩ | hmagic
      · refine .inl ⟨point, hpoint, node, ?_, hat⟩
        rcases hnode with rfl | ⟨-, hbelow⟩
        · exact List.prefix_refl _
        · exact hbelow
      · exact .inr hmagic

/-- Fonts for a directory which the device lacks on a partition of its own. -/
def fontsModule : ModuleRecord where
  id := "fonts"
  sourcePath := ["modules", "fonts"]
  entries := [{ relative := ["product", "fonts"], fileType := .directory },
    { relative := ["product", "fonts", "a.ttf"], fileType := .regularFile }]

def fontsInput : PlanInput where
  modules := [fontsModule]
  config := { defaultMode := .overlay, rules := [], moduleBlacklist := [] }
  layout := { roots := [("product", ["product"])], errors := [], mountPoints := [["product"]] }
  vfsAvailable := true

def withoutFonts (path : Names) : Probe := if path = ["product", "fonts"] then .missing else .directory

theorem fonts_unreported : ∃ plan execution, buildPlan fontsInput = .ok plan ∧
    buildOverlayExecutionPlan withoutFonts plan = .ok execution ∧
    activeMounts plan execution = [["product"]] ∧
    plan.overlayModuleIds = ["fonts"] ∧ mountedModuleIdsForSnapshot [fontsModule] plan
      (activeMounts plan execution) [] = [] := by
  have hview : (buildPlan fontsInput).toOption.map (fun plan => (plan.overlayModuleIds,
      (buildOverlayExecutionPlan withoutFonts plan).toOption.map fun execution =>
        (activeMounts plan execution,
        mountedModuleIdsForSnapshot [fontsModule] plan (activeMounts plan execution) []))) =
      some (["fonts"], some ([["product"]], [])) := by decide +kernel
  obtain ⟨plan, hplan, hseen⟩ := buildPlan_of_view hview
  simp only [Prod.mk.injEq] at hseen
  obtain ⟨execution, hexecution, hmounted⟩ := Option.map_eq_some_iff.mp hseen.2
  simp only [Prod.mk.injEq] at hmounted
  exact ⟨plan, execution, hplan, Fallible.ok_of_toOption hexecution, hmounted.1, hseen.1, hmounted.2⟩

theorem fonts_keep (m : ModuleRecord) (hm : m ∈ fontsInput.planned) :
    KeepsTarget fontsInput (fun _ => .directory) m := by
  obtain rfl : m = fontsModule := List.mem_singleton.mp (mem_planned.mp hm).1
  exact .inl ⟨["product", "fonts"], by decide +kernel, rfl⟩

theorem fonts_reported_iff :
    (∃ plan execution, buildPlan fontsInput = .ok plan ∧ buildOverlayExecutionPlan withoutFonts plan =
      .ok execution ∧
      (ReportedExactly fontsInput plan fontsInput.modules (activeMounts plan execution) [] ↔
        ∀ id ∈ plan.overlayModuleIds, id ∈ fontsInput.modules.map ModuleRecord.id →
          MeetsLanding fontsInput withoutFonts plan [] id)) ∧
    ∃ plan execution, buildPlan fontsInput = .ok plan ∧ buildOverlayExecutionPlan (fun _ => .directory) plan =
    .ok execution ∧
      plan.overlayModuleIds = ["fonts"] ∧
        ReportedExactly fontsInput plan fontsInput.modules (activeMounts plan execution) [] := by
  have hview : (buildPlan fontsInput).toOption.map
      (fun plan => ((buildOverlayExecutionPlan withoutFonts plan).toOption.isSome,
      (buildOverlayExecutionPlan (fun _ => .directory) plan).toOption.isSome, plan.overlayModuleIds)) =
        some (true, true, ["fonts"]) := by
    decide +kernel
  obtain ⟨plan, hplan, hseen⟩ := buildPlan_of_view hview
  simp only [Prod.mk.injEq] at hseen
  obtain ⟨hmissing, hpresent, hids⟩ := hseen
  constructor
  · obtain ⟨execution, hexecution⟩ := Option.isSome_iff_exists.mp hmissing
    have hok := Fallible.ok_of_toOption hexecution
    exact ⟨plan, execution, hplan, hok, mounted_modules_reported_iff hplan hok _ _⟩
  · obtain ⟨execution, hexecution⟩ := Option.isSome_iff_exists.mp hpresent
    have hok := Fallible.ok_of_toOption hexecution
    refine ⟨plan, execution, hplan, hok, hids, (mounted_modules_reported_iff hplan hok _ _).mpr
      fun id hid _ => ?_⟩
    have hplanned : ∃ m ∈ fontsInput.planned, m.id = id := by
      rw [hids, List.mem_singleton] at hid
      exact ⟨fontsModule, by decide +kernel, hid.symm⟩
    obtain ⟨m, hm, rfl⟩ := hplanned
    exact (fonts_keep m hm).lands hplan (by decide +kernel) hok hm

end HybridMount.Plan
