import HybridMount.MagicDirectories
import HybridMount.OverlayLanding
import HybridMount.ProtectedTargets
import HybridMount.VfsCompleteness

/-! Where a plan mounts and where it has rules, by what the modules contribute and what is on the device. -/

namespace HybridMount.Plan

/-- A module layers a directory over the target. -/
def LayersOver (input : PlanInput) (target : Names) : Prop :=
  ∃ m ∈ input.planned, ∃ dir, .layer dir ∈ contributions input.layout m (input.rulesOf m) ∧
    input.layout.targetOf dir = target

/-- A module has a single file for the directory. -/
def FilesIn (input : PlanInput) (target : Names) : Prop :=
  ∃ m ∈ input.planned, ∃ parent relative, .file parent relative ∈ contributions input.layout m
    (input.rulesOf m) ∧
    input.layout.targetOf parent = target

/-- The directories of all overlays are found. -/
def AllLocated (input : PlanInput) (probe : Names → Probe) : Prop :=
  ∀ target, LayersOver input target ∨ FilesIn input target → Located probe target

/-- What the accepted entries of the modules make of an empty tree. -/
def PlanInput.tree (input : PlanInput) : MountNode := input.planned.foldl (insertModule input) MountTree.root

/-- A rule is made for a directory of VFS in what a module replaces, and for a file. -/
def Ruled (tree : MountNode) (path : Names) : Prop :=
  ∃ node, tree.find compare path = some node ∧
    (isVfsDir node = true ∧ Owned tree path ∨ isVfsDir node = false ∧ VfsAt node fun s =>
      s.fileType ≠ .directory)

namespace Magic

/-- All that Magic has in the directory is bound where it is. -/
def KeptInPlace (real : RealTree) (dir : Names) (node : MountNode) : Prop :=
  MountNode.fileTypeFor node .magic = some .directory ∧ replaces node = false ∧
    childNeedsTmpfs real dir node = false

/-- Magic comes down to the directory, and replaces it or has something for it that cannot be bound in place. -/
structure Moved (real : RealTree) (tree : MountNode) (dir : Names) : Prop where
  reached : ∀ above n, above <+: dir → above ≠ dir → tree.find compare above = some n →
    KeptInPlace real above n
  moved : ∃ node, tree.find compare dir = some node ∧ MountNode.fileTypeFor node .magic = some .directory ∧
    (replaces node = true ∨ childNeedsTmpfs real dir node = true ∧
      ((node.value.modulePathFor .magic).isSome = true ∨ real.pathExists dir = true))

end Magic

variable {input : PlanInput} {plan : MountPlan} {builder b b' : PlanBuilder} {module m : ModuleRecord}
  {modules : List ModuleRecord}
  {rules : ModuleRulesView} {layout : PartitionLayout} {chosen : List EntryDecision}
    {path target dir parent relative point : Names}
  {id : String} {tree node n : MountNode} {probe : Names → Probe} {real : RealTree}
    {execution : OverlayExecutionPlan} {overlays : Overlays}

section Layers

/-- Every target of an operation has a layer, and every directory of a file rule a file. -/
structure Layered (b : PlanBuilder) : Prop where
  layers : ∀ target entry, b.overlayByTarget.get target = some entry → ∃ id, entry.2.get id ≠ none
  files : ∀ target sources, b.overlayFilesByTarget.get target = some sources → ∃ key, key ∈ sources.keys

theorem Layered.congr (h : Layered b) (hlayers : b'.overlayByTarget = b.overlayByTarget)
    (hfiles : b'.overlayFilesByTarget = b.overlayFilesByTarget) : Layered b' := by
  refine ⟨?_, ?_⟩
  · rw [hlayers]
    exact h.layers
  · rw [hfiles]
    exact h.files

theorem layered_steady : OverlaySteady Layered where
  layer b partition target moduleId source hb := by
    refine ⟨?_, hb.files⟩
    intro target' entry hentry
    simp only [PlanBuilder.addOverlayLayer, OrderedMap.Map.get_insert] at hentry
    split at hentry
    · cases hentry
      exact ⟨moduleId, by simp [OrderedMap.Map.get_insert]⟩
    · exact hb.layers target' entry hentry
  file b target moduleId source hb := by
    refine ⟨hb.layers, ?_⟩
    intro target' sources hsources
    simp only [PlanBuilder.addOverlayFile, OrderedMap.Map.get_insert] at hsources
    split at hsources
    · cases hsources
      exact ⟨(moduleId, source), by simp [OrderedMap.Map.mem_keys_add]⟩
    · exact hb.files target' sources hsources

theorem layered_addOverlays (h : addOverlays module rules layout chosen b = .ok b') (hb : Layered b) :
    Layered b' := by
  rcases layered_steady.addOverlays h hb with ⟨-, hb'⟩ | ⟨mid, hmid, rfl⟩
  · exact hb'
  · exact hmid.congr (collected_view fun _ _ _ => rfl) (collected_view fun _ _ _ => rfl)

theorem layered_processModule (h : processModule module rules layout b = .ok b') (hb : Layered b) :
    Layered b' := by
  obtain ⟨registered, hregister, hoverlays⟩ := Fallible.bind_ok h
  apply layered_addOverlays hoverlays
  refine hb.congr ((registered_all_view (fun _ _ _ => rfl) hregister).trans ?_)
    ((registered_all_view (fun _ _ _ => rfl) hregister).trans ?_)
  · exact noted_view fun _ _ => rfl
  · exact noted_view fun _ _ => rfl

theorem layered_plan (h : planModules input = .ok builder) : Layered builder := by
  apply OverlaySteady.fold (fun _ _ _ hs => layered_processModule hs) h
  refine ⟨?_, ?_⟩
  · intro target entry hentry
    cases hentry
  · intro target sources hsources
    cases hsources

theorem layer_kept (h : overlays.layer target id ≠ none) :
    (modules.foldl (contributeAll input) overlays).layer target id ≠ none := by
  induction modules generalizing overlays with
  | nil => exact h
  | cons x rest ih =>
    apply ih
    rw [layer_contributeAll]
    by_cases hid : id = x.id
    · rw [if_pos hid]
      simp [h]
    · rwa [if_neg hid]

/-- A target that a module layers a directory over keeps a layer, whichever is the last. -/
theorem layer_made (hm : m ∈ modules) (h : .layer dir ∈ contributions input.layout m (input.rulesOf m)) :
    (modules.foldl (contributeAll input) overlays).layer (input.layout.targetOf dir) m.id ≠ none := by
  induction modules generalizing overlays with
  | nil => cases hm
  | cons x rest ih =>
    rcases List.mem_cons.mp hm with rfl | hm
    · rw [List.foldl_cons]
      apply layer_kept
      have hmem : dir ∈ dirsAt input.layout (contributions input.layout m (input.rulesOf m))
          (input.layout.targetOf dir) :=
        mem_dirsAt.mpr ⟨h, rfl⟩
      obtain ⟨last, hlast⟩ := Option.isSome_iff_exists.mp (List.getLast?_isSome.mpr (List.ne_nil_of_mem hmem))
      rw [layer_contributeAll, if_pos rfl, lastDir, hlast]
      simp
    · exact ih hm

theorem operation_of_layer (hmodules : planModules input = .ok builder) (hm : m ∈ input.planned)
    (h : .layer dir ∈ contributions input.layout m (input.rulesOf m)) :
    ∃ operation ∈ builder.finish.overlayOps, operation.target = input.layout.targetOf dir := by
  obtain ⟨source, hsource⟩ := Option.ne_none_iff_exists'.mp (layer_made hm h)
  rw [← planModules_overlays hmodules] at hsource
  obtain ⟨operation, hoperation, htarget, -⟩ := lowerdirs_iff.mpr ⟨m.id, hsource⟩
  exact ⟨operation, hoperation, htarget⟩

/-- The targets of the operations are those over which something is layered. -/
theorem operation_iff (hmodules : planModules input = .ok builder) :
    (∃ operation ∈ builder.finish.overlayOps, operation.target = target) ↔ LayersOver input target := by
  constructor
  · rintro ⟨operation, hoperation, rfl⟩
    obtain ⟨⟨target, entry⟩, hmem, rfl⟩ := List.mem_map.mp hoperation
    have hget := OrderedMap.Map.mem_entries.mp hmem
    obtain ⟨id, hid⟩ := (layered_plan hmodules).layers target entry hget
    obtain ⟨source, hsource⟩ := Option.ne_none_iff_exists'.mp hid
    have hlayer : builder.overlays.layer target id = some source := by
      simp [PlanBuilder.overlays, hget, hsource]
    rw [planModules_overlays hmodules] at hlayer
    rcases layer_of_modules hlayer with hnone | ⟨m, hm, dir, hcontribution, htarget, -⟩
    · cases hnone
    · exact ⟨m, hm, dir, hcontribution, htarget⟩
  · rintro ⟨m, hm, dir, hlayer, rfl⟩
    exact operation_of_layer hmodules hm hlayer

/-- The directories of the file rules are those for which a module has a file, and every rule has one. -/
theorem files_iff (hmodules : planModules input = .ok builder) :
    (∃ rule ∈ builder.finish.overlayFiles, rule.1 = target) ↔ FilesIn input target := by
  constructor
  · rintro ⟨rule, hrule, rfl⟩
    obtain ⟨⟨target, sources⟩, hmem, rfl⟩ := List.mem_map.mp hrule
    have hget := OrderedMap.Map.mem_entries.mp hmem
    obtain ⟨⟨id, source⟩, hkey⟩ := (layered_plan hmodules).files target sources hget
    have hfile : builder.overlays.file target id source := ⟨sources, hget, hkey⟩
    rw [planModules_overlays hmodules, file_of_modules] at hfile
    rcases hfile with ⟨_, hnone, -⟩ | ⟨m, hm, parent, relative, hcontribution, htarget, -⟩
    · cases hnone
    · exact ⟨m, hm, parent, relative, hcontribution, htarget.symm⟩
  · rintro ⟨m, hm, parent, relative, hfile, rfl⟩
    obtain ⟨rule, hrule, htarget, -⟩ := rule_of_file hmodules hm hfile
    exact ⟨rule, hrule, htarget⟩

theorem rule_files (hmodules : planModules input = .ok builder) {rule : Names × List Names}
    (hrule : rule ∈ builder.finish.overlayFiles) : rule.2 ≠ [] := by
  obtain ⟨⟨target, sources⟩, hmem, rfl⟩ := List.mem_map.mp hrule
  obtain ⟨key, hkey⟩ := (layered_plan hmodules).files target sources (OrderedMap.Map.mem_entries.mp hmem)
  exact List.ne_nil_of_mem (List.mem_map_of_mem hkey)

theorem file_named (h : .file parent relative ∈ contributions input.layout m (input.rulesOf m)) :
    relative ≠ [] := by
  unfold contributions at h
  dsimp only at h
  split at h
  · cases h
  split at h
  · obtain ⟨d, hd, hc⟩ := List.mem_filterMap.mp h
    obtain ⟨-, -, -, hlen, -⟩ := wholeContribution_file hc
    exact List.ne_nil_of_length_pos (by omega)
  · obtain ⟨d, hd, -, -, -, hlen, -⟩ := mem_partialContributions_file.mp h
    exact List.ne_nil_of_length_pos (by omega)

end Layers

section Execution

/-- The overlays are planned when all their directories are found. -/
theorem execution_iff (h : buildPlan input = .ok plan) :
    (∃ execution, buildOverlayExecutionPlan probe plan = .ok execution) ↔ AllLocated input probe := by
  obtain ⟨builder, hmodules, -, hops, hfiles⟩ := buildPlan_ok h
  have hnamed : ∀ rule ∈ plan.overlayFiles, ∀ source ∈ rule.2, source ≠ [] := by
    intro rule hrule source hsource
    rw [hfiles] at hrule
    obtain ⟨m, -, parent, relative, hfile, rfl⟩ := file_origin hmodules ⟨rule, hrule, rfl, hsource⟩
    exact List.append_ne_nil_of_right_ne_nil _ (file_named hfile)
  rw [execution_exists hnamed, hops, hfiles]
  constructor
  · rintro ⟨hrules, hoperations⟩ target (hlayers | hfiles)
    · obtain ⟨operation, hoperation, rfl⟩ := (operation_iff hmodules).mpr hlayers
      exact hoperations operation hoperation
    · obtain ⟨rule, hrule, rfl⟩ := (files_iff hmodules).mpr hfiles
      exact hrules rule hrule
  · intro hall
    constructor
    · exact fun rule hrule => hall rule.1 (.inr ((files_iff hmodules).mp ⟨rule, hrule, rfl⟩))
    · exact fun operation hoperation =>
        hall operation.target (.inl ((operation_iff hmodules).mp ⟨operation, hoperation, rfl⟩))

/-- The shallow groups are at the places where single files and rerouted layers land. -/
theorem mem_shallow_keys (h : buildPlan input = .ok plan)
    (hexecution : buildOverlayExecutionPlan probe plan = .ok execution) :
    point ∈ execution.shallow.keys ↔ ∃ target, Lands probe target point ∧
      (FilesIn input target ∨ LayersOver input target ∧ probe target = .missing) := by
  obtain ⟨builder, hmodules, -, hops, hfiles⟩ := buildPlan_ok h
  rw [keyed_execution hexecution point, hfiles, hops]
  constructor
  · rintro (⟨rule, hrule, -, hlands⟩ | ⟨operation, hoperation, hmissing, hlands⟩)
    · exact ⟨rule.1, hlands, .inl ((files_iff hmodules).mp ⟨rule, hrule, rfl⟩)⟩
    · obtain ⟨operation, index⟩ := operation
      have hmem := List.mem_of_getElem? (List.mk_mem_zipIdx_iff_getElem?.mp hoperation)
      exact ⟨operation.target, hlands, .inr ⟨(operation_iff hmodules).mp ⟨operation, hmem, rfl⟩, hmissing⟩⟩
  · rintro ⟨target, hlands, hfile | ⟨hlayers, hmissing⟩⟩
    · obtain ⟨rule, hrule, rfl⟩ := (files_iff hmodules).mpr hfile
      exact .inl ⟨rule, hrule, rule_files hmodules hrule, hlands⟩
    · obtain ⟨operation, hoperation, rfl⟩ := (operation_iff hmodules).mpr hlayers
      obtain ⟨index, hindex⟩ := List.getElem?_of_mem hoperation
      exact .inr ⟨(operation, index), List.mk_mem_zipIdx_iff_getElem?.mpr hindex, hmissing, hlands⟩

end Execution

section Rules

theorem ruled_iff (ht : tree.Ordered compare) :
    (∃ rule ∈ buildVfsRules tree, rule.action.virtualPath = path) ↔ Ruled tree path := by
  constructor
  · rintro ⟨rule, hrule, rfl⟩
    obtain ⟨owner, node, hdescend, hmem⟩ := (mem_buildVfsRules ht).mp hrule
    have hnode := Trie.descend_find hdescend
    refine ⟨node, hnode, ?_⟩
    rcases mem_collectNode hmem with ⟨hdir, haction, -⟩ | ⟨hdir, s, hlast, -, -⟩
    · have hopaque : (⟨.opaqueDir rule.action.virtualPath, rule.moduleId⟩ : VfsRule) = rule := by
        rw [← haction]
      exact .inl ((opaque_iff ht hnode).mp ⟨rule.moduleId, hopaque ▸ hrule⟩)
    · have hkind := List.find?_some hlast
      simp only [ne_eq, decide_not, Bool.and_eq_true, decide_eq_true_eq, Bool.not_eq_true',
        decide_eq_false_iff_not] at hkind
      exact .inr ⟨hdir, s, List.mem_reverse.mp (List.mem_of_find?_eq_some hlast), hkind⟩
  · rintro ⟨node, hnode, hcleared | ⟨hdir, hat⟩⟩
    · obtain ⟨moduleId, hrule⟩ := (opaque_iff ht hnode).mpr hcleared
      exact ⟨_, hrule, rfl⟩
    · obtain ⟨rule, hrule, hpath, -⟩ := payload_of_last ht hnode hdir hat
      exact ⟨rule, hrule, hpath⟩

end Rules

namespace Magic

section

variable {reach reach' : Reach} {current : Names}

/-- Out of place, or at what is no directory, nothing is moved and nothing below is in place. -/
theorem visit_other (h : ¬ (reach = .inPlace ∧ MountNode.fileTypeFor node .magic = some .directory)) :
    (visitDirectory real reach current node).1 = [] ∧ (visitDirectory real reach current node).2 ≠
    .inPlace := by
  unfold visitDirectory
  by_cases hskip : reach = .outside ∨ MountNode.fileTypeFor node .magic ≠ some .directory
  · rw [if_pos hskip]
    exact ⟨rfl, by simp⟩
  · obtain ⟨hreach, hdir⟩ := not_or.mp hskip
    have hrebuilt : reach = .rebuilt := by
      cases reach with
      | outside => exact absurd rfl hreach
      | inPlace => exact absurd ⟨rfl, not_not.mp hdir⟩ h
      | rebuilt => rfl
    rw [if_neg hskip, if_pos hrebuilt]
    exact ⟨rfl, by simp⟩

theorem visit_directory (dir : List String) (hdir : MountNode.fileTypeFor node .magic = some .directory) :
    (dir ∈ (visitDirectory real .inPlace current node).1 ↔ dir = current ∧ (replaces node = true ∨
        childNeedsTmpfs real current node = true ∧
          ((node.value.modulePathFor .magic).isSome = true ∨ real.pathExists current = true))) ∧
      ((visitDirectory real .inPlace current node).2 = .inPlace ↔ KeptInPlace real current node) := by
  have hhere : ¬ (Reach.inPlace = .outside ∨ MountNode.fileTypeFor node .magic ≠ some .directory) := by
    simp [hdir]
  unfold visitDirectory KeptInPlace
  rw [if_neg hhere, if_neg (by decide)]
  cases hreplaces : replaces node with
  | true => simp
  | false =>
    cases hneeds : childNeedsTmpfs real current node with
    | false => simp [hdir]
    | true =>
      cases hsome : (node.value.modulePathFor .magic).isSome with
      | true => simp [Option.isSome_iff_ne_none.mp hsome]
      | false =>
        have hnone : node.value.modulePathFor .magic = none := by simpa using hsome
        cases real.pathExists current with
        | true => simp
        | false => simp [hnone]

/-- Magic stays in place on the way down to a node if it does at each node above. -/
theorem descend_inPlace
    (h : Trie.descend compare (visitDirectory real) reach current path tree = some (reach', node)) :
    reach' = .inPlace ↔ reach = .inPlace ∧ ∀ above n, above <+: path → above ≠ path →
    tree.find compare above = some n →
      KeptInPlace real (current ++ above) n := by
  induction path generalizing tree reach current with
  | nil =>
    cases h
    refine ⟨fun hplace => ⟨hplace, ?_⟩, fun hplace => hplace.1⟩
    exact fun above n habove hne => absurd (List.prefix_nil.mp habove) hne
  | cons name rest ih =>
    cases hget : OrderedMap.get compare name tree.children with
    | none => simp [Trie.descend, hget] at h
    | some child =>
      simp only [Trie.descend, hget, Option.bind_some] at h
      have hchild : ∀ {above}, tree.find compare (name :: above) = child.find compare above := by
        intro above
        simp [Trie.find, hget]
      rw [ih h]
      by_cases hhere : reach = .inPlace ∧ MountNode.fileTypeFor tree .magic = some .directory
      · obtain ⟨rfl, hdir⟩ := hhere
        rw [(visit_directory [] hdir).2]
        constructor
        · rintro ⟨hkept, hall⟩
          refine ⟨rfl, fun above n habove hne hn => ?_⟩
          rcases List.prefix_cons_iff.mp habove with rfl | ⟨above, rfl, hbelow⟩
          · cases hn
            rw [List.append_nil]
            exact hkept
          · have hkept' := hall above n hbelow (fun heq => hne (by rw [heq])) (hchild ▸ hn)
            rwa [List.append_assoc] at hkept'
        · rintro ⟨-, hall⟩
          have hkept := hall [] tree List.nil_prefix (by simp) rfl
          rw [List.append_nil] at hkept
          refine ⟨hkept, fun above n habove hne hn => ?_⟩
          have hkept' := hall (name :: above) n ((List.prefix_cons_inj name).mpr habove) (by simpa using hne)
            (hchild.trans hn)
          rwa [List.append_assoc]
      · refine iff_of_false (fun hkept => (visit_other hhere).2 hkept.1) ?_
        rintro ⟨rfl, hall⟩
        exact hhere ⟨rfl, (hall [] tree List.nil_prefix (by simp) rfl).1⟩

theorem mem_rebuilt (ht : tree.Ordered compare) : dir ∈ rebuiltDirectories real tree ↔
    Moved real tree dir := by
  rw [rebuiltDirectories, Trie.mem_collect_descend ht]
  constructor
  · rintro ⟨path, reach, node, hdescend, hmem⟩
    rw [List.nil_append] at hmem
    by_cases hhere : reach = .inPlace ∧ MountNode.fileTypeFor node .magic = some .directory
    · obtain ⟨rfl, hdir⟩ := hhere
      obtain ⟨rfl, hmoved⟩ := (visit_directory _ hdir).1.mp hmem
      obtain ⟨-, hreached⟩ := (descend_inPlace hdescend).mp rfl
      exact ⟨hreached, node, Trie.descend_find hdescend, hdir, hmoved⟩
    · rw [(visit_other hhere).1] at hmem
      cases hmem
  · rintro ⟨hreached, node, hnode, hdir, hmoved⟩
    obtain ⟨reach, hdescend⟩ := Trie.exists_descend (visitDirectory real) .inPlace [] hnode
    obtain rfl := (descend_inPlace hdescend).mpr ⟨rfl, hreached⟩
    exact ⟨dir, _, node, hdescend, (visit_directory _ hdir).1.mpr ⟨rfl, hmoved⟩⟩

end

end Magic

end HybridMount.Plan
