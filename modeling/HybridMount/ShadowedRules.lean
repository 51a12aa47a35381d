import HybridMount.PlannedMounts

/-! Which VFS rules of a plan end up below a mount of another backend. -/

namespace HybridMount.Plan

/-- The directories on which the plan's overlays are mounted: the targets of the operations, and
what the execution plan mounts single files and rerouted layers on. -/
def OverlayMountPoint (probe : Names → Probe) (plan : MountPlan) (point : Names) : Prop :=
  (∃ op ∈ plan.overlayOps, op.target = point) ∨
    ∃ execution, buildOverlayExecutionPlan probe plan = .ok execution ∧ point ∈ execution.shallow.keys

/-- No VFS rule is at or below an overlay or a directory that Magic rebuilds. -/
structure NeverShadowed (probe : Names → Probe) (real : RealTree) (plan : MountPlan) : Prop where
  overlays : ∀ point, OverlayMountPoint probe plan point → ∀ rule ∈ buildVfsRules plan.tree,
    ¬ point <+: rule.action.virtualPath
  magic : ∀ dir ∈ Magic.rebuiltDirectories real plan.tree, ∀ rule ∈ buildVfsRules plan.tree,
    ¬ dir <+: rule.action.virtualPath

/-- A source that the planner takes for a mount of its whole directory. -/
def MountsDirectory (s : MountSource) : Prop :=
  (s.backend = .overlay ∨ s.backend = .magic) ∧ (s.fileType = .directory ∨ s.replace = true)

/-- A node at or above the mount point, and strictly above the rule, mounts its directory. -/
def Shown (tree : MountNode) (point path : Names) : Prop :=
  ∃ above node, above <+: point ∧ above ≠ path ∧ tree.find compare above = some node ∧
    ∃ s ∈ node.value.sources, MountsDirectory s

/-- The mounts for which the planner has no node to look at: where a single file or a layer without a
directory of its own lands, what Magic moves a tmpfs onto, and a layer over a target which the tree
trims or which is the path of the rule itself. -/
inductive Unchecked (input : PlanInput) (probe : Names → Probe) (real : RealTree) (path : Names) : Names → Prop
  | file {target point : Names} (hfile : FilesIn input target) (hlands : Lands probe target point)
      (hlocated : AllLocated input probe) : Unchecked input probe real path point
  | rerouted {target point : Names} (hlayers : LayersOver input target) (hmissing : probe target = .missing)
      (hlands : Lands probe target point) (hlocated : AllLocated input probe) :
        Unchecked input probe real path point
  | tmpfs {dir : Names} (hmoved : Magic.Moved real input.tree dir) : Unchecked input probe real path dir
  | layer {target : Names} (hlayers : LayersOver input target)
      (htarget : targetComponents target ≠ target ∨ target = path) :
      Unchecked input probe real path target

/-- Such a mount with no directory of Overlay or Magic at or above it. -/
def Overlooked (input : PlanInput) (probe : Names → Probe) (real : RealTree) (path point : Names) : Prop :=
  Unchecked input probe real path point ∧ ¬ Shown input.tree point path

/-- No rule is made at or below an overlooked mount. -/
def NothingOverlooked (input : PlanInput) (probe : Names → Probe) (real : RealTree) : Prop :=
  ∀ path, Ruled input.tree path → ∀ point, Overlooked input probe real path point → ¬ point <+: path

variable {input : PlanInput} {plan : MountPlan} {builder : PlanBuilder} {m : ModuleRecord}
  {path target dir parent point : Names}
  {tree node n : MountNode} {rule : VfsRule} {ancestor ancestor' : Option (Mode × MountSource)}

section Shown

/-- With parent-closed entries a layered directory is itself an overlay entry that mounts its directory. -/
theorem layer_decision (hclosed : ParentClosed m.entries) (hm : m ∈ input.planned)
    (h : .layer dir ∈ contributions input.layout m (input.rulesOf m)) :
    ∃ d, Active input m d ∧ d.mode = .overlay ∧ d.entry.relative = dir ∧ MountsDirectory (sourceOf m d) := by
  unfold contributions at h
  dsimp only at h
  split at h
  · cases h
  split at h
  · rename_i hwhole
    simp only [isWholeOverlay, Bool.and_eq_true, List.all_eq_true, decide_eq_true_eq] at hwhole
    obtain ⟨d, hd, hc⟩ := List.mem_filterMap.mp h
    obtain ⟨-, hdir⟩ := wholeContribution_layer hc
    have hmode := hwhole.1 d hd
    have hactive : Active input m d := ⟨⟨hm, hd⟩, by rw [hmode]; decide⟩
    rcases hdir with ⟨rfl, -, hreplace⟩ | ⟨htake, hlen, hself⟩
    · exact ⟨d, hactive, hmode, rfl, .inl hmode, .inr hreplace⟩
    · by_cases heq : dir = d.entry.relative
      · exact ⟨d, hactive, hmode, heq.symm, .inl hmode, .inl (hself heq)⟩
      · have hpos := @PartitionLayout.rootLen_pos input.layout d.entry.relative
        have hdirlen : dir.length = input.layout.rootLen d.entry.relative + 1 := by
          rw [htake, List.length_take]
          omega
        have hpre : dir <+: d.entry.relative := htake ▸ List.take_prefix _ _
        have hne : dir ≠ [] := by
          intro hnil
          rw [hnil] at hdirlen
          simp at hdirlen
        obtain ⟨hentry, haccepts, -⟩ := mem_decisions.mp hd
        obtain ⟨hparent, htype⟩ := hclosed d.entry hentry dir hne hpre heq
        obtain ⟨e, he, hrelative⟩ := hparent (by omega)
        have hdirectory := htype e he hrelative
        -- What keeps the directory out keeps out what is below it.
        have haccepted : accepts m (input.rulesOf m) input.layout e = true := by
          have hblocked : isBlocked m (input.rulesOf m) input.layout e = false := by
            rw [← Bool.not_eq_true]
            intro hblocked
            obtain ⟨p, hp, hbelow⟩ := List.any_eq_true.mp hblocked
            rw [isSameOrBelow_iff, hrelative] at hbelow
            have hh : isBlocked m (input.rulesOf m) input.layout d.entry = true :=
              List.any_eq_true.mpr ⟨p, hp, isSameOrBelow_iff.mpr (hbelow.trans hpre)⟩
            rw [not_blocked ⟨hm, hd⟩] at hh
            cases hh
          have hpartition : input.layout.error? (input.layout.logicalPartition e.relative) = none := by
            rw [hrelative, htake, PartitionLayout.logicalPartition_take (by omega) (by omega)]
            exact (Planned.admitted ⟨hm, hd⟩).partition
          simp [accepts, hblocked, hpartition, isPromotedPartitionAlias,
            isRedundantPartitionSelfAlias, hdirectory]
        have hdecision : ⟨e, (input.rulesOf m).resolveMode e.relative⟩ ∈ decisions m (input.rulesOf m)
            input.layout :=
          mem_decisions.mpr ⟨he, haccepted, rfl⟩
        have hmode' := hwhole.1 _ hdecision
        exact ⟨_, ⟨⟨hm, hdecision⟩, by rw [hmode']; decide⟩, hmode', hrelative, .inl hmode', .inl hdirectory⟩
  · obtain ⟨d, hd, hmode, htype, -, rfl⟩ := mem_partialContributions_layer.mp h
    exact ⟨d, ⟨⟨hm, hd⟩, by rw [hmode]; decide⟩, hmode, rfl, .inl hmode, .inl htype⟩

/-- The node of a layer's target mounts its directory. -/
theorem layer_shown (hmodules : planModules input = .ok builder)
    (hclosed : ∀ m ∈ input.modules, ParentClosed m.entries)
    (h : LayersOver input target) :
    ∃ node, builder.tree.find compare (targetComponents target) = some node ∧ ∃ s ∈ node.value.sources,
    MountsDirectory s := by
  obtain ⟨m, hm, dir, hlayer, rfl⟩ := h
  obtain ⟨d, hd, -, rfl, hmounts⟩ := layer_decision (hclosed m (mem_planned.mp hm).1) hm hlayer
  obtain ⟨node, hnode, hs⟩ := source_find hmodules hd
  exact ⟨node, hnode, sourceOf m d, hs, hmounts⟩

end Shown

section Check

/-- Below a mounted directory, and below what is below one, the walk knows of it. -/
theorem checkShadow_state (h : checkShadow ancestor path node = .ok ancestor')
    (hmounts : ancestor ≠ none ∨ ∃ s ∈ node.value.sources, MountsDirectory s) : ∃ a, ancestor' = some a := by
  unfold checkShadow at h
  split at h
  · cases h
  · cases h
    cases hfind : node.value.sources.find?
        (fun source => (source.backend = .overlay || source.backend = .magic) &&
        (source.fileType = .directory || source.replace)) with
    | some source => exact ⟨_, rfl⟩
    | none =>
      rcases hmounts with hsome | ⟨s, hs, hbackend, hkind⟩
      · exact Option.ne_none_iff_exists'.mp hsome
      · have hh := List.find?_eq_none.mp hfind s hs
        rcases hbackend with hbackend | hbackend
        · rcases hkind with hkind | hkind
          · simp [hbackend, hkind] at hh
          · simp [hbackend, hkind] at hh
        · rcases hkind with hkind | hkind
          · simp [hbackend, hkind] at hh
          · simp [hbackend, hkind] at hh

/-- A walk that has met a mounted directory finds no VFS source any more. -/
theorem checkShadow_below {a : Mode × MountSource} (h : tree.visit checkShadow (some a) path = .ok ())
    (hn : tree.find compare parent = some n) : ¬ VfsAt n fun _ => True := by
  induction parent generalizing tree path a with
  | nil =>
    cases hn
    obtain ⟨s', hcheck, -⟩ := Trie.visit_ok h
    rintro ⟨s, hs, hbackend, -⟩
    unfold checkShadow at hcheck
    cases hfind : n.value.sources.find? (fun source => source.backend = .vfs) with
    | none =>
      have hh := List.find?_eq_none.mp hfind s hs
      simp [hbackend] at hh
    | some other =>
      simp only [hfind] at hcheck
      cases hcheck
  | cons name rest ih =>
    cases hget : OrderedMap.get compare name tree.children with
    | none => simp [Trie.find, hget] at hn
    | some child =>
      simp only [Trie.find, hget, Option.bind_some] at hn
      obtain ⟨s', hcheck, hall⟩ := Trie.visit_ok h
      obtain ⟨a', rfl⟩ := checkShadow_state hcheck (.inl (by simp))
      exact ih (hall _ (OrderedMap.get_mem hget)) hn

/-- Strictly below a mounted directory there is no VFS source. -/
theorem not_shadowed (h : ensureVfsNotShadowed tree = .ok ()) (hnode : tree.find compare path = some node)
    (hmounts : ∃ s ∈ node.value.sources, MountsDirectory s) (hne : parent ≠ [])
    (hn : node.find compare parent = some n) :
    ¬ VfsAt n fun _ => True := by
  obtain ⟨ancestor, hvisit⟩ := Trie.visit_find h hnode
  obtain ⟨s', hcheck, hall⟩ := Trie.visit_ok hvisit
  obtain ⟨a, rfl⟩ := checkShadow_state hcheck (.inr hmounts)
  cases parent with
  | nil => exact absurd rfl hne
  | cons name rest =>
    cases hget : OrderedMap.get compare name node.children with
    | none => simp [Trie.find, hget] at hn
    | some child =>
      simp only [Trie.find, hget, Option.bind_some] at hn
      exact checkShadow_below (hall _ (OrderedMap.get_mem hget)) hn

theorem rule_source (ht : tree.Ordered compare) (hrule : rule ∈ buildVfsRules tree) :
    ∃ rest n, tree.find compare (rule.action.virtualPath ++ rest) = some n ∧ VfsAt n fun _ => True := by
  obtain ⟨owner, node, hdescend, hmem⟩ := (mem_buildVfsRules ht).mp hrule
  have hnode := Trie.descend_find hdescend
  rcases mem_collectNode hmem with ⟨hdir, -⟩ | ⟨-, s, hlast, -⟩
  · rcases (isVfsDir_iff (ht.find hnode)).mp hdir with ⟨first, hfirst, -⟩ | ⟨rest, below, -, hbelow, hat⟩
    · exact ⟨[], node, by simpa using hnode, sourceFor_vfsAt hfirst trivial⟩
    · exact ⟨rest, below, find_below hnode hbelow, hat⟩
  · have hkind := List.find?_some hlast
    simp only [Bool.and_eq_true, decide_eq_true_eq] at hkind
    exact ⟨[], node, by simpa using hnode, s, List.mem_reverse.mp (List.mem_of_find?_eq_some hlast),
      hkind.1, trivial⟩

/-- The planner refuses a rule at or below a mount which the tree shows. -/
theorem Shown.not_above (ht : tree.Ordered compare) (hcheck : ensureVfsNotShadowed tree = .ok ())
    (hruled : Ruled tree path)
    (hshown : Shown tree point path) : ¬ point <+: path := by
  intro hpre
  obtain ⟨above, node, habove, hne, hnode, hmounts⟩ := hshown
  obtain ⟨rule, hrule, rfl⟩ := (ruled_iff ht).mpr hruled
  obtain ⟨rest, n, hn, hat⟩ := rule_source ht hrule
  obtain ⟨middle, hmiddle⟩ := habove.trans hpre
  rw [← hmiddle, List.append_assoc, Trie.find_append, hnode, Option.bind_some] at hn
  refine not_shadowed hcheck hnode hmounts ?_ hn hat
  intro hnil
  rw [List.append_eq_nil_iff] at hnil
  rw [hnil.1, List.append_nil] at hmiddle
  exact hne hmiddle

end Check

/-- No VFS rule of an accepted plan is shadowed exactly when none is made below a mount which the
planner overlooks. -/
theorem never_shadowed_iff (probe : Names → Probe) (real : RealTree) (h : buildPlan input = .ok plan)
    (hclosed : ∀ m ∈ input.modules, ParentClosed m.entries) :
    NeverShadowed probe real plan ↔ NothingOverlooked input probe real := by
  obtain ⟨builder, hfinished⟩ := buildPlan_finished h
  have htree : plan.tree = input.tree := hfinished.tree.trans (planModules_tree hfinished.modules)
  have hcheck : ensureVfsNotShadowed input.tree = .ok () := htree ▸ hfinished.tree ▸ hfinished.vfsNotShadowed
  have ht : input.tree.Ordered compare := htree ▸ hfinished.tree ▸ ordered_plan_tree hfinished.modules
  have hlayers : ∀ {target}, (∃ op ∈ plan.overlayOps, op.target = target) ↔ LayersOver input target := by
    intro target
    rw [hfinished.plan]
    exact operation_iff hfinished.modules
  constructor
  · rintro hnever path hruled point ⟨hunchecked, -⟩
    obtain ⟨rule, hrule, rfl⟩ := (ruled_iff ht).mpr hruled
    rw [← htree] at hrule
    have hshallow : ∀ {target}, AllLocated input probe → Lands probe target point →
        (FilesIn input target ∨ LayersOver input target ∧ probe target = .missing) →
          ¬ point <+: rule.action.virtualPath := by
      intro target hlocated hlands hkind
      obtain ⟨execution, hexecution⟩ := (execution_iff h).mpr hlocated
      exact hnever.overlays point
        (.inr ⟨execution, hexecution, (mem_shallow_keys h hexecution).mpr ⟨target, hlands, hkind⟩⟩) rule hrule
    cases hunchecked with
    | file hfile hlands hlocated => exact hshallow hlocated hlands (.inl hfile)
    | rerouted hover hmissing hlands hlocated => exact hshallow hlocated hlands (.inr ⟨hover, hmissing⟩)
    | tmpfs hmoved => exact hnever.magic point (htree ▸ (Magic.mem_rebuilt ht).mpr hmoved) rule hrule
    | layer hover _ => exact hnever.overlays point (.inl (hlayers.mpr hover)) rule hrule
  · intro hnothing
    have hclear : ∀ {point rule}, rule ∈ buildVfsRules plan.tree →
        Unchecked input probe real rule.action.virtualPath point →
        ¬ point <+: rule.action.virtualPath := by
      intro point rule hrule hunchecked
      have hruled := (ruled_iff ht).mp ⟨rule, htree ▸ hrule, rfl⟩
      by_cases hshown : Shown input.tree point rule.action.virtualPath
      · exact hshown.not_above ht hcheck hruled
      · exact hnothing _ hruled point ⟨hunchecked, hshown⟩
    refine ⟨?_, ?_⟩
    · rintro point (⟨op, hop, rfl⟩ | ⟨execution, hexecution, hpoint⟩) rule hrule
      · have hover := hlayers.mp ⟨op, hop, rfl⟩
        by_cases hplain : targetComponents op.target = op.target ∧ op.target ≠ rule.action.virtualPath
        · obtain ⟨node, hnode, hmounts⟩ := layer_shown hfinished.modules hclosed hover
          rw [hplain.1, ← hfinished.tree, htree] at hnode
          have hshown : Shown input.tree op.target rule.action.virtualPath :=
            ⟨op.target, node, List.prefix_refl _, hplain.2, hnode, hmounts⟩
          exact hshown.not_above ht hcheck ((ruled_iff ht).mp ⟨rule, htree ▸ hrule, rfl⟩)
        · rw [not_and_or, not_not] at hplain
          exact hclear hrule (.layer hover hplain)
      · have hlocated := (execution_iff h).mp ⟨execution, hexecution⟩
        obtain ⟨target, hlands, hfile | ⟨hover, hmissing⟩⟩ := (mem_shallow_keys h hexecution).mp hpoint
        · exact hclear hrule (.file hfile hlands hlocated)
        · exact hclear hrule (.rerouted hover hmissing hlands hlocated)
    · exact fun dir hdir rule hrule => hclear hrule (.tmpfs ((Magic.mem_rebuilt ht).mp (htree ▸ hdir)))

/-- Two VFS modules in /system/etc, one entry of which goes to another backend. -/
def loose (name : String) (fileType : NodeFileType) (mode : Mode) : PlanInput where
  modules := [namedModule "a" [tools name fileType], namedModule "b" [tools "x" .regularFile]]
  config := { defaultMode := .vfs, rules := [("a", ⟨none, [("system/etc/" ++ name, mode)]⟩)],
              moduleBlacklist := [] }
  layout := { roots := [("system", ["system"])], errors := [], mountPoints := [] }
  vfsAvailable := true

def stock : RealTree where
  symlinkMetadata _ := .directory
  pathExists _ := true

/-- A single file of Overlay and a file of VFS in directories of their own. -/
def apart : PlanInput where
  modules := [{ id := "a", sourcePath := ["modules", "a"], entries :=
      [{ relative := ["system", "bin"], fileType := .directory },
        { relative := ["system", "bin", "tool"], fileType := .regularFile }] },
    namedModule "b" [tools "x" .regularFile]]
  config := { defaultMode := .vfs, rules := [("a", ⟨none, [("system/bin/tool", .overlay)]⟩)],
              moduleBlacklist := [] }
  layout := { roots := [("system", ["system"])], errors := [], mountPoints := [] }
  vfsAvailable := true

theorem never_shadowed_apart :
    ∃ plan, buildPlan apart = .ok plan ∧ NeverShadowed (fun _ => .directory) stock plan ∧
    NothingOverlooked apart (fun _ => .directory) stock := by
  obtain ⟨plan, hplan, hview⟩ := @buildPlan_of_view _ apart
    (fun plan => (plan.overlayOps.map OverlayOperation.target,
      (buildOverlayExecutionPlan (fun _ => .directory) plan).toOption.map fun execution =>
      execution.shallow.keys,
      Magic.rebuiltDirectories stock plan.tree, buildVfsRules plan.tree))
    ([], some [["system", "bin"]], [],
      [⟨.inject ["system", "etc", "x"] ["modules", "b", "system", "etc", "x"], "b"⟩])
    (by decide +kernel)
  obtain ⟨hops, hview⟩ := Prod.mk.inj hview
  obtain ⟨hkeys, hview⟩ := Prod.mk.inj hview
  obtain ⟨hdirs, hrules⟩ := Prod.mk.inj hview
  have hnever : NeverShadowed (fun _ => .directory) stock plan := by
    refine ⟨?_, ?_⟩
    · rintro point (⟨op, hop, -⟩ | ⟨execution, hexecution, hpoint⟩) rule hrule
      · rw [List.map_eq_nil_iff.mp hops] at hop
        cases hop
      · simp only [hexecution, Except.toOption, Option.map_some, Option.some.injEq] at hkeys
        rw [hkeys, List.mem_singleton] at hpoint
        rw [hrules, List.mem_singleton] at hrule
        rw [hpoint, hrule]
        decide
    · intro dir hdir
      simp [hdirs] at hdir
  exact ⟨plan, hplan, hnever, (never_shadowed_iff _ _ hplan (by decide +kernel)).mp hnever⟩

/-- A single file of Overlay and a symlink of Magic take the directory of the other module's file. -/
theorem shadowed : (∃ plan, buildPlan (loose "hosts" .regularFile .overlay) = .ok plan ∧
      ¬ NeverShadowed (fun _ => .directory) stock plan) ∧
    ∃ plan, buildPlan (loose "link" .symlink .magic) = .ok plan ∧
    ¬ NeverShadowed (fun _ => .directory) stock plan := by
  constructor
  · obtain ⟨plan, hplan, hview⟩ := @buildPlan_of_view _ (loose "hosts" .regularFile .overlay)
      (fun plan => ((buildOverlayExecutionPlan (fun _ => .directory) plan).toOption.map fun execution =>
        execution.shallow.keys,
        buildVfsRules plan.tree))
      (some [["system", "etc"]],
        [⟨.inject ["system", "etc", "x"] ["modules", "b", "system", "etc", "x"], "b"⟩])
      (by decide +kernel)
    obtain ⟨hkeys, hrules⟩ := Prod.mk.inj hview
    refine ⟨plan, hplan, fun hnever => ?_⟩
    cases hexecution : buildOverlayExecutionPlan (fun _ => .directory) plan with
    | error e => simp [hexecution, Except.toOption] at hkeys
    | ok execution =>
      simp only [hexecution, Except.toOption, Option.map_some, Option.some.injEq] at hkeys
      refine hnever.overlays ["system", "etc"] (.inr ⟨execution, hexecution, by simp [hkeys]⟩)
        _ (hrules ▸ List.mem_cons_self) ⟨["x"], rfl⟩
  · obtain ⟨plan, hplan, hview⟩ := @buildPlan_of_view _ (loose "link" .symlink .magic)
      (fun plan => (Magic.rebuiltDirectories stock plan.tree, buildVfsRules plan.tree))
      ([["system", "etc"]], [⟨.inject ["system", "etc", "x"] ["modules", "b", "system", "etc", "x"], "b"⟩])
      (by decide +kernel)
    obtain ⟨hdirs, hrules⟩ := Prod.mk.inj hview
    exact ⟨plan, hplan, fun hnever =>
      hnever.magic ["system", "etc"] (by simp [hdirs]) _ (hrules ▸ List.mem_cons_self) ⟨["x"], rfl⟩⟩

end HybridMount.Plan
