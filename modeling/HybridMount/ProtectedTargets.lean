import HybridMount.PlanConflicts

/-! What a plan does at and above the targets which it has to keep reachable. -/

namespace HybridMount.Plan

/-- An entry which hides a directory that it meets: a replaced directory or no directory at all. -/
def Covering (entry : ModuleEntry) : Prop := entry.replace = true ∨ entry.fileType ≠ .directory

def StrictlyAbove (target p : Names) : Prop := target <+: p ∧ target ≠ p

/-- Neither the mapped target nor the node of a contribution, which is trimmed, has the property. -/
def Nowhere (input : PlanInput) (d : EntryDecision) (reaches : Names → Prop) : Prop :=
  ¬ reaches (input.target d) ∧ ¬ reaches (targetComponents (input.target d))

/-- An entry of the module which the screening refuses for a protected target. -/
def Refused (input : PlanInput) (m : ModuleRecord) (entry : ModuleEntry) : Prop :=
  entry ∈ m.entries ∧ (input.rulesOf m).resolveMode entry.relative ≠ .ignore ∧
    ∃ partition target, input.layout.mapTarget entry.relative = .ok (partition, target) ∧
      coversProtected input.layout entry target = true

/-- An accepted entry, whose partition the layout does not reject. -/
structure Admitted (input : PlanInput) (m : ModuleRecord)
    (d : EntryDecision) : Prop extends Planned input m d where
  partition : input.layout.error? (input.layout.logicalPartition d.entry.relative) = none

/-- Protected targets stay reachable, and nothing of a rejected partition is in the plan. -/
structure Protects (input : PlanInput) (plan : MountPlan) : Prop where
  ancestors : ∀ m d, Active input m d → Covering d.entry → ∀ p ∈ plan.protectedTargets,
    Nowhere input d fun target => StrictlyAbove target p
  whiteouts : ∀ m d, Active input m d → d.entry.fileType = .whiteout → ∀ p ∈ plan.protectedTargets,
    Nowhere input d fun target => target = p
  blocked : ∀ m ∈ input.planned, ∀ entry, Refused input m entry → ∀ d, Active input m d →
    ¬ entry.relative <+: d.entry.relative
  layers : ∀ op ∈ plan.overlayOps, ∀ lower ∈ op.lowerdirs, ∃ m d dir, Admitted input m d ∧ d.mode = .overlay ∧
    dir <+: d.entry.relative ∧ lower = m.sourcePath ++ dir
  files : ∀ rule ∈ plan.overlayFiles, ∀ file ∈ rule.2, ∃ m d, Admitted input m d ∧ d.mode = .overlay ∧
    file = m.sourcePath ++ d.entry.relative
  nodes : ∀ path node, plan.tree.find compare path = some node → path ≠ [] →
    (∃ m d, Admitted input m d ∧ path <+: targetComponents (input.target d)) ∧
      ∀ s ∈ node.value.sources, ∃ m d, Admitted input m d ∧ s = sourceOf m d

/-- No regular file, and no name that the tree trims, meets a protected target. -/
structure PlainAndUntrimmed (input : PlanInput) : Prop where
  regular : ∀ m d, Active input m d → d.entry.fileType = .regularFile → ∀ p ∈ protectedTargets input.layout,
    ¬ StrictlyAbove (input.target d) p
  trimmed : ∀ m d, Active input m d → targetComponents (input.target d) ≠ input.target d →
    ∀ p ∈ protectedTargets input.layout,
    (Covering d.entry → ¬ StrictlyAbove (targetComponents (input.target d)) p) ∧
      (d.entry.fileType = .whiteout → targetComponents (input.target d) ≠ p)

variable {input : PlanInput} {plan : MountPlan} {builder : PlanBuilder} {m : ModuleRecord} {d : EntryDecision}
  {entry : ModuleEntry} {p path target source dir parent relative : Names} {id : String}
    {tree node : MountNode}
  {modules : List ModuleRecord} {overlays : Overlays}

section Screening

theorem not_blocked (hd : Planned input m d) :
    isBlocked m (input.rulesOf m) input.layout d.entry = false := by
  obtain ⟨-, haccepts, -⟩ := mem_decisions.mp hd.decision
  simp only [accepts, Bool.and_eq_true, Bool.not_eq_true'] at haccepts
  exact haccepts.1.1.1

theorem Planned.admitted (hd : Planned input m d) : Admitted input m d where
  toPlanned := hd
  partition := by
    obtain ⟨-, haccepts, -⟩ := mem_decisions.mp hd.decision
    simp only [accepts, Bool.and_eq_true, Option.isNone_iff_eq_none] at haccepts
    exact haccepts.1.1.2

theorem blocked_of_screened (hentry : entry ∈ m.entries)
    (hscreen : (screenEntry m (input.rulesOf m) input.layout entry).2 = true)
    (hpre : entry.relative <+: d.entry.relative) :
    isBlocked m (input.rulesOf m) input.layout d.entry = true := by
  refine List.any_eq_true.mpr ⟨entry.relative, ?_, isSameOrBelow_iff.mpr hpre⟩
  exact List.mem_map_of_mem (List.mem_filter.mpr ⟨hentry, hscreen⟩)

theorem Refused.screened (h : Refused input m entry) :
    (screenEntry m (input.rulesOf m) input.layout entry).2 = true := by
  obtain ⟨-, hmode, partition, target, hmap, hcovers⟩ := h
  unfold screenEntry
  rw [if_neg hmode, hmap]
  dsimp only
  split
  · rfl
  · rfl

theorem active_spares (h : planModules input = .ok builder) (hd : Active input m d) :
    coversProtected input.layout d.entry (input.target d) = false := by
  obtain ⟨hentry, -, hmode⟩ := mem_decisions.mp hd.decision
  rw [← Bool.not_eq_true]
  intro hcovers
  have hrefused : Refused input m d.entry :=
    ⟨hentry, hmode ▸ hd.mode, _, _, (decision_mapped h hd.module hd.decision).2, hcovers⟩
  have hblocked := blocked_of_screened hentry hrefused.screened (List.prefix_refl d.entry.relative)
  rw [not_blocked hd.toPlanned] at hblocked
  cases hblocked

/-- What the screening looks at is not above a protected target. -/
theorem active_destructive (h : planModules input = .ok builder) (hd : Active input m d)
    (hkind : d.entry.replace = true ∨ d.entry.fileType = .symlink ∨ d.entry.fileType = .whiteout)
    (hp : p ∈ protectedTargets input.layout) (hpre : input.target d <+: p) :
    input.target d = p ∧ d.entry.fileType ≠ .whiteout := by
  have hspares := active_spares h hd
  have hdestructive : (d.entry.replace || decide (d.entry.fileType = .symlink) ||
      decide (d.entry.fileType = .whiteout)) = true := by
    rcases hkind with hkind | hkind | hkind
    · simp [hkind]
    · simp [hkind]
    · simp [hkind]
  simp only [coversProtected, hdestructive, Bool.true_and, List.any_eq_false, Bool.and_eq_true,
    Bool.or_eq_true,
    List.isPrefixOf_iff_prefix, decide_eq_true_eq, not_and, not_or] at hspares
  obtain ⟨hsame, htype⟩ := hspares p hp hpre
  exact ⟨(not_not.mp hsame).symm, htype⟩

end Screening

section Overlays

/-- A layer of a module comes from an overlay entry at or below it. -/
theorem layer_entry (h : .layer dir ∈ contributions input.layout m (input.rulesOf m)) :
    ∃ d ∈ decisions m (input.rulesOf m) input.layout, d.mode = .overlay ∧ dir <+: d.entry.relative := by
  unfold contributions at h
  dsimp only at h
  split at h
  · cases h
  split at h
  · rename_i hwhole
    obtain ⟨d, hd, hc⟩ := List.mem_filterMap.mp h
    obtain ⟨-, hdir⟩ := wholeContribution_layer hc
    simp only [isWholeOverlay, Bool.and_eq_true, List.all_eq_true, decide_eq_true_eq] at hwhole
    refine ⟨d, hd, hwhole.1 d hd, ?_⟩
    rcases hdir with ⟨rfl, -⟩ | ⟨rfl, -⟩
    · exact List.prefix_refl _
    · exact List.take_prefix _ _
  · obtain ⟨d, hd, hmode, -, -, rfl⟩ := mem_partialContributions_layer.mp h
    exact ⟨d, hd, hmode, List.prefix_refl _⟩

theorem file_entry (h : .file parent relative ∈ contributions input.layout m (input.rulesOf m)) :
    ∃ d ∈ decisions m (input.rulesOf m) input.layout, d.mode = .overlay ∧ d.entry.relative = relative := by
  unfold contributions at h
  dsimp only at h
  split at h
  · cases h
  split at h
  · rename_i hwhole
    obtain ⟨d, hd, hc⟩ := List.mem_filterMap.mp h
    obtain ⟨-, hself, -⟩ := wholeContribution_file hc
    simp only [isWholeOverlay, Bool.and_eq_true, List.all_eq_true, decide_eq_true_eq] at hwhole
    exact ⟨d, hd, hwhole.1 d hd, hself.symm⟩
  · obtain ⟨d, hd, hmode, -, -, -, -, hself⟩ := mem_partialContributions_file.mp h
    exact ⟨d, hd, hmode, hself⟩

theorem layer_of_modules (h : (modules.foldl (contributeAll input) overlays).layer target id = some source) :
    overlays.layer target id = some source ∨ ∃ m ∈ modules, ∃ dir, .layer dir ∈ contributions input.layout m
      (input.rulesOf m) ∧
      input.layout.targetOf dir = target ∧ source = m.sourcePath ++ dir := by
  induction modules generalizing overlays with
  | nil => exact .inl h
  | cons x rest ih =>
    rcases ih h with h | ⟨m, hm, hrest⟩
    · rw [layer_contributeAll] at h
      split at h
      · cases hlast : lastDir input x target with
        | none =>
          rw [hlast] at h
          exact .inl h
        | some dir =>
          rw [hlast] at h
          simp only [Option.map_some, Option.some_or, Option.some.injEq] at h
          obtain ⟨hlayer, htarget⟩ := mem_dirsAt.mp (List.mem_of_getLast? hlast)
          exact .inr ⟨x, List.mem_cons_self, dir, hlayer, htarget, h.symm⟩
      · exact .inl h
    · exact .inr ⟨m, List.mem_cons_of_mem x hm, hrest⟩

end Overlays

section Nodes

/-- A node is at or above the target of something that was inserted, or was there before. -/
theorem find_insertModules (h : (modules.foldl (insertModule input) tree).find compare path = some node) :
    (∃ node', tree.find compare path = some node') ∨
    ∃ m ∈ modules, ∃ d ∈ decisions m (input.rulesOf m) input.layout,
      path <+: targetComponents (input.target d) := by
  have hdecisions : ∀ (m : ModuleRecord) (chosen : List EntryDecision) (tree node : MountNode),
      (chosen.foldl (insertDecision m input.layout) tree).find compare path = some node →
        (∃ node', tree.find compare path = some node') ∨
          ∃ d ∈ chosen, path <+: targetComponents (input.target d) := by
    intro m chosen
    induction chosen with
    | nil => exact fun tree node h => .inl ⟨node, h⟩
    | cons d rest ih =>
      intro tree node h
      rcases ih _ _ h with ⟨node', h⟩ | ⟨d', hd', hpre⟩
      · rcases Trie.find_grow h with h | hpre
        · exact .inl h
        · simp only [List.map_map, Function.comp_def, List.zipIdx_map_fst] at hpre
          exact .inr ⟨d, List.mem_cons_self, hpre⟩
      · exact .inr ⟨d', List.mem_cons_of_mem d hd', hpre⟩
  induction modules generalizing tree with
  | nil => exact .inl ⟨node, h⟩
  | cons m rest ih =>
    rcases ih h with ⟨node', h⟩ | ⟨m', hm', hrest⟩
    · rcases hdecisions m _ tree node' h with h | ⟨d, hd, hpre⟩
      · exact .inl h
      · exact .inr ⟨m, List.mem_cons_self, d, hd, hpre⟩
    · exact .inr ⟨m', List.mem_cons_of_mem m hm', hrest⟩

theorem find_root (hpath : path ≠ []) : MountTree.root.find compare path = none := by
  cases path with
  | nil => exact absurd rfl hpath
  | cons name rest => rfl

end Nodes

/-- A plan protects what it has to exactly when no regular file and no trimmed name gets in the way. -/
theorem protected_targets_iff (h : buildPlan input = .ok plan) : Protects input plan ↔
    PlainAndUntrimmed input := by
  obtain ⟨builder, hmodules, htree, hops, hfiles⟩ := buildPlan_ok h
  have hprotected : plan.protectedTargets = protectedTargets input.layout := by
    obtain ⟨_, _, h⟩ := Fallible.bind_ok h
    obtain ⟨_, _, h⟩ := Fallible.bind_ok h
    obtain ⟨_, _, h⟩ := Fallible.bind_ok h
    obtain ⟨_, _, h⟩ := Fallible.bind_ok h
    obtain ⟨_, _, h⟩ := Fallible.bind_ok h
    cases h
    rfl
  constructor
  · intro hplan
    refine ⟨?_, ?_⟩
    · intro m d hd htype p hp
      have hkind : Covering d.entry := .inr (by rw [htype]; simp)
      exact (hplan.ancestors m d hd hkind p (hprotected ▸ hp)).1
    · intro m d hd _ p hp
      exact ⟨fun hkind => (hplan.ancestors m d hd hkind p (hprotected ▸ hp)).2,
        fun htype => (hplan.whiteouts m d hd htype p (hprotected ▸ hp)).2⟩
  · intro hclear
    refine ⟨?_, ?_, ?_, ?_, ?_, ?_⟩
    · intro m d hd hkind p hp
      rw [hprotected] at hp
      have htarget : ¬ StrictlyAbove (input.target d) p := by
        by_cases htype : d.entry.fileType = .regularFile
        · exact hclear.regular m d hd htype p hp
        · rintro ⟨hpre, hne⟩
          refine hne (active_destructive hmodules hd ?_ hp hpre).1
          rcases hkind with hkind | hkind
          · exact .inl hkind
          · cases hfile : d.entry.fileType with
            | directory => exact absurd hfile hkind
            | regularFile => exact absurd hfile htype
            | symlink => exact .inr (.inl rfl)
            | whiteout => exact .inr (.inr rfl)
      refine ⟨htarget, ?_⟩
      by_cases htrim : targetComponents (input.target d) = input.target d
      · rwa [htrim]
      · exact (hclear.trimmed m d hd htrim p hp).1 hkind
    · intro m d hd htype p hp
      rw [hprotected] at hp
      have htarget : input.target d ≠ p := fun heq =>
        (active_destructive hmodules hd (.inr (.inr htype)) hp (heq ▸ List.prefix_refl _)).2 htype
      refine ⟨htarget, ?_⟩
      by_cases htrim : targetComponents (input.target d) = input.target d
      · rwa [htrim]
      · exact (hclear.trimmed m d hd htrim p hp).2 htype
    · intro m hm entry hrefused d hd hpre
      have hblocked := blocked_of_screened hrefused.1 hrefused.screened hpre
      rw [not_blocked hd.toPlanned] at hblocked
      cases hblocked
    · intro op hop lower hlower
      obtain ⟨id, hid⟩ := lowerdirs_iff.mp ⟨op, hops ▸ hop, rfl, hlower⟩
      rw [planModules_overlays hmodules] at hid
      rcases layer_of_modules hid with hnone | ⟨m, hm, dir, hlayer, -, hsource⟩
      · cases hnone
      · obtain ⟨d, hd, hmode, hpre⟩ := layer_entry hlayer
        exact ⟨m, d, dir, Planned.admitted ⟨hm, hd⟩, hmode, hpre, hsource⟩
    · intro rule hrule file hfile
      obtain ⟨m, hm, parent, relative, hcontribution, hsource⟩ :=
        file_origin hmodules ⟨rule, hfiles ▸ hrule, rfl, hfile⟩
      obtain ⟨d, hd, hmode, rfl⟩ := file_entry hcontribution
      exact ⟨m, d, Planned.admitted ⟨hm, hd⟩, hmode, hsource⟩
    · intro path node hnode hpath
      rw [htree] at hnode
      constructor
      · rw [planModules_tree hmodules] at hnode
        rcases find_insertModules hnode with ⟨node', hroot⟩ | ⟨m, hm, d, hd, hpre⟩
        · rw [find_root hpath] at hroot
          cases hroot
        · exact ⟨m, d, Planned.admitted ⟨hm, hd⟩, hpre⟩
      · intro s hs
        obtain ⟨m, d, hd, hself, -⟩ := (mem_plan_tree hmodules).mp (mem_sourcesAt_find.mpr ⟨node, hnode, hs⟩)
        exact ⟨m, d, hd.admitted, hself⟩

/-- One module with one entry, in a system with a mount point below /system/etc. -/
def overPermissions (entry : ModuleEntry) : PlanInput where
  modules := [{ id := "a", sourcePath := ["modules", "a"], entries := [entry] }]
  config := { defaultMode := .magic, rules := [], moduleBlacklist := [] }
  layout := { roots := [("system", ["system"])], errors := [],
              mountPoints := [["system", "etc", "permissions"]] }
  vfsAvailable := true

def etcFile : ModuleEntry := { relative := ["system", "etc"], fileType := .regularFile }

/-- The name ends in a blank. -/
def etcBlank : ModuleEntry := { relative := ["system", "etc "], fileType := .directory, replace := true }

theorem protected_targets_etcFile : ∃ plan, buildPlan (overPermissions etcFile) = .ok plan ∧
    (Protects (overPermissions etcFile) plan ↔ PlainAndUntrimmed (overPermissions etcFile)) := by
  obtain ⟨plan, hplan⟩ := exists_plan
    (show (buildPlan (overPermissions etcFile)).toOption.isSome = true by decide +kernel)
  exact ⟨plan, hplan, protected_targets_iff hplan⟩

/-- A file stands where the mount point has a parent, and so does a replaced directory whose name is trimmed. -/
theorem protected_targets_covered :
    (∃ plan, buildPlan (overPermissions etcFile) = .ok plan ∧ ¬ Protects (overPermissions etcFile) plan) ∧
      ∃ plan, buildPlan (overPermissions etcBlank) = .ok plan ∧
        ¬ Protects (overPermissions etcBlank) plan := by
  have hplan : ∀ entry, Covering entry →
      (buildPlan (overPermissions entry)).toOption.map MountPlan.protectedTargets =
      some [["system", "etc", "permissions"]] →
      Active (overPermissions entry) ⟨"a", false, false, true, ["modules", "a"], [entry]⟩ ⟨entry, .magic⟩ →
      targetComponents ((overPermissions entry).target ⟨entry, .magic⟩) = ["system", "etc"] →
      ∃ plan, buildPlan (overPermissions entry) = .ok plan ∧ ¬ Protects (overPermissions entry) plan := by
    intro entry hkind hview hactive hnode
    obtain ⟨plan, hplan, hprotected⟩ := buildPlan_of_view hview
    refine ⟨plan, hplan, fun hprotects => ?_⟩
    have hnowhere := hprotects.ancestors _ _ hactive hkind ["system", "etc", "permissions"]
      (by simp [hprotected])
    apply hnowhere.2
    rw [hnode]
    exact ⟨⟨["permissions"], rfl⟩, by simp⟩
  constructor
  · exact hplan etcFile (.inr (by decide)) (by decide +kernel)
      ⟨⟨by decide +kernel, by decide +kernel⟩, by decide⟩ (by decide +kernel)
  · exact hplan etcBlank (.inl rfl) (by decide +kernel) ⟨⟨by decide +kernel, by decide +kernel⟩, by decide⟩
      (by decide +kernel)

end HybridMount.Plan
