import HybridMount.PlanContributions

/-! Which overlay contributions a finished plan realises. A layer may be replaced by a later layer
of the same module at the same target, and then everything below its directory is lost. -/

namespace HybridMount.Plan

/-- What the scanner promises about a list of modules. -/
structure Scanned (modules : List ModuleRecord) : Prop where
  ids : (modules.map ModuleRecord.id).Nodup
  paths : ∃ moduleDir, ∀ m ∈ modules, m.sourcePath = moduleDir ++ [m.id]
  entries : ∀ m ∈ modules, (m.entries.map ModuleEntry.relative).Nodup

/-- Below the partition directories every ancestor of an entry is an entry, and a directory. -/
def ParentClosed (entries : List ModuleEntry) : Prop :=
  ∀ entry ∈ entries, ∀ above, above ≠ [] → above <+: entry.relative → above ≠ entry.relative →
    (2 ≤ above.length → ∃ parent ∈ entries, parent.relative = above) ∧
      ∀ parent ∈ entries, parent.relative = above → parent.fileType = .directory

instance (entries : List ModuleEntry) : Decidable (ParentClosed entries) :=
  decidable_of_iff (∀ entry ∈ entries, ∀ above ∈ entry.relative.inits, above ≠ [] → above ≠ entry.relative →
    (2 ≤ above.length → ∃ parent ∈ entries, parent.relative = above) ∧
      ∀ parent ∈ entries, parent.relative = above → parent.fileType = .directory) <| by
    simp only [ParentClosed, List.mem_inits]
    exact forall₃_congr fun _ _ _ =>
      ⟨fun h hne hpre hneq => h hpre hne hneq, fun h hpre hne hneq => h hne hpre hneq⟩

/-- The entry appears at its target through a layer of its module or through a file rule. -/
def Covered (plan : MountPlan) (layout : PartitionLayout) (module : ModuleRecord)
    (entry : ModuleEntry) : Prop :=
  (∃ op ∈ plan.overlayOps, ∃ dir, module.sourcePath ++ dir ∈ op.lowerdirs ∧ dir <+: entry.relative ∧
    layout.mapTarget entry.relative =
      .ok (layout.logicalPartition entry.relative, op.target ++ entry.relative.drop dir.length)) ∨
  ∃ rule ∈ plan.overlayFiles, module.sourcePath ++ entry.relative ∈ rule.2 ∧
    layout.mapTarget entry.relative =
      .ok (layout.logicalPartition entry.relative, rule.1 ++ entry.relative.getLast?.toList)

/-- A directory layered above the entry maps elsewhere than the entry, or a directory which the
module layers later over the same target takes its place. -/
def Lost (layout : PartitionLayout) (module : ModuleRecord) (rules : ModuleRulesView)
    (entry : ModuleEntry) : Prop :=
  ∃ dir, .layer dir ∈ contributions layout module rules ∧ dir <+: entry.relative ∧
    (layout.targetOf dir ++ entry.relative.drop dir.length ≠ layout.targetOf entry.relative ∨
      (dirsAt layout (contributions layout module rules) (layout.targetOf dir)).getLast? ≠ some dir)

variable {module : ModuleRecord} {rules : ModuleRulesView} {layout : PartitionLayout}
  {chosen : List EntryDecision}
  {decision d : EntryDecision} {overlay replaced : List Names} {relative dir dir' parent above : Names}

theorem hasOverlayAncestor_iff :
    hasOverlayAncestor relative overlay = true ↔ ∃ above ∈ overlay, above ≠ [] ∧ above <+: relative ∧
    above ≠ relative := by
  simp only [hasOverlayAncestor, List.any_eq_true, List.mem_range, Bool.and_eq_true, decide_eq_true_eq,
    List.contains_iff_mem]
  constructor
  · rintro ⟨n, hn, hpos, hmem⟩
    have hlen : (relative.take n).length = n := by simp only [List.length_take]; omega
    refine ⟨_, hmem, ?_, List.take_prefix n relative, ?_⟩
    · intro h
      rw [h] at hlen
      exact hpos hlen.symm
    · intro h
      rw [h] at hlen
      omega
  · rintro ⟨above, hmem, hne, hpre, hneq⟩
    have hlt : above.length < relative.length := by
      have hle := hpre.length_le
      have hnot : above.length ≠ relative.length := fun h => hneq (hpre.eq_of_length h)
      omega
    refine ⟨above.length, hlt, by simpa using hne, ?_⟩
    rwa [← List.prefix_iff_eq_take.mp hpre]

theorem not_hasOverlayAncestor (h : hasOverlayAncestor relative overlay = false) (hmem : above ∈ overlay)
    (hne : above ≠ [])
    (hpre : above <+: relative) : above = relative := by
  by_contra hneq
  have hh := hasOverlayAncestor_iff.mpr ⟨above, hmem, hne, hpre, hneq⟩
  rw [h] at hh
  cases hh

/-- Among the members of a set above a path there is an uppermost one. -/
theorem exists_uppermost (hmem : above ∈ overlay) (hne : above ≠ []) :
    ∃ top ∈ overlay, top ≠ [] ∧ top <+: above ∧ hasOverlayAncestor top overlay = false := by
  induction hlen : above.length using Nat.strong_induction_on generalizing above with
  | _ n ih =>
    by_cases hanc : hasOverlayAncestor above overlay = true
    · obtain ⟨upper, humem, hune, hupre, huneq⟩ := hasOverlayAncestor_iff.mp hanc
      have hlt : upper.length < n := by
        have hle := hupre.length_le
        have hnot : upper.length ≠ above.length := fun h => huneq (hupre.eq_of_length h)
        omega
      obtain ⟨top, hmem', hne', hpre', hanc'⟩ := ih _ hlt humem hune rfl
      exact ⟨top, hmem', hne', hpre'.trans hupre, hanc'⟩
    · exact ⟨above, hmem, hne, List.prefix_refl _, by simpa using hanc⟩

theorem mem_overlayRels : relative ∈ overlayRels chosen ↔ ∃ d ∈ chosen, d.mode = .overlay ∧
    d.entry.relative = relative := by
  simp [overlayRels, and_assoc]

theorem mem_replacedRoots : relative ∈ replacedRoots layout chosen ↔ ∃ d ∈ chosen, d.entry.replace = true ∧
    d.entry.relative.length = layout.rootLen d.entry.relative ∧ d.entry.relative = relative := by
  simp [replacedRoots, and_assoc]

section Whole

/-- A layer of a module that is overlay as a whole: a replaced partition root, or what an entry
has right below its partition root. -/
theorem wholeContribution_layer (h : wholeContribution layout replaced decision = some (.layer dir)) :
    hasOverlayAncestor decision.entry.relative replaced = false ∧
      (dir = decision.entry.relative ∧ dir.length = layout.rootLen dir ∧ decision.entry.replace = true ∨
        dir = decision.entry.relative.take (layout.rootLen decision.entry.relative + 1) ∧
          layout.rootLen decision.entry.relative + 1 ≤ decision.entry.relative.length ∧
          (dir = decision.entry.relative → decision.entry.fileType = .directory)) := by
  unfold wholeContribution at h
  dsimp only at h
  split at h
  · cases h
  rename_i hanc
  refine ⟨by simpa using hanc, ?_⟩
  split at h
  · rename_i hroot
    cases h
    simp only [Bool.and_eq_true, decide_eq_true_eq] at hroot
    exact .inl ⟨rfl, hroot⟩
  split at h
  · rename_i hdeep
    cases h
    simp only [Bool.or_eq_true, Bool.and_eq_true, decide_eq_true_eq] at hdeep
    refine .inr ⟨rfl, by omega, fun hself => ?_⟩
    rcases hdeep with hdeep | hdeep
    · have hlen := congrArg List.length hself
      simp only [List.length_take] at hlen
      omega
    · exact hdeep.1
  split at h
  · cases h
  · cases h

theorem wholeContribution_file
    (h : wholeContribution layout replaced decision = some (.file parent relative)) :
    hasOverlayAncestor relative replaced = false ∧ relative = decision.entry.relative ∧
    parent = relative.dropLast ∧
      relative.length = layout.rootLen relative + 1 ∧ decision.entry.fileType ≠ .directory := by
  unfold wholeContribution at h
  dsimp only at h
  split at h
  · cases h
  rename_i hanc
  split at h
  · cases h
  split at h
  · cases h
  split at h
  · rename_i hfile
    simp only [Bool.and_eq_true, decide_eq_true_eq] at hfile
    cases h
    refine ⟨by simpa using hanc, rfl, ?_, hfile.2, hfile.1⟩
    rw [List.dropLast_eq_take, hfile.2, Nat.add_sub_cancel]
  · cases h

/-- An entry below its partition root and below no replaced root is layered or goes as a file. -/
theorem wholeContribution_some (hanc : hasOverlayAncestor decision.entry.relative replaced = false)
    (hlen : layout.rootLen decision.entry.relative < decision.entry.relative.length) :
    wholeContribution layout replaced decision =
        some (.layer (decision.entry.relative.take (layout.rootLen decision.entry.relative + 1))) ∨
      wholeContribution layout replaced decision =
        some (.file decision.entry.relative.dropLast decision.entry.relative) := by
  unfold wholeContribution
  dsimp only
  have hroot : ¬(decision.entry.relative.length = layout.rootLen decision.entry.relative) := by omega
  simp only [hanc, hroot, Bool.false_eq_true, if_false, decide_false, Bool.false_and]
  by_cases hdeep : (decide (layout.rootLen decision.entry.relative + 1 < decision.entry.relative.length) ||
      (decide (decision.entry.fileType = .directory) &&
        decide (decision.entry.relative.length = layout.rootLen decision.entry.relative + 1))) = true
  · exact .inl (if_pos hdeep)
  · rw [if_neg hdeep]
    simp only [Bool.or_eq_true, Bool.and_eq_true, decide_eq_true_eq, not_or, not_and] at hdeep
    have hone : decision.entry.relative.length = layout.rootLen decision.entry.relative + 1 := by omega
    have hfile : decision.entry.fileType ≠ .directory := fun h => hdeep.2 h hone
    simp [hone, hfile, List.dropLast_eq_take]

theorem wholeContribution_root (hanc : hasOverlayAncestor decision.entry.relative replaced = false)
    (hlen : decision.entry.relative.length = layout.rootLen decision.entry.relative)
    (hreplace : decision.entry.replace = true) :
    wholeContribution layout replaced decision = some (.layer decision.entry.relative) := by
  simp [wholeContribution, hanc, hlen, hreplace]

theorem rootLen_of_take_two (h : relative.take 2 = above.take 2) :
    layout.rootLen relative = layout.rootLen above := by
  have hr : layout.rootLen (relative.take 2) = layout.rootLen relative :=
    PartitionLayout.rootLen_take (by omega) PartitionLayout.rootLen_le_two
  have ha : layout.rootLen (above.take 2) = layout.rootLen above :=
    PartitionLayout.rootLen_take (by omega) PartitionLayout.rootLen_le_two
  rw [← hr, h, ha]

/-- Two layers of a whole module above one path are the same. -/
theorem wholeLayer_shortest {other : EntryDecision}
    (hd : wholeContribution layout (replacedRoots layout chosen) decision = some (.layer dir))
    (hother : wholeContribution layout (replacedRoots layout chosen) other = some (.layer dir'))
    (hmem : decision ∈ chosen) (hpre : dir <+: dir') : dir = dir' := by
  obtain ⟨hanc, hdir⟩ := wholeContribution_layer hd
  obtain ⟨hanc', hdir'⟩ := wholeContribution_layer hother
  have hbelow : dir' <+: other.entry.relative := by
    rcases hdir' with ⟨rfl, -⟩ | ⟨rfl, -⟩
    · exact List.prefix_refl _
    · exact List.take_prefix _ _
  rcases hdir with ⟨hself, hroot, hreplace⟩ | ⟨htake, hlen, -⟩
  · have hreplaced : dir ∈ replacedRoots layout chosen :=
      mem_replacedRoots.mpr ⟨decision, hmem, hreplace, hself ▸ hroot, hself.symm⟩
    have hne : dir ≠ [] := by
      intro h
      rw [h] at hroot
      exact absurd hroot.symm (Nat.pos_iff_ne_zero.mp PartitionLayout.rootLen_pos)
    have heq := not_hasOverlayAncestor hanc' hreplaced hne (hpre.trans hbelow)
    exact hpre.eq_of_length_le (heq ▸ hbelow.length_le)
  · have hdirlen : dir.length = layout.rootLen decision.entry.relative + 1 := by
      rw [htake, List.length_take]
      omega
    have hpos := @PartitionLayout.rootLen_pos layout decision.entry.relative
    apply hpre.eq_of_length_le
    rcases hdir' with ⟨-, hroot', -⟩ | ⟨htake', hlen', -⟩
    · have htwo := @PartitionLayout.rootLen_le_two layout dir'
      omega
    · have hsame : layout.rootLen decision.entry.relative = layout.rootLen other.entry.relative := by
        apply rootLen_of_take_two
        have hfirst : decision.entry.relative.take 2 = dir.take 2 := by
          rw [htake, List.take_take, Nat.min_eq_left (by omega)]
        obtain ⟨rest, hrest⟩ := hpre.trans hbelow
        rw [hfirst, ← hrest, List.take_append_of_le_length (by omega)]
      rw [htake', List.length_take]
      omega

end Whole

/-- Accepted entries have distinct paths, and what lies above another is a directory. -/
structure Sound (chosen : List EntryDecision) : Prop where
  nonempty : ∀ d ∈ chosen, d.entry.relative ≠ []
  distinct : ∀ d ∈ chosen, ∀ d' ∈ chosen, d.entry.relative = d'.entry.relative → d = d'
  closed : ∀ d ∈ chosen, ∀ d' ∈ chosen, d.entry.relative <+: d'.entry.relative →
    d.entry.relative ≠ d'.entry.relative →
    d.entry.fileType = .directory

theorem wholeFile_above (hsound : Sound chosen) (hd : d ∈ chosen) (hdecision : decision ∈ chosen)
    (hfile : wholeContribution layout (replacedRoots layout chosen) decision = some (.file parent relative))
    (hlayer : wholeContribution layout (replacedRoots layout chosen) d = some (.layer dir)) :
    ¬dir <+: relative := by
  intro hpre
  obtain ⟨hanc, hself, -, hlen, htype⟩ := wholeContribution_file hfile
  obtain ⟨-, hdir⟩ := wholeContribution_layer hlayer
  rcases hdir with ⟨hroot, hrootlen, hreplace⟩ | ⟨htake, hdeep, hdirectory⟩
  · have hreplaced : dir ∈ replacedRoots layout chosen :=
      mem_replacedRoots.mpr ⟨d, hd, hreplace, hroot ▸ hrootlen, hroot.symm⟩
    have hne : dir ≠ [] := hroot ▸ hsound.nonempty d hd
    have heq := not_hasOverlayAncestor hanc hreplaced hne hpre
    rw [heq] at hrootlen
    omega
  · have hdirlen : dir.length = layout.rootLen d.entry.relative + 1 := by
      rw [htake, List.length_take]
      omega
    have hpos := @PartitionLayout.rootLen_pos layout d.entry.relative
    have hsame : layout.rootLen d.entry.relative = layout.rootLen relative := by
      apply rootLen_of_take_two
      have hfirst : d.entry.relative.take 2 = dir.take 2 := by
        rw [htake, List.take_take, Nat.min_eq_left (by omega)]
      obtain ⟨rest, hrest⟩ := hpre
      rw [hfirst, ← hrest, List.take_append_of_le_length (by omega)]
    have hfull : dir = decision.entry.relative := hself ▸ hpre.eq_of_length (by omega)
    by_cases heq : d.entry.relative = decision.entry.relative
    · have hsameEntry := hsound.distinct d hd decision hdecision heq
      exact htype (hsameEntry ▸ hdirectory (hfull.trans heq.symm))
    · have habove : decision.entry.relative <+: d.entry.relative := by
        rw [← hfull, htake]
        exact List.take_prefix _ _
      exact htype (hsound.closed decision hdecision d hd habove fun h => heq h.symm)

theorem whole_layer_or_file (hd : d ∈ chosen)
    (hlen : layout.rootLen d.entry.relative < d.entry.relative.length) :
    (∃ dir, .layer dir ∈ chosen.filterMap (wholeContribution layout (replacedRoots layout chosen)) ∧
      dir <+: d.entry.relative) ∨
      .file d.entry.relative.dropLast d.entry.relative ∈
        chosen.filterMap (wholeContribution layout (replacedRoots layout chosen)) := by
  by_cases hanc : hasOverlayAncestor d.entry.relative (replacedRoots layout chosen) = true
  · obtain ⟨above, hmem, hne, hpre, -⟩ := hasOverlayAncestor_iff.mp hanc
    obtain ⟨top, hmem', -, hpre', htop⟩ := exists_uppermost hmem hne
    obtain ⟨root, hroot, hreplace, hrootlen, rfl⟩ := mem_replacedRoots.mp hmem'
    exact .inl ⟨_, List.mem_filterMap.mpr ⟨root, hroot, wholeContribution_root htop hrootlen hreplace⟩,
      hpre'.trans hpre⟩
  · rcases wholeContribution_some (by simpa using hanc) hlen with h | h
    · exact .inl ⟨_, List.mem_filterMap.mpr ⟨d, hd, h⟩, List.take_prefix _ _⟩
    · exact .inr (List.mem_filterMap.mpr ⟨d, hd, h⟩)

section Partial

theorem mem_partialContributions_layer : .layer dir ∈ partialContributions chosen ↔
    ∃ d ∈ chosen, d.mode = .overlay ∧ d.entry.fileType = .directory ∧
      hasOverlayAncestor d.entry.relative (overlayRels chosen) = false ∧ d.entry.relative = dir := by
  have hfile : ∀ d : EntryDecision, partialFile d ≠ some (.layer dir) := by
    intro d
    unfold partialFile
    split
    · simp
    · simp
  simp [partialContributions, isOverlayDirRoot, hfile, and_assoc]

theorem mem_partialContributions_file : .file parent relative ∈ partialContributions chosen ↔
    ∃ d ∈ chosen, d.mode = .overlay ∧ d.entry.fileType ≠ .directory ∧
      hasOverlayAncestor d.entry.relative (overlayRels chosen) = false ∧ 1 < relative.length ∧
        parent = relative.dropLast ∧ d.entry.relative = relative := by
  have hfile : ∀ d : EntryDecision, partialFile d = some (.file parent relative) ↔
      1 < relative.length ∧ parent = relative.dropLast ∧ d.entry.relative = relative := by
    intro d
    unfold partialFile
    by_cases hlen : d.entry.relative.length ≤ 1
    · simp only [hlen, if_true, reduceCtorEq, false_iff, not_and]
      intro hlt _ heq
      rw [heq] at hlen
      omega
    · simp only [hlen, if_false, Option.some.injEq, Contribution.file.injEq]
      constructor
      · rintro ⟨rfl, rfl⟩
        exact ⟨by omega, rfl, rfl⟩
      · rintro ⟨-, rfl, rfl⟩
        exact ⟨rfl, rfl⟩
  simp [partialContributions, isOverlayFile, hfile, and_assoc]

end Partial

theorem overlayRels_of_layer (hlayer : .layer dir ∈ partialContributions chosen) :
    dir ∈ overlayRels chosen := by
  obtain ⟨d, hd, hmode, -, -, hself⟩ := mem_partialContributions_layer.mp hlayer
  exact mem_overlayRels.mpr ⟨d, hd, hmode, hself⟩

theorem partialLayer_shortest (hsound : Sound chosen) (hdir : .layer dir ∈ partialContributions chosen)
    (hdir' : .layer dir' ∈ partialContributions chosen) (hpre : dir <+: dir') : dir = dir' := by
  obtain ⟨d, hd, -, -, -, hself⟩ := mem_partialContributions_layer.mp hdir
  obtain ⟨d', -, -, -, hanc, hself'⟩ := mem_partialContributions_layer.mp hdir'
  rw [hself'] at hanc
  exact not_hasOverlayAncestor hanc (overlayRels_of_layer hdir) (hself ▸ hsound.nonempty d hd) hpre

theorem partialFile_above (hsound : Sound chosen)
    (hfile : .file parent relative ∈ partialContributions chosen)
    (hlayer : .layer dir ∈ partialContributions chosen) : ¬dir <+: relative := by
  intro hpre
  obtain ⟨d, hd, -, htype, hanc, -, -, hself⟩ := mem_partialContributions_file.mp hfile
  obtain ⟨d', hd', -, htype', -, hself'⟩ := mem_partialContributions_layer.mp hlayer
  rw [hself] at hanc
  have heq := not_hasOverlayAncestor hanc (overlayRels_of_layer hlayer) (hself' ▸ hsound.nonempty d' hd') hpre
  have hsame := hsound.distinct d hd d' hd' (by rw [hself, hself', heq])
  exact htype (hsame ▸ htype')

theorem partial_layer_or_file (hsound : Sound chosen) (hd : d ∈ chosen) (hmode : d.mode = .overlay)
    (hlen : 1 < d.entry.relative.length) :
    (∃ dir, .layer dir ∈ partialContributions chosen ∧ dir <+: d.entry.relative) ∨
      .file d.entry.relative.dropLast d.entry.relative ∈ partialContributions chosen := by
  have hmem : d.entry.relative ∈ overlayRels chosen := mem_overlayRels.mpr ⟨d, hd, hmode, rfl⟩
  obtain ⟨top, htop, -, hpre, hanc⟩ := exists_uppermost hmem (hsound.nonempty d hd)
  obtain ⟨upper, hupper, humode, rfl⟩ := mem_overlayRels.mp htop
  by_cases htype : upper.entry.fileType = .directory
  · exact .inl ⟨_, mem_partialContributions_layer.mpr ⟨upper, hupper, humode, htype, hanc, rfl⟩, hpre⟩
  · have hself : upper.entry.relative = d.entry.relative := by
      by_contra hne
      exact htype (hsound.closed upper hupper d hd hpre hne)
    obtain rfl := hsound.distinct upper hupper d hd hself
    exact .inr (mem_partialContributions_file.mpr ⟨upper, hupper, humode, htype, hanc, hlen, rfl, rfl⟩)

section Module

variable (hsound : Sound (decisions module rules layout))

include hsound

/-- A module layers at most one directory above a path. -/
theorem layer_unique (hdir : .layer dir ∈ contributions layout module rules)
    (hdir' : .layer dir' ∈ contributions layout module rules) (hpre : dir <+: relative)
    (hpre' : dir' <+: relative) :
    dir = dir' := by
  unfold contributions at hdir hdir'
  dsimp only at hdir hdir'
  split at hdir
  · cases hdir
  rename_i hsome
  rw [if_neg hsome] at hdir'
  split at hdir
  · rename_i hwhole
    rw [if_pos hwhole] at hdir'
    obtain ⟨d, hd, hc⟩ := List.mem_filterMap.mp hdir
    obtain ⟨d', hd', hc'⟩ := List.mem_filterMap.mp hdir'
    rcases List.prefix_or_prefix_of_prefix hpre hpre' with h | h
    · exact wholeLayer_shortest hc hc' hd h
    · exact (wholeLayer_shortest hc' hc hd' h).symm
  · rename_i hwhole
    rw [if_neg hwhole] at hdir'
    rcases List.prefix_or_prefix_of_prefix hpre hpre' with h | h
    · exact partialLayer_shortest hsound hdir hdir' h
    · exact (partialLayer_shortest hsound hdir' hdir h).symm

theorem layer_or_file (hd : d ∈ decisions module rules layout) (hmode : d.mode = .overlay)
    (hlen : layout.rootLen d.entry.relative < d.entry.relative.length) :
    (∃ dir, .layer dir ∈ contributions layout module rules ∧ dir <+: d.entry.relative) ∨
      .file d.entry.relative.dropLast d.entry.relative ∈ contributions layout module rules := by
  have hsome : overlayRels (decisions module rules layout) ≠ [] :=
    List.ne_nil_of_mem (mem_overlayRels.mpr ⟨d, hd, hmode, rfl⟩)
  unfold contributions
  dsimp only
  rw [if_neg hsome]
  split
  · exact whole_layer_or_file hd hlen
  · have hpos := @PartitionLayout.rootLen_pos layout d.entry.relative
    exact partial_layer_or_file hsound hd hmode (by omega)

/-- What goes as a file has no layer above it. -/
theorem file_unlayered (hfile : .file parent relative ∈ contributions layout module rules)
    (hlayer : .layer dir ∈ contributions layout module rules) : ¬dir <+: relative := by
  unfold contributions at hfile hlayer
  dsimp only at hfile hlayer
  split at hfile
  · cases hfile
  rename_i hsome
  rw [if_neg hsome] at hlayer
  split at hfile
  · rename_i hwhole
    rw [if_pos hwhole] at hlayer
    obtain ⟨decision, hdecision, hc⟩ := List.mem_filterMap.mp hfile
    obtain ⟨d, hd, hc'⟩ := List.mem_filterMap.mp hlayer
    exact wholeFile_above hsound hd hdecision hc hc'
  · rename_i hwhole
    rw [if_neg hwhole] at hlayer
    exact partialFile_above hsound hfile hlayer

end Module

section Plan

variable {input : PlanInput} {plan : MountPlan} {modules : List ModuleRecord} {builder : PlanBuilder}
  {entry : ModuleEntry}
  {overlays : Overlays} {target source : Names} {id : String} {m : ModuleRecord}

/-- The overlays after the contributions of one module. -/
def contributeAll (input : PlanInput) (overlays : Overlays) (m : ModuleRecord) : Overlays :=
  (contributions input.layout m (input.rulesOf m)).foldl (Overlays.contribute m input.layout) overlays

def lastDir (input : PlanInput) (m : ModuleRecord) (target : Names) : Option Names :=
  (dirsAt input.layout (contributions input.layout m (input.rulesOf m)) target).getLast?

theorem layer_contributeAll : (contributeAll input overlays m).layer target id =
    if id = m.id then ((lastDir input m target).map fun dir => m.sourcePath ++ dir).or
      (overlays.layer target id)
    else overlays.layer target id :=
  layer_contributions

theorem layer_of_other (hid : id ∉ modules.map ModuleRecord.id) :
    (modules.foldl (contributeAll input) overlays).layer target id = overlays.layer target id := by
  induction modules generalizing overlays with
  | nil => rfl
  | cons x rest ih =>
    simp only [List.map_cons, List.mem_cons, not_or] at hid
    rw [List.foldl_cons, ih hid.2, layer_contributeAll, if_neg hid.1]

theorem layer_of_module (hnodup : (modules.map ModuleRecord.id).Nodup) (hm : m ∈ modules) :
    (modules.foldl (contributeAll input) overlays).layer target m.id =
      ((lastDir input m target).map fun dir => m.sourcePath ++ dir).or (overlays.layer target m.id) := by
  induction modules generalizing overlays with
  | nil => cases hm
  | cons x rest ih =>
    obtain ⟨hx, hrest⟩ := List.nodup_cons.mp hnodup
    rw [List.foldl_cons]
    rcases List.mem_cons.mp hm with rfl | hm
    · rw [layer_of_other hx, layer_contributeAll, if_pos rfl]
    · have hne : m.id ≠ x.id := fun h => hx (h ▸ List.mem_map_of_mem hm)
      rw [ih hrest hm, layer_contributeAll, if_neg hne]

theorem file_of_modules : (modules.foldl (contributeAll input) overlays).file target id source ↔
    overlays.file target id source ∨ ∃ m ∈ modules, ∃ parent relative,
      .file parent relative ∈ contributions input.layout m (input.rulesOf m) ∧
        target = input.layout.targetOf parent ∧
        id = m.id ∧ source = m.sourcePath ++ relative := by
  induction modules generalizing overlays with
  | nil => simp
  | cons x rest ih =>
    rw [List.foldl_cons, ih, contributeAll, file_contributions, List.exists_mem_cons_iff, or_assoc]

theorem planModules_overlays (h : planModules input = .ok builder) :
    builder.overlays = input.planned.foldl (contributeAll input) (PlanBuilder.overlays {}) :=
  Fallible.foldlM_view PlanBuilder.overlays _ (fun _ _ _ _ hstep => processModule_ok hstep) h

theorem buildPlan_ok (h : buildPlan input = .ok plan) : ∃ builder, planModules input = .ok builder ∧
    plan.tree = builder.tree ∧ plan.overlayOps = builder.finish.overlayOps ∧
    plan.overlayFiles = builder.finish.overlayFiles := by
  obtain ⟨builder, hfinished⟩ := buildPlan_finished h
  obtain rfl := hfinished.plan
  exact ⟨builder, hfinished.modules, rfl, rfl, rfl⟩

theorem lowerdirs_iff : (∃ op ∈ builder.finish.overlayOps, op.target = target ∧ source ∈ op.lowerdirs) ↔
    ∃ id, builder.overlays.layer target id = some source := by
  simp only [PlanBuilder.finish, List.mem_map, PlanBuilder.overlays, exists_exists_and_eq_and,
    Option.bind_eq_some_iff]
  constructor
  · rintro ⟨⟨t, entry⟩, hmem, rfl, hsource⟩
    obtain ⟨id, hid⟩ := OrderedMap.Map.mem_values.mp hsource
    exact ⟨id, entry, OrderedMap.Map.mem_entries.mp hmem, hid⟩
  · rintro ⟨id, entry, hentry, hid⟩
    exact ⟨⟨target, entry⟩, OrderedMap.Map.mem_entries.mpr hentry, rfl,
      OrderedMap.Map.mem_values.mpr ⟨id, hid⟩⟩

theorem overlayFiles_iff : (∃ rule ∈ builder.finish.overlayFiles, rule.1 = target ∧ source ∈ rule.2) ↔
    ∃ id, builder.overlays.file target id source := by
  simp only [PlanBuilder.finish, List.mem_map, PlanBuilder.overlays, exists_exists_and_eq_and]
  constructor
  · rintro ⟨⟨t, sources⟩, hmem, rfl, ⟨id, path⟩, hkey, rfl⟩
    exact ⟨id, sources, OrderedMap.Map.mem_entries.mp hmem, hkey⟩
  · rintro ⟨id, sources, hsources, hkey⟩
    exact ⟨⟨target, sources⟩, OrderedMap.Map.mem_entries.mpr hsources, rfl, ⟨id, source⟩, hkey, rfl⟩

theorem mem_planned : m ∈ input.planned ↔
    m ∈ input.modules ∧ m.mountable = true ∧ input.config.isModuleBlacklisted m.id = false := by
  simp [PlanInput.planned, List.mem_insertionSort]

theorem nodup_planned (hscan : Scanned input.modules) : (input.planned.map ModuleRecord.id).Nodup := by
  have hsorted : ((input.modules.insertionSort fun left right => compare left.id right.id ≠ .gt).map
      ModuleRecord.id).Nodup :=
    ((List.perm_insertionSort _ _).map _).nodup_iff.mpr hscan.ids
  exact hsorted.sublist (List.filter_sublist.map _)

theorem Scanned.sourcePath_inj (hscan : Scanned modules) (hm : module ∈ modules) (hm' : m ∈ modules)
    (h : module.sourcePath ++ dir = m.sourcePath ++ dir') : module = m ∧ dir = dir' := by
  obtain ⟨moduleDir, hpaths⟩ := hscan.paths
  rw [hpaths _ hm, hpaths _ hm', List.append_assoc, List.append_assoc, List.append_cancel_left_eq] at h
  simp only [List.cons_append, List.nil_append, List.cons.injEq] at h
  exact ⟨List.inj_on_of_nodup_map hscan.ids hm hm' h.1, h.2⟩

theorem processed (h : planModules input = .ok builder) (hm : m ∈ input.planned) :
    ∃ b b', processModule m (input.rulesOf m) input.layout b = .ok b' := by
  obtain ⟨b, b', hstep⟩ := Fallible.foldlM_each h hm
  exact ⟨b, b', hstep⟩

theorem decision_mapped (h : planModules input = .ok builder) (hm : m ∈ input.planned)
    (hd : d ∈ decisions m (input.rulesOf m) input.layout) : d.entry.relative ≠ [] ∧
      input.layout.mapTarget d.entry.relative =
        .ok (input.layout.logicalPartition d.entry.relative, input.layout.targetOf d.entry.relative) := by
  obtain ⟨b, b', hprocess⟩ := processed h hm
  obtain ⟨registered, hregister, -⟩ := Fallible.bind_ok hprocess
  obtain ⟨b₀, b₁, hstep⟩ := Fallible.foldlM_each hregister hd
  obtain ⟨⟨partition, target⟩, hmap, -⟩ := Fallible.bind_ok hstep
  obtain ⟨hne, -, rfl, rfl, -⟩ := PartitionLayout.mapTarget_ok hmap
  exact ⟨hne, hmap⟩

theorem mem_decisions : d ∈ decisions module rules layout ↔
    d.entry ∈ module.entries ∧ accepts module rules layout d.entry = true ∧
    d.mode = rules.resolveMode d.entry.relative := by
  simp only [decisions, List.mem_map, List.mem_filter]
  constructor
  · rintro ⟨entry, ⟨hmem, haccepts⟩, rfl⟩
    exact ⟨hmem, haccepts, rfl⟩
  · rintro ⟨hmem, haccepts, hmode⟩
    exact ⟨d.entry, ⟨hmem, haccepts⟩, by rw [← hmode]⟩

theorem sound_decisions (h : planModules input = .ok builder) (hscan : Scanned input.modules)
    (hclosed : ∀ m ∈ input.modules, ParentClosed m.entries) (hm : m ∈ input.planned) :
    Sound (decisions m (input.rulesOf m) input.layout) where
  nonempty d hd := (decision_mapped h hm hd).1
  distinct d hd d' hd' heq := by
    obtain ⟨hmem, -, hmode⟩ := mem_decisions.mp hd
    obtain ⟨hmem', -, hmode'⟩ := mem_decisions.mp hd'
    have hentry : d.entry = d'.entry :=
      List.inj_on_of_nodup_map (hscan.entries m (mem_planned.mp hm).1) hmem hmem' heq
    obtain ⟨entry, mode⟩ := d
    obtain ⟨entry', mode'⟩ := d'
    dsimp only at hentry hmode hmode'
    rw [hentry] at hmode
    rw [hentry, hmode, hmode']
  closed d hd d' hd' hpre hne :=
    (hclosed m (mem_planned.mp hm).1 d'.entry (mem_decisions.mp hd').1 d.entry.relative
      (decision_mapped h hm hd).1 hpre hne).2
      d.entry (mem_decisions.mp hd).1 rfl

theorem mem_dirsAt {cs : List Contribution} : dir ∈ dirsAt layout cs target ↔
    .layer dir ∈ cs ∧ layout.targetOf dir = target := by
  have hdir : ∀ c : Contribution, c.dir? = some dir ↔ c = .layer dir := by
    intro c
    cases c with
    | layer d => simp [Contribution.dir?]
    | file parent relative => simp [Contribution.dir?]
  simp [dirsAt, hdir]

/-- Every lower directory in a finished plan is the last layer of a module over the target. -/
theorem lowerdir_origin (hscan : Scanned input.modules) (hmodules : planModules input = .ok builder)
    (hop : ∃ op ∈ builder.finish.overlayOps, op.target = target ∧ source ∈ op.lowerdirs) :
    ∃ m ∈ input.planned, ∃ dir, lastDir input m target = some dir ∧ source = m.sourcePath ++ dir := by
  obtain ⟨id, hid⟩ := lowerdirs_iff.mp hop
  rw [planModules_overlays hmodules] at hid
  by_cases hmem : id ∈ input.planned.map ModuleRecord.id
  · obtain ⟨m, hm, rfl⟩ := List.mem_map.mp hmem
    rw [layer_of_module (nodup_planned hscan) hm] at hid
    cases hlast : lastDir input m target with
    | none => simp [hlast, PlanBuilder.overlays] at hid
    | some dir =>
      simp only [hlast, Option.map_some, Option.some_or, Option.some.injEq] at hid
      exact ⟨m, hm, dir, hlast, hid.symm⟩
  · rw [layer_of_other hmem] at hid
    simp [PlanBuilder.overlays] at hid

theorem lowerdir_of_last (hscan : Scanned input.modules) (hmodules : planModules input = .ok builder)
    (hm : m ∈ input.planned)
    (hlast : lastDir input m target = some dir) :
    ∃ op ∈ builder.finish.overlayOps, op.target = target ∧ m.sourcePath ++ dir ∈ op.lowerdirs := by
  apply lowerdirs_iff.mpr
  refine ⟨m.id, ?_⟩
  rw [planModules_overlays hmodules, layer_of_module (nodup_planned hscan) hm, hlast]
  rfl

theorem file_origin (hmodules : planModules input = .ok builder)
    (hrule : ∃ rule ∈ builder.finish.overlayFiles, rule.1 = target ∧ source ∈ rule.2) :
    ∃ m ∈ input.planned, ∃ parent relative, .file parent relative ∈ contributions input.layout m
      (input.rulesOf m) ∧
      source = m.sourcePath ++ relative := by
  obtain ⟨id, hid⟩ := overlayFiles_iff.mp hrule
  rw [planModules_overlays hmodules, file_of_modules] at hid
  rcases hid with ⟨sources, hnone, -⟩ | ⟨m, hm, parent, relative, hfile, -, -, hsource⟩
  · cases hnone
  · exact ⟨m, hm, parent, relative, hfile, hsource⟩

theorem rule_of_file (hmodules : planModules input = .ok builder) (hm : m ∈ input.planned)
    (hfile : .file parent relative ∈ contributions input.layout m (input.rulesOf m)) :
    ∃ rule ∈ builder.finish.overlayFiles, rule.1 = input.layout.targetOf parent ∧
    m.sourcePath ++ relative ∈ rule.2 := by
  apply overlayFiles_iff.mpr
  refine ⟨m.id, ?_⟩
  rw [planModules_overlays hmodules, file_of_modules]
  exact .inr ⟨m, hm, parent, relative, hfile, rfl, rfl, rfl⟩

theorem targetOf_dropLast (hne : relative ≠ []) (hdeep : layout.rootLen relative < relative.length) :
    layout.targetOf relative.dropLast ++ relative.getLast?.toList = layout.targetOf relative := by
  have hlast : relative.getLast?.toList = relative.drop (relative.length - 1) := by
    rw [List.drop_length_sub_one hne, List.getLast?_eq_getLast_of_ne_nil hne, Option.toList_some]
  have hpos := @PartitionLayout.rootLen_pos layout relative
  rw [hlast, List.dropLast_eq_take]
  exact PartitionLayout.targetOf_take (by omega) (by omega)

/-- A layer can be misplaced only at the bare `system` directory, which holds the other partitions too. -/
theorem targetOf_below (hne : dir ≠ []) (hpre : dir <+: relative) (hsystem : dir ≠ ["system"]) :
    layout.targetOf dir ++ relative.drop dir.length = layout.targetOf relative := by
  have hpos : 0 < dir.length := List.length_pos_iff.mpr hne
  by_cases hlen : layout.rootLen relative ≤ dir.length
  · have hh := PartitionLayout.targetOf_take hpos hlen
    rwa [← List.prefix_iff_eq_take.mp hpre] at hh
  · have htwo := @PartitionLayout.rootLen_le_two layout relative
    exfalso
    apply hsystem
    obtain ⟨first, rfl⟩ := List.length_eq_one_iff.mp (show dir.length = 1 by omega)
    obtain ⟨rest, rfl⟩ := hpre
    cases rest with
    | nil => simp [PartitionLayout.rootLen] at hlen
    | cons name rest =>
      by_contra hne'
      have hfirst : first ≠ "system" := fun h => hne' (by rw [h])
      simp [PartitionLayout.rootLen, hfirst] at hlen

theorem not_lost (hone : ∀ dir dir', .layer dir ∈ contributions layout module rules →
      .layer dir' ∈ contributions layout module rules →
        layout.targetOf dir = layout.targetOf dir' → dir = dir')
    (hne : .layer [] ∉ contributions layout module rules)
    (hsystem : .layer ["system"] ∉ contributions layout module rules) :
    ¬Lost layout module rules entry := by
  intro ⟨dir, hdir, hpre, hlost⟩
  rcases hlost with hwrong | hlater
  · exact hwrong (targetOf_below (fun h => hne (h ▸ hdir)) hpre fun h => hsystem (h ▸ hdir))
  · have hmem : dir ∈ dirsAt layout (contributions layout module rules) (layout.targetOf dir) :=
      mem_dirsAt.mpr ⟨hdir, rfl⟩
    obtain ⟨last, hlast⟩ := List.getLast?_isSome.mpr (List.ne_nil_of_mem hmem) |> Option.isSome_iff_exists.mp
    obtain ⟨hlayer, htarget⟩ := mem_dirsAt.mp (List.mem_of_getLast? hlast)
    exact hlater (hone last dir hlayer hdir htarget ▸ hlast)

/-- The plan realises an accepted overlay entry exactly when no layer above it is misplaced or replaced. -/
theorem overlay_covered_iff (h : buildPlan input = .ok plan) (hscan : Scanned input.modules)
    (hclosed : ∀ m ∈ input.modules, ParentClosed m.entries) (hm : module ∈ input.planned)
    (hentry : ⟨entry, .overlay⟩ ∈ decisions module (input.rulesOf module) input.layout)
    (hroot : entry.relative.length ≠ input.layout.rootLen entry.relative) :
    Covered plan input.layout module entry ↔ ¬Lost input.layout module (input.rulesOf module) entry := by
  obtain ⟨builder, hmodules, -, hops, hfiles⟩ := buildPlan_ok h
  have hsound := sound_decisions hmodules hscan hclosed hm
  obtain ⟨hne, hmapped⟩ := decision_mapped hmodules hm hentry
  dsimp only at hne hmapped
  have hdeep : input.layout.rootLen entry.relative < entry.relative.length :=
    lt_of_le_of_ne (PartitionLayout.rootLen_le hne) hroot.symm
  have hmember : ∀ m ∈ input.planned, m ∈ input.modules := fun m hm => (mem_planned.mp hm).1
  constructor
  · rintro hcovered ⟨dir, hdir, hpre, hlost⟩
    rcases hcovered with ⟨op, hop, dir', hlower, hpre', hmap⟩ | ⟨rule, hrule, hsource, -⟩
    · obtain ⟨m, hm', last, hlast, hsame⟩ := lowerdir_origin hscan hmodules ⟨op, hops ▸ hop, rfl, hlower⟩
      obtain ⟨rfl, rfl⟩ := hscan.sourcePath_inj (hmember _ hm) (hmember _ hm') hsame
      obtain ⟨hlayer, htarget⟩ := mem_dirsAt.mp (List.mem_of_getLast? hlast)
      obtain rfl := layer_unique hsound hdir hlayer hpre hpre'
      rcases hlost with hwrong | hlater
      · simp only [hmapped, Except.ok.injEq, Prod.mk.injEq, true_and] at hmap
        exact hwrong (htarget ▸ hmap.symm)
      · exact hlater (htarget ▸ hlast)
    · obtain ⟨m, hm', parent, relative, hfile, hsame⟩ :=
        file_origin hmodules ⟨rule, hfiles ▸ hrule, rfl, hsource⟩
      obtain ⟨rfl, rfl⟩ := hscan.sourcePath_inj (hmember _ hm) (hmember _ hm') hsame
      exact file_unlayered hsound hfile hdir hpre
  · intro hkept
    rcases layer_or_file hsound hentry rfl hdeep with ⟨dir, hdir, hpre⟩ | hfile
    · have hdirKept : input.layout.targetOf dir ++ entry.relative.drop dir.length =
          input.layout.targetOf entry.relative ∧
          lastDir input module (input.layout.targetOf dir) = some dir := by
        by_contra hnot
        exact hkept ⟨dir, hdir, hpre, not_and_or.mp hnot⟩
      obtain ⟨op, hop, htarget, hlower⟩ := lowerdir_of_last hscan hmodules hm hdirKept.2
      exact .inl ⟨op, hops ▸ hop, dir, hlower, hpre, by rw [hmapped, htarget, hdirKept.1]⟩
    · obtain ⟨rule, hrule, htarget, hsource⟩ := rule_of_file hmodules hm hfile
      exact .inr ⟨rule, hfiles ▸ hrule, hsource, by rw [hmapped, htarget, targetOf_dropLast hne hdeep]⟩

/-- The module reaches the same directory of a partition through two spellings. -/
def gpuModule : ModuleRecord where
  id := "gpu"
  sourcePath := ["modules", "gpu"]
  entries := [{ relative := ["system", "vendor"], fileType := .directory },
    { relative := ["system", "vendor", "etc"], fileType := .directory },
    { relative := ["system", "vendor", "etc", "gpu.xml"], fileType := .regularFile },
    { relative := ["vendor", "etc"], fileType := .directory },
    { relative := ["vendor", "etc", "nfc.conf"], fileType := .regularFile }]

def gpuEntry : ModuleEntry := { relative := ["system", "vendor", "etc", "gpu.xml"], fileType := .regularFile }

def twoSpellings : PlanInput where
  modules := [gpuModule]
  config := { defaultMode := .overlay, rules := [], moduleBlacklist := [] }
  layout := { roots := [("system", ["system"]), ("vendor", ["vendor"])], errors := [],
              mountPoints := [["vendor"]] }
  vfsAvailable := true

theorem twoSpellings_scanned : Scanned twoSpellings.modules where
  ids := by decide
  paths := ⟨["modules"], by decide⟩
  entries := by decide

theorem twoSpellings_closed : ∀ m ∈ twoSpellings.modules, ParentClosed m.entries := by decide +kernel

theorem twoSpellings_entry : gpuModule ∈ twoSpellings.planned ∧ ⟨gpuEntry, .overlay⟩ ∈
    decisions gpuModule (twoSpellings.rulesOf gpuModule) twoSpellings.layout ∧
      gpuEntry.relative.length ≠ twoSpellings.layout.rootLen gpuEntry.relative := by decide +kernel

theorem twoSpellings_plan : ∃ plan, buildPlan twoSpellings = .ok plan ∧
    plan.overlayOps = [⟨"vendor", ["vendor", "etc"], [["modules", "gpu", "vendor", "etc"]]⟩] ∧
    plan.overlayFiles = [] := by
  have hops : (buildPlan twoSpellings).toOption.map (fun plan => (plan.overlayOps, plan.overlayFiles)) =
      some ([⟨"vendor", ["vendor", "etc"], [["modules", "gpu", "vendor", "etc"]]⟩], []) := by decide +kernel
  obtain ⟨plan, hplan, hseen⟩ := buildPlan_of_view hops
  exact ⟨plan, hplan, Prod.mk.inj hseen⟩

/-- The module keeps to one spelling of the partition. -/
def displayModule : ModuleRecord where
  id := "display"
  sourcePath := ["modules", "display"]
  entries := [{ relative := ["system", "etc"], fileType := .directory },
    { relative := ["system", "etc", "display.conf"], fileType := .regularFile },
    { relative := ["system", "vendor"], fileType := .directory },
    { relative := ["system", "vendor", "etc"], fileType := .directory },
    { relative := ["system", "vendor", "etc", "gpu.xml"], fileType := .regularFile }]

def oneSpelling : PlanInput := { twoSpellings with modules := [displayModule] }

theorem oneSpelling_entry : displayModule ∈ oneSpelling.planned ∧ ⟨gpuEntry, .overlay⟩ ∈
    decisions displayModule (oneSpelling.rulesOf displayModule) oneSpelling.layout ∧
      gpuEntry.relative.length ≠ oneSpelling.layout.rootLen gpuEntry.relative := by decide +kernel

theorem oneSpelling_layers {dir : Names}
    (h : .layer dir ∈ contributions oneSpelling.layout displayModule (oneSpelling.rulesOf displayModule)) :
    dir = ["system", "etc"] ∨ dir = ["system", "vendor", "etc"] := by
  have hlayers : contributions oneSpelling.layout displayModule (oneSpelling.rulesOf displayModule) =
      [.layer ["system", "etc"], .layer ["system", "etc"], .layer ["system", "vendor", "etc"],
        .layer ["system", "vendor", "etc"]] := by
    decide +kernel
  rw [hlayers] at h
  simp only [List.mem_cons, Contribution.layer.injEq, List.not_mem_nil, or_false] at h
  rcases h with h | h | h | h
  · exact .inl h
  · exact .inl h
  · exact .inr h
  · exact .inr h

theorem overlay_covered_twoSpellings :
    (∃ plan, buildPlan twoSpellings = .ok plan ∧ (Covered plan twoSpellings.layout gpuModule gpuEntry ↔
      ¬Lost twoSpellings.layout gpuModule (twoSpellings.rulesOf gpuModule) gpuEntry)) ∧
    ∃ plan, buildPlan oneSpelling = .ok plan ∧ Covered plan oneSpelling.layout displayModule gpuEntry := by
  constructor
  · obtain ⟨plan, hplan, -⟩ := twoSpellings_plan
    obtain ⟨hm, hentry, hroot⟩ := twoSpellings_entry
    exact ⟨plan, hplan, overlay_covered_iff hplan twoSpellings_scanned twoSpellings_closed hm hentry hroot⟩
  · obtain ⟨plan, hplan⟩ := Option.isSome_iff_exists.mp
      (show (buildPlan oneSpelling).toOption.isSome = true by decide +kernel)
    obtain ⟨hm, hentry, hroot⟩ := oneSpelling_entry
    have hscan : Scanned oneSpelling.modules := ⟨by decide, ⟨["modules"], by decide⟩, by decide⟩
    have hok := Fallible.ok_of_toOption hplan
    refine ⟨plan, hok, (overlay_covered_iff hok hscan (by decide +kernel) hm hentry hroot).mpr
      (not_lost ?_ ?_ ?_)⟩
    · intro dir dir' hdir hdir' htarget
      rcases oneSpelling_layers hdir with rfl | rfl
      · rcases oneSpelling_layers hdir' with rfl | rfl
        · rfl
        · exact absurd htarget (by decide +kernel)
      · rcases oneSpelling_layers hdir' with rfl | rfl
        · exact absurd htarget (by decide +kernel)
        · rfl
    · intro hdir
      rcases oneSpelling_layers hdir with h | h
      · cases h
      · cases h
    · intro hdir
      rcases oneSpelling_layers hdir with h | h
      · cases h
      · cases h

theorem overlay_covered_refuted :
    ¬∀ (input : PlanInput) (plan : MountPlan) (module : ModuleRecord) (entry : ModuleEntry),
    buildPlan input = .ok plan → Scanned input.modules → (∀ m ∈ input.modules, ParentClosed m.entries) →
      module ∈ input.planned → ⟨entry, .overlay⟩ ∈ decisions module (input.rulesOf module) input.layout →
        entry.relative.length ≠ input.layout.rootLen entry.relative →
          Covered plan input.layout module entry := by
  intro hall
  obtain ⟨plan, hplan, hops, hfiles⟩ := twoSpellings_plan
  obtain ⟨hm, hentry, hroot⟩ := twoSpellings_entry
  rcases hall _ _ _ _ hplan twoSpellings_scanned twoSpellings_closed hm hentry hroot with
    ⟨op, hop, dir, hlower, hpre, -⟩ | ⟨rule, hrule, -⟩
  · rw [hops, List.mem_singleton] at hop
    subst hop
    have hdir : dir = ["vendor", "etc"] := by simpa [gpuModule, twoSpellings] using hlower
    rw [hdir] at hpre
    exact absurd hpre (by decide)
  · rw [hfiles] at hrule
    cases hrule

end Plan

end HybridMount.Plan
