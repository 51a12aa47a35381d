import HybridMount.VfsShares

/-! Plans in which everything goes to VFS: only a whiteout beside or above something else makes them fail. -/

namespace HybridMount.Plan

/-- Whatever the builder has assigned is of VFS. -/
def VfsOnly (builder : PlanBuilder) : Prop := ∀ target, ∀ x ∈ assigned builder target, x.mode = .vfs

/-- The sources of a tree are of VFS, and whiteouts stand alone. -/
structure VfsTree (tree : MountNode) : Prop where
  ordered : tree.Ordered compare
  backend : ∀ path, ∀ s ∈ MountTree.sourcesAt path tree, s.backend = .vfs
  whiteouts : ∀ path, ∀ s ∈ MountTree.sourcesAt path tree, s.fileType = .whiteout →
    ∀ rest, ∀ other ∈ MountTree.sourcesAt (path ++ rest) tree, rest = [] ∧ other.fileType = .whiteout

variable {input : PlanInput} {module : ModuleRecord} {rules : ModuleRulesView} {layout : PartitionLayout}
  {b : PlanBuilder}
  {d : EntryDecision} {chosen : List EntryDecision} {target relative path : Names} {id : String}
    {fileType : NodeFileType}
  {replace : Bool} {tree node : MountNode} {builder : PlanBuilder}

section Building

theorem VfsOnly.register (h : VfsOnly b) (target : Names) (id : String) (relative : Names)
    (fileType : NodeFileType) (replace : Bool) :
    ∃ b', b.register target .vfs id relative fileType replace = .ok b' ∧ VfsOnly b' := by
  have hfree : (assigned b target).find?
      (fun existing => existing.mode ≠ .vfs && !existing.shareableDirectories fileType replace) = none := by
    refine List.find?_eq_none.mpr fun existing hmem => ?_
    simp [h target existing hmem]
  obtain ⟨b', hok⟩ : ∃ b', b.register target .vfs id relative fileType replace = .ok b' := by
    unfold PlanBuilder.register
    dsimp only
    rw [show (b.assignments.get target).getD [] = assigned b target from rfl, hfree]
    exact ⟨_, rfl⟩
  refine ⟨b', hok, fun path x hx => ?_⟩
  obtain ⟨new, hmode, -, -, -, hassigned⟩ := register_assigned hok
  rw [hassigned] at hx
  split at hx
  · rcases List.mem_append.mp hx with hold | hnew
    · exact h target x hold
    · rw [List.mem_singleton.mp hnew, hmode]
  · exact h path x hx

theorem VfsOnly.registerDecision (h : VfsOnly b) (hmode : d.mode = .vfs) {place : String × Names}
    (hmap : layout.mapTarget d.entry.relative = .ok place) :
    ∃ b', registerDecision module layout b d = .ok b' ∧ VfsOnly b' := by
  have hinserted : VfsOnly { b with tree := MountTree.insert b.tree place.2 (sourceOf module d) } := h
  obtain ⟨b', hok, hb'⟩ := hinserted.register place.2 module.id d.entry.relative d.entry.fileType
    d.entry.replace
  refine ⟨b', ?_, hb'⟩
  unfold HybridMount.Plan.registerDecision
  rw [hmap]
  dsimp only [bind, Except.bind]
  rw [hmode, if_neg (by decide)]
  exact hok

theorem VfsOnly.processModule (h : VfsOnly b)
    (hall : ∀ d ∈ decisions module rules layout, d.mode = .vfs ∧ ∃ place, layout.mapTarget d.entry.relative =
      .ok place) :
    ∃ b', processModule module rules layout b = .ok b' ∧ VfsOnly b' := by
  let screened : PlanBuilder := { b with
    operationErrors := b.operationErrors ++ module.entries.flatMap fun entry =>
      (screenEntry module rules layout entry).1 }
  have hnoted : VfsOnly (module.entries.foldl (notePartitionError module rules layout) screened) := by
    have hsame : (module.entries.foldl (notePartitionError module rules layout) screened).assignments =
        b.assignments :=
      noted_view (v := PlanBuilder.assignments) fun _ _ => rfl
    intro target x hx
    rw [assigned, hsame] at hx
    exact h target x hx
  obtain ⟨registered, hregister, hvfs⟩ := Fallible.foldlM_total VfsOnly
    (fun d hd b hb => hb.registerDecision (hall d hd).1 (hall d hd).2.choose_spec) hnoted
  have hnone : overlayRels (decisions module rules layout) = [] := by
    simp only [overlayRels, List.map_eq_nil_iff, List.filter_eq_nil_iff, decide_eq_true_eq]
    intro d hd hmode
    rw [(hall d hd).1] at hmode
    cases hmode
  refine ⟨collectVfs module (decisions module rules layout)
    (collectMagic module (decisions module rules layout) registered), ?_, ?_⟩
  · unfold HybridMount.Plan.processModule
    dsimp only
    rw [hregister]
    show addOverlays module rules layout (decisions module rules layout) registered = _
    rw [addOverlays, if_pos hnone]
  · intro target x hx
    rw [assigned, collected_view (v := PlanBuilder.assignments) fun _ _ _ => rfl] at hx
    exact hvfs target x hx

theorem planModules_vfs (hall : ∀ m ∈ input.planned, ∀ d ∈ decisions m (input.rulesOf m) input.layout,
    d.mode = .vfs ∧ ∃ place, input.layout.mapTarget d.entry.relative = .ok place) :
    ∃ builder, planModules input = .ok builder := by
  have hempty : VfsOnly {} := by
    intro target x hx
    cases hx
  obtain ⟨builder, hok, -⟩ :=
    Fallible.foldlM_total VfsOnly (fun m hm b hb => hb.processModule (hall m hm)) hempty
  exact ⟨builder, hok⟩

end Building

section Checking

theorem checkReplace_vfs (h : ∀ s ∈ node.value.sources, s.backend = .vfs) :
    checkReplace () path node = .ok () := by
  have hnone : node.value.sources.find? (fun source => source.backend = .magic && source.replace) = none := by
    refine List.find?_eq_none.mpr fun s hs => ?_
    simp [h s hs]
  simp only [checkReplace, hnone]

theorem checkShadow_vfs (h : ∀ s ∈ node.value.sources, s.backend = .vfs) :
    checkShadow none path node = .ok none := by
  have hnone : node.value.sources.find?
      (fun source => (source.backend = .overlay || source.backend = .magic) &&
      (source.fileType = .directory || source.replace)) = none := by
    refine List.find?_eq_none.mpr fun s hs => ?_
    simp [h s hs]
  simp only [checkShadow, hnone, Option.map_none, Option.or_none]

theorem checkOpaque_vfs (path : Names) (h : ∀ s ∈ node.value.sources, s.backend = .vfs)
    (owner : Option MountSource) :
    ∃ owner', checkOpaque owner path node = .ok owner' := by
  have hnone : node.value.sources.find? (fun source => source.backend ≠ .vfs) = none := by
    refine List.find?_eq_none.mpr fun s hs => ?_
    simp [h s hs]
  refine ⟨(node.value.sources.find? fun source => source.backend = .vfs && source.replace).or owner, ?_⟩
  unfold checkOpaque
  dsimp only
  rw [hnone]
  split
  · rename_i hsome
    cases hsome
  · rfl

theorem VfsTree.sources (h : VfsTree tree) (hnode : tree.find compare path = some node) :
    ∀ s ∈ node.value.sources, s.backend = .vfs :=
  fun s hs => h.backend path s (mem_sourcesAt_find.mpr ⟨node, hnode, hs⟩)

theorem VfsTree.checkWhiteout (h : VfsTree tree) (hnode : tree.find compare path = some node) :
    checkWhiteout () path node = .ok () := by
  unfold HybridMount.Plan.checkWhiteout
  dsimp only
  cases hremoval : node.value.sources.find? fun source => source.fileType = .whiteout &&
    source.backend ≠ .ignore with
  | none => rfl
  | some removal =>
    have hmem := List.mem_of_find?_eq_some hremoval
    have htype : removal.fileType = .whiteout := by
      have hh := List.find?_some hremoval
      simp only [Bool.and_eq_true, decide_eq_true_eq] at hh
      exact hh.1
    have hat := mem_sourcesAt_find.mpr ⟨node, hnode, hmem⟩
    have hsame : node.value.sources.find?
        (fun source => source.fileType ≠ .whiteout && source.backend ≠ .ignore) = none := by
      refine List.find?_eq_none.mpr fun s hs => ?_
      have hhere : s ∈ MountTree.sourcesAt (path ++ []) tree := by
        rw [List.append_nil]
        exact mem_sourcesAt_find.mpr ⟨node, hnode, hs⟩
      simp [(h.whiteouts path removal hat htype [] s hhere).2]
    have hbelow : ∀ mode, firstDescendantSource node mode = none := by
      intro mode
      refine Trie.firstBelow_eq_none (h.ordered.find hnode) fun rest below hne hfind => ?_
      refine List.find?_eq_none.mpr fun s hs => ?_
      have hs' : s ∈ MountTree.sourcesAt (path ++ rest) tree :=
        mem_sourcesAt_find.mpr ⟨below, find_below hnode hfind, hs⟩
      exact absurd (h.whiteouts path removal hat htype rest s hs').1 hne
    have hother : ([Mode.overlay, .magic, .vfs].findSome? (firstDescendantSource node)) = none := by
      simp [hbelow]
    rw [hsame, hother]
    rfl

/-- The checks of such a tree pass. -/
theorem buildPlan_vfs (h : planModules input = .ok builder) (ht : VfsTree builder.tree) :
    ∃ plan, buildPlan input = .ok plan := by
  have hreplace : ensureReplaceBackendConsistency builder.tree = .ok () :=
    Trie.visit_passes (fun _ => True) ht.ordered
      (fun q n _ hn _ => ⟨(), checkReplace_vfs (ht.sources hn), trivial⟩) trivial
  have hshadow : ensureVfsNotShadowed builder.tree = .ok () := by
    refine Trie.visit_passes (· = none) ht.ordered (fun q n s hn hs => ⟨none, ?_, rfl⟩) rfl
    rw [hs]
    exact checkShadow_vfs (ht.sources hn)
  have hopaque : ensureVfsOpaqueExclusive builder.tree = .ok () := by
    refine Trie.visit_passes (fun _ => True) ht.ordered (fun q n s hn _ => ?_) trivial
    obtain ⟨owner, hok⟩ := checkOpaque_vfs ([] ++ q) (ht.sources hn) s
    exact ⟨owner, hok, trivial⟩
  have hwhiteout : ensureWhiteoutExclusive builder.tree = .ok () :=
    Trie.visit_passes (fun _ => True) ht.ordered
      (fun q n _ hn _ => ⟨(), by simpa using ht.checkWhiteout hn, trivial⟩) trivial
  unfold buildPlan
  rw [h]
  dsimp only [bind, Except.bind]
  rw [hreplace, hshadow, hopaque, hwhiteout]
  exact ⟨_, rfl⟩

/-- In a plan an active whiteout shares its place with whiteouts only and has nothing below it. -/
theorem whiteout_place {plan : MountPlan} {m n : ModuleRecord} {e : EntryDecision} {rest : Names}
    (h : buildPlan input = .ok plan)
    (hd : Planned input m d) (he : Planned input n e) (htype : d.entry.fileType = .whiteout)
    (hactive : d.mode ≠ .ignore)
    (hactive' : e.mode ≠ .ignore) (hplace : input.place e = input.place d ++ rest) :
    rest = [] ∧ e.entry.fileType = .whiteout := by
  obtain ⟨builder, hfinished⟩ := buildPlan_finished h
  have hmodules := hfinished.modules
  have hwhiteout := hfinished.whiteoutExclusive
  have hs : sourceOf m d ∈ MountTree.sourcesAt (input.place d) builder.tree :=
    (mem_plan_tree hmodules).mpr ⟨m, d, hd, rfl, rfl⟩
  have ho : sourceOf n e ∈ MountTree.sourcesAt (input.place d ++ rest) builder.tree :=
    (mem_plan_tree hmodules).mpr ⟨n, e, he, rfl, hplace.symm⟩
  obtain ⟨node, hnode, hs⟩ := mem_sourcesAt_find.mp hs
  obtain ⟨below, hbelow, ho⟩ := mem_sourcesAt_find.mp ho
  rw [Trie.find_append, hnode, Option.bind_some] at hbelow
  obtain ⟨hsame, hnothing⟩ := whiteout_exclusive hwhiteout hnode hs htype hactive
  by_cases hrest : rest = []
  · subst hrest
    cases hbelow
    exact ⟨rfl, hsame _ ho hactive'⟩
  · exact absurd (hnothing below rest hbelow hrest _ ho) hactive'

end Checking

end HybridMount.Plan
