import HybridMount.OverlayStaging
import HybridMount.ShallowGroups

/-! Staging is faithful: what stands in the staging area for which entry, and what survives when it is copied. -/

namespace HybridMount.Plan

/-- The entry of a module belongs to the overlays. -/
structure OverlayLabelled (input : PlanInput) (m : ModuleRecord)
    (d : EntryDecision) : Prop extends Planned input m d where
  overlay : d.mode = .overlay

/-- The file of a source is what the scan has found there. -/
def FilesMatch (files : ModuleFiles) (source : MountSource) : Prop :=
  match source.fileType with
  | .directory => ∃ marked, files.metadata source.sourcePath = some (.directory marked)
  | .regularFile =>
    ∃ content, files.metadata source.sourcePath = some (.file content) ∧
      files.contents source.sourcePath = some content
  | .symlink => ∃ target, files.metadata source.sourcePath = some (.symlink target)
  | .whiteout =>
    files.metadata source.sourcePath = some (.special .char 0) ∨ ∃ marked, files.metadata source.sourcePath =
      some (.directory marked)

/-- What a source is in the staging area. -/
def stagedEntry (files : ModuleFiles) (source : MountSource) : Option FsEntry :=
  match source.fileType with
  | .directory => some (.directory source.replace)
  | .regularFile => (files.contents source.sourcePath).map .file
  | .symlink => files.metadata source.sourcePath
  | .whiteout => some (.special .char 0)

def stagedPath (source : MountSource) : Names := source.moduleId :: source.relative

/-- The entry stands at the path, what was on the way is still there, and nothing else has changed. -/
structure Placed (before after : FileTree) (path : Names) (entry : FsEntry) : Prop where
  ordered : before.Ordered compare → after.Ordered compare
  here : after.valueAt compare path = some entry
  above : ∀ q, q <+: path → q ≠ path → ∃ marked, (before.valueAt compare q).getD (.directory false) =
    .directory marked ∧
    after.valueAt compare q = some (.directory marked)
  elsewhere : ∀ q, ¬q <+: path → after.valueAt compare q = before.valueAt compare q

/-- The staging area after the sources, beside what it was before. -/
structure Written (files : ModuleFiles) (sources : List MountSource) (before after : FileTree) : Prop where
  ordered : after.Ordered compare
  materialised : ∀ s ∈ sources, ∃ entry, stagedEntry files s = some entry ∧
    after.valueAt compare (stagedPath s) = some entry
  onTheWay : ∀ path, (∃ s ∈ sources, path <+: stagedPath s) → (∀ s ∈ sources, stagedPath s ≠ path) →
    after.valueAt compare path = some ((before.valueAt compare path).getD (.directory false))
  untouched : ∀ path, (∀ s ∈ sources, ¬path <+: stagedPath s) →
    after.valueAt compare path = before.valueAt compare path

/-- What staging leaves, beside the storage without the directories of the overlay modules. -/
def StagedFrom (files : ModuleFiles) (tree : MountNode) (destination staged : FileTree) : Prop :=
  Written files (stagedSources tree)
    ((collectBackendIds tree .overlay).foldl (fun destination id => destination.removeChild id) destination)
      staged

/-- The staging area holds what the overlays need, the plan points into it, and copies of it are exact. -/
structure FaithfulStaging (files : ModuleFiles) (input : PlanInput) (plan : MountPlan)
    (execution : OverlayExecutionPlan)
    (destination staged : FileTree) : Prop where
  materialised : ∀ m d, OverlayLabelled input m d → ∃ entry, stagedEntry files (sourceOf m d) = some entry ∧
    staged.valueAt compare (m.id :: d.entry.relative) = some entry
  distinct : ∀ m d d', OverlayLabelled input m d → OverlayLabelled input m d' →
    d.entry.relative = d'.entry.relative → d = d'
  only : ∀ m d, OverlayLabelled input m d → ∀ path entry, staged.valueAt compare (m.id :: path) = some entry →
    ∃ d', OverlayLabelled input m d' ∧
      (d'.entry.relative = path ∨ path <+: d'.entry.relative ∧ entry = .directory false)
  others : ∀ path, path ≠ [] → (∀ m d, OverlayLabelled input m d → ¬[m.id] <+: path) →
    staged.valueAt compare path = destination.valueAt compare path
  rewritten : ∀ source ∈ preparedSources plan execution, ∃ path,
    stagedOverlayPath source input.modules = .ok path ∧
    (staged.valueAt compare path).isSome = true
  copied : ∀ m d, OverlayLabelled input m d → ∀ path node, staged.find compare (m.id :: path) = some node →
    copyTreeEntry node = .ok node

variable {files : ModuleFiles} {input : PlanInput} {plan : MountPlan} {builder : PlanBuilder}
  {execution : OverlayExecutionPlan}
  {destination before tree tree' staged node : FileTree} {mountTree : MountNode} {m : ModuleRecord}
    {d : EntryDecision}
  {s : MountSource} {sources : List MountSource} {path q : Names} {entry : FsEntry} {content : String}

theorem prefix_dropLast (hpre : q <+: path) (hne : q ≠ path) : q <+: path.dropLast := by
  obtain ⟨rest, rfl⟩ := hpre
  have hrest : rest ≠ [] := by
    rintro rfl
    exact hne (List.append_nil q).symm
  rw [List.dropLast_append_of_ne_nil hrest]
  exact List.prefix_append _ _

section Write

theorem valueAt_writeEntry : (writeEntry tree path entry).valueAt compare q =
    if q = path then some entry
    else if q <+: path then some ((tree.valueAt compare q).getD (.directory false))
      else tree.valueAt compare q :=
  Trie.valueAt_grow_path

/-- All names on the way are directories afterwards, with the mark they had. -/
theorem createDirAll_ok (h : createDirAll tree path = .ok tree') :
    (∀ q, q <+: path → ∃ marked, (tree.valueAt compare q).getD (.directory false) = .directory marked ∧
      tree'.valueAt compare q = some (.directory marked)) ∧
    (∀ q, ¬q <+: path → tree'.valueAt compare q = tree.valueAt compare q) ∧
    (tree.Ordered compare → tree'.Ordered compare) := by
  unfold createDirAll at h
  split at h
  · cases h
  rename_i hclear
  cases h
  refine ⟨fun q hpre => ?_, fun q hpre => ?_, Trie.ordered_grow⟩
  · have hdirectory : ∃ marked, (tree.valueAt compare q).getD (.directory false) = .directory marked := by
      cases hq : tree.valueAt compare q with
      | none => exact ⟨false, rfl⟩
      | some entry =>
        have hfree : ¬(!entry.isDirectory) = true := fun hentry =>
          hclear (List.any_eq_true.mpr ⟨q, (List.mem_inits _ _).mpr hpre, by simp [hq, hentry]⟩)
        cases entry with
        | directory marked => exact ⟨marked, rfl⟩
        | file content => simp [FsEntry.isDirectory] at hfree
        | symlink target => simp [FsEntry.isDirectory] at hfree
        | special kind device => simp [FsEntry.isDirectory] at hfree
    obtain ⟨marked, hmarked⟩ := hdirectory
    refine ⟨marked, hmarked, ?_⟩
    rw [Trie.valueAt_grow_path]
    by_cases hself : q = path
    · rw [if_pos hself, id, hmarked]
    · rw [if_neg hself, if_pos hpre, hmarked]
  · have hself : q ≠ path := fun heq => hpre (heq ▸ List.prefix_refl _)
    rw [Trie.valueAt_grow_path, if_neg hself, if_neg hpre]

theorem placed_directory (h : createDirAll tree path = .ok tree') : ∃ marked,
    (tree.valueAt compare path).getD (.directory false) = .directory marked ∧
    Placed tree tree' path (.directory marked) := by
  obtain ⟨hway, helse, hordered⟩ := createDirAll_ok h
  obtain ⟨marked, hmarked, hhere⟩ := hway path (List.prefix_refl _)
  exact ⟨marked, hmarked, hordered, hhere, fun q hpre _ => hway q hpre, helse⟩

theorem placed_opaque (h : createDirAll tree path = .ok tree') :
    Placed tree (setOverlayOpaque tree' path) path (.directory true) := by
  obtain ⟨hway, helse, hordered⟩ := createDirAll_ok h
  refine ⟨fun hbefore => Trie.ordered_grow (hordered hbefore), ?_, fun q hpre hne => ?_, fun q hpre => ?_⟩
  · rw [setOverlayOpaque, valueAt_writeEntry, if_pos rfl]
  · obtain ⟨marked, hmarked, hq⟩ := hway q hpre
    refine ⟨marked, hmarked, ?_⟩
    rw [setOverlayOpaque, valueAt_writeEntry, if_neg hne, if_pos hpre, hq, Option.getD_some]
  · have hne : q ≠ path := fun heq => hpre (heq ▸ List.prefix_refl _)
    rw [setOverlayOpaque, valueAt_writeEntry, if_neg hne, if_neg hpre, helse q hpre]

theorem placed_entry (h : createDirAll tree path.dropLast = .ok tree') :
    Placed tree (writeEntry tree' path entry) path entry := by
  obtain ⟨hway, helse, hordered⟩ := createDirAll_ok h
  refine ⟨fun hbefore => Trie.ordered_grow (hordered hbefore), ?_, fun q hpre hne => ?_, fun q hpre => ?_⟩
  · rw [valueAt_writeEntry, if_pos rfl]
  · obtain ⟨marked, hmarked, hq⟩ := hway q (prefix_dropLast hpre hne)
    exact ⟨marked, hmarked, by rw [valueAt_writeEntry, if_neg hne, if_pos hpre, hq, Option.getD_some]⟩
  · have hne : q ≠ path := fun heq => hpre (heq ▸ List.prefix_refl _)
    rw [valueAt_writeEntry, if_neg hne, if_neg hpre,
      helse q fun hup => hpre (hup.trans (List.dropLast_prefix _))]

theorem createEntry_ok (h : createEntry tree path entry = .ok tree') :
    tree' = writeEntry tree path entry := by
  unfold createEntry at h
  split at h
  · cases h
  · exact (Except.ok.inj h).symm

theorem copyFile_ok (h : copyFile tree path content = .ok tree') :
    tree' = writeEntry tree path (.file content) := by
  unfold copyFile at h
  cases hpath : tree.valueAt compare path with
  | none =>
    simp only [hpath, Except.ok.injEq] at h
    exact h.symm
  | some there =>
    cases there with
    | directory marked => simp [hpath] at h
    | file old =>
      simp only [hpath, Except.ok.injEq] at h
      exact h.symm
    | symlink target => simp [hpath] at h
    | special kind device => simp [hpath] at h

/-- One source is placed as what it is, except that a directory keeps a mark which is there already. -/
theorem stageSource_ok (hmatch : FilesMatch files s) (h : stageSource files tree s = .ok tree') :
    ∃ entry, Placed tree tree' (stagedPath s) entry ∧ (stagedEntry files s = some entry ∨
      s.fileType = .directory ∧ s.replace = false ∧ tree.valueAt compare (stagedPath s) = some entry) := by
  unfold stageSource at h
  unfold FilesMatch at hmatch
  cases htype : s.fileType with
  | directory =>
    simp only [htype] at h hmatch
    obtain ⟨found, hmetadata⟩ := hmatch
    simp only [hmetadata, ne_eq, not_true, if_false] at h
    obtain ⟨parents, hparents, h⟩ := Fallible.bind_ok h
    cases hparents
    obtain ⟨created, hcreated, hmark⟩ := Fallible.bind_ok h
    cases hreplace : s.replace with
    | true =>
      simp only [hreplace, if_true, Except.ok.injEq] at hmark
      exact ⟨_, hmark ▸ placed_opaque hcreated, .inl (by simp [stagedEntry, htype, hreplace])⟩
    | false =>
      simp only [hreplace, Bool.false_eq_true, if_false, Except.ok.injEq] at hmark
      obtain ⟨marked, hmarked, hplaced⟩ := placed_directory hcreated
      refine ⟨_, hmark ▸ hplaced, ?_⟩
      cases hold : tree.valueAt compare (stagedPath s) with
      | none =>
        rw [stagedPath] at hold
        rw [hold] at hmarked
        exact .inl (by simp [stagedEntry, htype, hreplace, ← hmarked])
      | some there =>
        rw [stagedPath] at hold
        rw [hold, Option.getD_some] at hmarked
        exact .inr ⟨rfl, rfl, congrArg some hmarked⟩
  | regularFile =>
    simp only [htype] at h hmatch
    obtain ⟨content, hmetadata, hcontent⟩ := hmatch
    simp only [hmetadata, hcontent] at h
    obtain ⟨parents, hparents, h⟩ := Fallible.bind_ok h
    rw [copyFile_ok h]
    exact ⟨_, placed_entry hparents, .inl (by simp [stagedEntry, htype, hcontent])⟩
  | symlink =>
    simp only [htype] at h hmatch
    obtain ⟨target, hmetadata⟩ := hmatch
    simp only [hmetadata] at h
    obtain ⟨parents, hparents, h⟩ := Fallible.bind_ok h
    rw [createEntry_ok h]
    exact ⟨_, placed_entry hparents, .inl (by simp [stagedEntry, htype, hmetadata])⟩
  | whiteout =>
    simp only [htype] at h hmatch
    have hnode : stagedEntry files s = some (.special .char 0) := by simp [stagedEntry, htype]
    rcases hmatch with hmetadata | ⟨marked, hmetadata⟩
    · simp only [hmetadata] at h
      obtain ⟨parents, hparents, h⟩ := Fallible.bind_ok h
      simp only [FsEntry.isDirectory, Bool.false_eq_true, if_false, makeDeviceNode] at h
      rw [createEntry_ok h]
      exact ⟨_, placed_entry hparents, .inl hnode⟩
    · simp only [hmetadata] at h
      obtain ⟨parents, hparents, h⟩ := Fallible.bind_ok h
      simp only [FsEntry.isDirectory, if_true] at h
      rw [createEntry_ok h]
      exact ⟨_, placed_entry hparents, .inl hnode⟩

end Write

section Stage

variable {done : List MountSource}

theorem Written.step (h : Written files done before tree)
    (hfree : before.valueAt compare (stagedPath s) = none)
    (hone : ∀ s' ∈ done, stagedPath s' = stagedPath s → s' = s) (hmatch : FilesMatch files s)
    (hstage : stageSource files tree s = .ok tree') : Written files (done ++ [s]) before tree' := by
  obtain ⟨entry, hplaced, hentry⟩ := stageSource_ok hmatch hstage
  have hself : stagedEntry files s = some entry := by
    rcases hentry with hentry | ⟨htype, hreplace, hthere⟩
    · exact hentry
    · have hplain : stagedEntry files s = some (.directory false) := by simp [stagedEntry, htype, hreplace]
      rw [hplain]
      by_cases hagain : ∃ s' ∈ done, stagedPath s' = stagedPath s
      · obtain ⟨s', hs', hpath⟩ := hagain
        obtain ⟨there, hwas, hat⟩ := h.materialised s' hs'
        obtain rfl := hone s' hs' hpath
        exact hplain.symm.trans (hwas.trans (hat.symm.trans hthere))
      · have hnew : ∀ s' ∈ done, stagedPath s' ≠ stagedPath s := fun s' hs' hpath => hagain ⟨s', hs', hpath⟩
        by_cases habove : ∃ s' ∈ done, stagedPath s <+: stagedPath s'
        · have hway := h.onTheWay _ habove hnew
          rw [hfree, hthere] at hway
          exact hway.symm
        · have hout := h.untouched (stagedPath s) fun s' hs' hpre => habove ⟨s', hs', hpre⟩
          rw [hfree, hthere] at hout
          cases hout
  refine ⟨hplaced.ordered h.ordered, ?_, ?_, ?_⟩
  · intro s' hs'
    rcases List.mem_append.mp hs' with hs' | hs'
    · obtain ⟨there, hwas, hat⟩ := h.materialised s' hs'
      by_cases hsame : stagedPath s' = stagedPath s
      · obtain rfl := hone s' hs' hsame
        exact ⟨entry, hself, hplaced.here⟩
      · refine ⟨there, hwas, ?_⟩
        by_cases hpre : stagedPath s' <+: stagedPath s
        · obtain ⟨marked, hmarked, hnow⟩ := hplaced.above _ hpre hsame
          rw [hat, Option.getD_some] at hmarked
          rw [hnow, hmarked]
        · rw [hplaced.elsewhere _ hpre, hat]
    · obtain rfl := List.mem_singleton.mp hs'
      exact ⟨entry, hself, hplaced.here⟩
  · intro path hway hnone
    have hnone' : ∀ s' ∈ done, stagedPath s' ≠ path := fun s' hs' => hnone s' (List.mem_append_left _ hs')
    have hne : path ≠ stagedPath s := fun heq => hnone s (by simp) heq.symm
    have hold : (tree.valueAt compare path).getD (.directory false) = (before.valueAt compare path).getD
        (.directory false) := by
      by_cases hway' : ∃ s' ∈ done, path <+: stagedPath s'
      · rw [h.onTheWay path hway' hnone', Option.getD_some]
      · rw [h.untouched path fun s' hs' hpre => hway' ⟨s', hs', hpre⟩]
    by_cases hpre : path <+: stagedPath s
    · obtain ⟨marked, hmarked, hnow⟩ := hplaced.above path hpre hne
      rw [hnow, ← hold, hmarked]
    · obtain ⟨s', hs', hpre'⟩ := hway
      rcases List.mem_append.mp hs' with hs' | hs'
      · rw [hplaced.elsewhere path hpre]
        exact h.onTheWay path ⟨s', hs', hpre'⟩ hnone'
      · obtain rfl := List.mem_singleton.mp hs'
        exact absurd hpre' hpre
  · intro path hout
    rw [hplaced.elsewhere path (hout s (by simp))]
    exact h.untouched path fun s' hs' => hout s' (List.mem_append_left _ hs')

theorem written_all (hordered : before.Ordered compare)
    (hfree : ∀ s ∈ sources, before.valueAt compare (stagedPath s) = none)
    (hone : ∀ s ∈ sources, ∀ s' ∈ sources, stagedPath s = stagedPath s' → s = s')
    (hmatch : ∀ s ∈ sources, FilesMatch files s)
    (h : sources.foldlM (stageSource files) before = .ok staged) : Written files sources before staged := by
  have hempty : Written files [] before before := ⟨hordered, by simp, by simp, by simp⟩
  have hall : sources ⊆ sources → Written files sources before staged := by
    refine Fallible.foldlM_invariant (fun done tree => done ⊆ sources → Written files done before tree) ?_ h
      fun _ => hempty
    intro done s tree tree' hwritten hstage hsub
    obtain ⟨hdone, hs⟩ := List.append_subset.mp hsub
    have hmem : s ∈ sources := hs (by simp)
    exact (hwritten hdone).step (hfree s hmem) (fun s' hs' => hone s' (hdone hs') s hmem)
      (hmatch s hmem) hstage
  exact hall (List.Subset.refl _)

theorem valueAt_emptied {ids : List String} :
    (ids.foldl (fun destination id => destination.removeChild id) tree).valueAt compare q =
    if ∃ id ∈ ids, [id] <+: q then none else tree.valueAt compare q := by
  induction ids generalizing tree with
  | nil => simp
  | cons id rest ih =>
    rw [List.foldl_cons, ih, Trie.valueAt_removeChild]
    by_cases hid : [id] <+: q
    · simp [hid]
    · simp [hid]

theorem ordered_emptied {ids : List String} (h : tree.Ordered compare) :
    (ids.foldl (fun destination id => destination.removeChild id) tree).Ordered compare := by
  induction ids generalizing tree with
  | nil => exact h
  | cons id rest ih => exact ih (Trie.ordered_removeChild h)

end Stage

section Contents

variable {m' : ModuleRecord} {d' : EntryDecision} {id : String}

theorem mem_stagedSources (h : planModules input = .ok builder) :
    s ∈ stagedSources builder.tree ↔ ∃ m d, OverlayLabelled input m d ∧ s = sourceOf m d := by
  rw [stagedSources, Trie.mem_collect_descend (ordered_plan_tree h)]
  constructor
  · intro hmem
    obtain ⟨path, _, below, hdescend, hs⟩ := hmem
    simp only [List.mem_filter, decide_eq_true_eq] at hs
    obtain ⟨m, d, hd, rfl, -⟩ :=
      (mem_plan_tree h).mp (mem_sourcesAt_find.mpr ⟨below, Trie.descend_find hdescend, hs.1⟩)
    exact ⟨m, d, ⟨hd, hs.2⟩, rfl⟩
  · intro hmem
    obtain ⟨m, d, hd, rfl⟩ := hmem
    obtain ⟨below, hfind, hs⟩ := mem_sourcesAt_find.mp ((mem_plan_tree h).mpr ⟨m, d, hd.toPlanned, rfl, rfl⟩)
    obtain ⟨state, hdescend⟩ := Trie.exists_descend _ () [] hfind
    exact ⟨_, state, below, hdescend, by simpa using ⟨hs, hd.overlay⟩⟩

theorem mem_overlayIds (h : planModules input = .ok builder) :
    id ∈ collectBackendIds builder.tree .overlay ↔ ∃ m d, OverlayLabelled input m d ∧ m.id = id := by
  rw [mem_collectBackendIds (ordered_plan_tree h)]
  constructor
  · intro hmem
    obtain ⟨path, below, hfind, s, hs, hbackend, rfl⟩ := hmem
    obtain ⟨m, d, hd, rfl, -⟩ := (mem_plan_tree h).mp (mem_sourcesAt_find.mpr ⟨below, hfind, hs⟩)
    exact ⟨m, d, ⟨hd, hbackend⟩, rfl⟩
  · intro hmem
    obtain ⟨m, d, hd, rfl⟩ := hmem
    obtain ⟨below, hfind, hs⟩ := mem_sourcesAt_find.mp ((mem_plan_tree h).mpr ⟨m, d, hd.toPlanned, rfl, rfl⟩)
    exact ⟨_, below, hfind, sourceOf m d, hs, hd.overlay, rfl⟩

theorem staged_inj (h : planModules input = .ok builder) (hscan : Scanned input.modules)
    (hclosed : ∀ m ∈ input.modules, ParentClosed m.entries) (hd : OverlayLabelled input m d)
    (hd' : OverlayLabelled input m' d')
    (hid : m.id = m'.id) : m = m' ∧ (d.entry.relative = d'.entry.relative → d = d') := by
  obtain rfl := List.inj_on_of_nodup_map (nodup_planned hscan) hd.module hd'.module hid
  exact ⟨rfl, (sound_decisions h hscan hclosed hd.module).distinct d hd.decision d' hd'.decision⟩

theorem staged_written (h : planModules input = .ok builder) (hscan : Scanned input.modules)
    (hclosed : ∀ m ∈ input.modules, ParentClosed m.entries)
    (hfiles : ∀ m d, OverlayLabelled input m d → FilesMatch files (sourceOf m d))
    (hordered : destination.Ordered compare)
    (hstage : stageOverlayTree files builder.tree destination = .ok staged) :
    StagedFrom files builder.tree destination staged := by
  refine written_all (ordered_emptied hordered) (fun s hs => ?_) (fun s hs s' hs' hpath => ?_)
    (fun s hs => ?_) hstage
  · obtain ⟨m, d, hd, rfl⟩ := (mem_stagedSources h).mp hs
    rw [valueAt_emptied, if_pos ⟨m.id, (mem_overlayIds h).mpr ⟨m, d, hd, rfl⟩,
      List.cons_prefix_cons.mpr ⟨rfl, List.nil_prefix⟩⟩]
  · obtain ⟨m, d, hd, rfl⟩ := (mem_stagedSources h).mp hs
    obtain ⟨m', d', hd', rfl⟩ := (mem_stagedSources h).mp hs'
    obtain ⟨hid, hrelative⟩ := List.cons.inj hpath
    obtain ⟨rfl, hsame⟩ := staged_inj h hscan hclosed hd hd' hid
    rw [hsame hrelative]
  · obtain ⟨m, d, hd, rfl⟩ := (mem_stagedSources h).mp hs
    exact hfiles m d hd

theorem staged_only (h : planModules input = .ok builder) (hscan : Scanned input.modules)
    (hclosed : ∀ m ∈ input.modules, ParentClosed m.entries) (hd : OverlayLabelled input m d)
    (hwritten : StagedFrom files builder.tree destination staged)
    (hentry : staged.valueAt compare (m.id :: path) = some entry) :
    ∃ d', OverlayLabelled input m d' ∧
    (d'.entry.relative = path ∨ path <+: d'.entry.relative ∧ entry = .directory false) := by
  have hempty : ((collectBackendIds builder.tree .overlay).foldl
      (fun destination id => destination.removeChild id) destination).valueAt
      compare (m.id :: path) = none := by
    rw [valueAt_emptied, if_pos ⟨m.id, (mem_overlayIds h).mpr ⟨m, d, hd, rfl⟩,
      List.cons_prefix_cons.mpr ⟨rfl, List.nil_prefix⟩⟩]
  by_cases hway : ∃ s ∈ stagedSources builder.tree, m.id :: path <+: stagedPath s
  · by_cases hself : ∃ s ∈ stagedSources builder.tree, stagedPath s = m.id :: path
    · obtain ⟨s, hs, hpath⟩ := hself
      obtain ⟨m', d', hd', rfl⟩ := (mem_stagedSources h).mp hs
      obtain ⟨hid, hrelative⟩ := List.cons.inj hpath
      obtain ⟨rfl, -⟩ := staged_inj h hscan hclosed hd hd' hid.symm
      exact ⟨d', hd', .inl hrelative⟩
    · have hvalue := hwritten.onTheWay _ hway fun s hs hpath => hself ⟨s, hs, hpath⟩
      rw [hentry, hempty, Option.getD_none] at hvalue
      obtain ⟨s, hs, hpre⟩ := hway
      obtain ⟨m', d', hd', rfl⟩ := (mem_stagedSources h).mp hs
      obtain ⟨hid, hrelative⟩ := List.cons_prefix_cons.mp hpre
      obtain ⟨rfl, -⟩ := staged_inj h hscan hclosed hd hd' hid
      exact ⟨d', hd', .inr ⟨hrelative, Option.some.inj hvalue⟩⟩
  · have hvalue := hwritten.untouched (m.id :: path) fun s hs hpre => hway ⟨s, hs, hpre⟩
    rw [hentry, hempty] at hvalue
    cases hvalue

theorem staged_others (h : planModules input = .ok builder)
    (hwritten : StagedFrom files builder.tree destination staged)
    (hpath : path ≠ []) (hout : ∀ m d, OverlayLabelled input m d → ¬[m.id] <+: path) :
    staged.valueAt compare path = destination.valueAt compare path := by
  obtain ⟨name, rest, rfl⟩ := List.exists_cons_of_ne_nil hpath
  have hfree : ∀ s ∈ stagedSources builder.tree, ¬name :: rest <+: stagedPath s := by
    intro s hs hpre
    obtain ⟨m, d, hd, rfl⟩ := (mem_stagedSources h).mp hs
    obtain ⟨rfl, -⟩ := List.cons_prefix_cons.mp hpre
    exact hout m d hd (List.cons_prefix_cons.mpr ⟨rfl, List.nil_prefix⟩)
  rw [hwritten.untouched _ hfree, valueAt_emptied, if_neg]
  intro hremoved
  obtain ⟨id, hid, hpre⟩ := hremoved
  obtain ⟨m, d, hd, rfl⟩ := (mem_overlayIds h).mp hid
  exact hout m d hd hpre

end Contents

section Rewritten

variable {source : Names} {probe : Names → Probe} {dir : Names}

theorem maxByKey_mem {α : Type} {key : α → Nat} {items : List α} {x : α} (h : maxByKey key items = some x) :
    x ∈ items := by
  have hfold : ∀ (rest : List α) (best : α), rest.foldl (fun best y => if key best ≤ key y then y else best)
      best ∈ best :: rest := by
    intro rest
    induction rest with
    | nil => simp
    | cons y rest ih =>
      intro best
      rw [List.foldl_cons]
      by_cases hy : key best ≤ key y
      · rw [if_pos hy]
        exact List.mem_cons_of_mem _ (ih y)
      · rw [if_neg hy]
        exact List.cons_subset_cons _ (List.subset_cons_self y rest) (ih best)
  cases items with
  | nil => cases h
  | cons y rest =>
    cases h
    exact hfold rest y

theorem staged_path_of (hscan : Scanned input.modules) (hm : m ∈ input.modules) :
    stagedOverlayPath (m.sourcePath ++ dir) input.modules = .ok (m.id :: dir) := by
  have hmem : m ∈ input.modules.filter fun module => module.sourcePath.isPrefixOf (m.sourcePath ++ dir) :=
    List.mem_filter.mpr ⟨hm, by simp⟩
  unfold stagedOverlayPath
  cases hmax : maxByKey (fun module => module.sourcePath.length)
      (input.modules.filter fun module => module.sourcePath.isPrefixOf (m.sourcePath ++ dir)) with
  | none =>
    obtain ⟨first, rest, hcons⟩ := List.exists_cons_of_ne_nil (List.ne_nil_of_mem hmem)
    rw [hcons] at hmax
    cases hmax
  | some found =>
    obtain ⟨hfound, hpre⟩ := List.mem_filter.mp (maxByKey_mem hmax)
    obtain ⟨rest, hrest⟩ := List.isPrefixOf_iff_prefix.mp hpre
    obtain ⟨rfl, rfl⟩ := hscan.sourcePath_inj hfound hm hrest
    simp

/-- What goes into a shallow group is a layer or a single file of the plan. -/
theorem shallow_source (h : buildOverlayExecutionPlan probe plan = .ok execution)
    {group : List ShallowOverlaySource}
    (hgroup : group ∈ execution.shallow.values) {piece : ShallowOverlaySource} (hpiece : piece ∈ group) :
    (∃ op ∈ plan.overlayOps, piece.source ∈ op.lowerdirs) ∨ ∃ rule ∈ plan.overlayFiles,
    piece.source ∈ rule.2 := by
  obtain ⟨⟨key, there⟩, hentry, hvalue⟩ := List.mem_map.mp hgroup
  obtain rfl : there = group := hvalue
  have hgrouped : (key, piece) ∈ execution.shallow.grouped :=
    OrderedMap.Map.mem_grouped.mpr ⟨_, hentry, rfl, hpiece⟩
  have hmem := (build_pieces h).mem_iff.mp (List.mem_map_of_mem hgrouped)
  rcases List.mem_append.mp hmem with hfile | hlayer
  · obtain ⟨rule, hrule, hsource⟩ := List.mem_flatMap.mp hfile
    obtain ⟨source, hsource, heq⟩ := List.mem_map.mp hsource
    obtain rfl : source = piece.source := congrArg Prod.fst heq
    exact .inr ⟨rule, hrule, hsource⟩
  · obtain ⟨op, hop, hlower⟩ := List.mem_flatMap.mp hlayer
    obtain ⟨lower, hlower, heq⟩ := List.mem_map.mp hlower
    obtain rfl : lower = piece.source := congrArg Prod.fst heq
    exact .inl ⟨op, List.mem_of_mem_filter hop, hlower⟩

/-- Every path which is pointed to the staging area is an overlay entry of a module. -/
theorem prepared_entry (h : buildPlan input = .ok plan) (hscan : Scanned input.modules)
    (hclosed : ∀ m ∈ input.modules, ParentClosed m.entries)
    (hexecution : buildOverlayExecutionPlan probe plan = .ok execution)
    (hsource : source ∈ preparedSources plan execution) :
    ∃ m d, OverlayLabelled input m d ∧ source = m.sourcePath ++ d.entry.relative := by
  obtain ⟨builder, hmodules, -, hops, hfiles⟩ := buildPlan_ok h
  have hlower : ∀ op ∈ plan.overlayOps, ∀ source ∈ op.lowerdirs, ∃ m d, OverlayLabelled input m d ∧
      source = m.sourcePath ++ d.entry.relative := by
    intro op hop source hsource
    obtain ⟨m, hm, dir, hlast, rfl⟩ := lowerdir_origin hscan hmodules ⟨op, hops ▸ hop, rfl, hsource⟩
    obtain ⟨hlayer, -⟩ := mem_dirsAt.mp (List.mem_of_getLast? hlast)
    obtain ⟨d, hd, hmode, rfl, -⟩ := layer_decision (hclosed m (mem_planned.mp hm).1) hm hlayer
    exact ⟨m, d, ⟨hd.toPlanned, hmode⟩, rfl⟩
  have hfile : ∀ rule ∈ plan.overlayFiles, ∀ source ∈ rule.2, ∃ m d, OverlayLabelled input m d ∧
      source = m.sourcePath ++ d.entry.relative := by
    intro rule hrule source hsource
    obtain ⟨m, hm, parent, relative, hcontribution, rfl⟩ :=
      file_origin hmodules ⟨rule, hfiles ▸ hrule, rfl, hsource⟩
    obtain ⟨d, hd, hmode, rfl⟩ := file_entry hcontribution
    exact ⟨m, d, ⟨⟨hm, hd⟩, hmode⟩, rfl⟩
  rcases List.mem_append.mp hsource with hplan | hshallow
  · rcases List.mem_append.mp hplan with hplan | hplan
    · obtain ⟨op, hop, hmem⟩ := List.mem_flatMap.mp hplan
      exact hlower op hop source hmem
    · obtain ⟨rule, hrule, hmem⟩ := List.mem_flatMap.mp hplan
      exact hfile rule hrule source hmem
  · obtain ⟨group, hgroup, hmem⟩ := List.mem_flatMap.mp hshallow
    obtain ⟨piece, hpiece, rfl⟩ := List.mem_map.mp hmem
    rcases shallow_source hexecution hgroup hpiece with ⟨op, hop, hmem⟩ | ⟨rule, hrule, hmem⟩
    · exact hlower op hop _ hmem
    · exact hfile rule hrule _ hmem

end Rewritten

section Copy

variable {children copies : List (String × FileTree)}

theorem copyChildren_names (h : copyChildren children = .ok copies) :
    ∀ e ∈ copies, isReplaceMarker e.1 = false := by
  induction children generalizing copies with
  | nil =>
    cases h
    simp
  | cons e rest ih =>
    obtain ⟨name, child⟩ := e
    by_cases hname : isReplaceMarker name = true
    · simp only [copyChildren, hname, if_true] at h
      exact ih h
    · simp only [copyChildren, hname] at h
      obtain ⟨copied, -, h⟩ := Fallible.bind_ok h
      obtain ⟨others, hothers, h⟩ := Fallible.bind_ok h
      cases h
      exact List.forall_mem_cons.mpr ⟨by simpa using hname, ih hothers⟩

theorem copyChildren_self : copyChildren children = .ok children ↔
    ∀ e ∈ children, isReplaceMarker e.1 = false ∧ copyTreeEntry e.2 = .ok e.2 := by
  constructor
  · intro h
    have hnames := copyChildren_names h
    induction children with
    | nil => simp
    | cons e rest ih =>
      obtain ⟨name, child⟩ := e
      obtain ⟨hname, hrest⟩ := List.forall_mem_cons.mp hnames
      simp only [copyChildren, hname, Bool.false_eq_true, if_false] at h
      obtain ⟨copied, hcopied, h⟩ := Fallible.bind_ok h
      obtain ⟨others, hothers, h⟩ := Fallible.bind_ok h
      obtain ⟨rfl, rfl⟩ : copied = child ∧ others = rest := by simpa using h
      exact List.forall_mem_cons.mpr ⟨⟨hname, hcopied⟩, ih hothers hrest⟩
  · intro h
    induction children with
    | nil => rfl
    | cons e rest ih =>
      obtain ⟨name, child⟩ := e
      obtain ⟨⟨hname, hchild⟩, hrest⟩ := List.forall_mem_cons.mp h
      simp only [copyChildren, hname, Bool.false_eq_true, if_false]
      rw [hchild, ih hrest]
      rfl

/-- A copy is exact where the directory has no mark, and no child is taken for one. -/
theorem copy_self_iff : copyTreeEntry node = .ok node ↔
    (node.value = .directory false ∧ ∀ e ∈ node.children, isReplaceMarker e.1 = false ∧
      copyTreeEntry e.2 = .ok e.2) ∨
      node.value.isDirectory = false ∧ node.children = [] ∧
        ∀ device, node.value ≠ .special .socket device := by
  obtain ⟨value, children⟩ := node
  have hnil : [] = children ↔ children = [] := eq_comm
  cases value with
  | directory marked =>
    simp only [copyTreeEntry, FsEntry.isDirectory, Bool.true_eq_false, false_and, or_false,
      FsEntry.directory.injEq]
    constructor
    · intro h
      obtain ⟨copies, hcopies, h⟩ := Fallible.bind_ok h
      simp only [Except.ok.injEq, Trie.mk.injEq, FsEntry.directory.injEq] at h
      obtain ⟨hmarked, rfl⟩ := h
      have hnames := copyChildren_names hcopies
      refine ⟨?_, copyChildren_self.mp hcopies⟩
      rw [← hmarked]
      simpa using hnames
    · intro h
      obtain ⟨rfl, hchildren⟩ := h
      have hnames : (children.any fun child => isReplaceMarker child.1) = false := by
        simpa using fun e child he => (hchildren (e, child) he).1
      rw [copyChildren_self.mpr hchildren]
      simp [bind, Except.bind, hnames]
  | file content => simp [copyTreeEntry, FsEntry.isDirectory, hnil]
  | symlink target => simp [copyTreeEntry, FsEntry.isDirectory, hnil]
  | special kind device =>
    cases kind with
    | socket => simp [copyTreeEntry, FsEntry.isDirectory]
    | char => simp [copyTreeEntry, FsEntry.isDirectory, hnil]
    | block => simp [copyTreeEntry, FsEntry.isDirectory, hnil]
    | fifo => simp [copyTreeEntry, FsEntry.isDirectory, hnil]

/-- An exact copy is exact at every node below, and none of the names on the way is taken for a mark. -/
theorem copy_self_find (h : copyTreeEntry tree = .ok tree) (hfind : tree.find compare path = some node) :
    copyTreeEntry node = .ok node ∧ ∀ name ∈ path, isReplaceMarker name = false := by
  induction path generalizing tree with
  | nil =>
    cases hfind
    exact ⟨h, by simp⟩
  | cons name rest ih =>
    cases hchild : OrderedMap.get compare name tree.children with
    | none => simp [Trie.find, hchild] at hfind
    | some child =>
      simp only [Trie.find, hchild, Option.bind_some] at hfind
      have hmem := OrderedMap.get_mem hchild
      rcases copy_self_iff.mp h with ⟨-, hchildren⟩ | ⟨-, hnone, -⟩
      · obtain ⟨hname, hcopied⟩ := hchildren _ hmem
        obtain ⟨hnode, hrest⟩ := ih hcopied hfind
        exact ⟨hnode, List.forall_mem_cons.mpr ⟨hname, hrest⟩⟩
      · rw [hnone] at hmem
        cases hmem

/-- Where no directory is marked, no name is taken for a mark and only directories have children,
every copy is exact. -/
theorem copy_of_plain (hordered : tree.Ordered compare)
    (h : ∀ path node, tree.find compare path = some node → (∀ name ∈ path, isReplaceMarker name = false) ∧
      (node.value = .directory false ∨ node.value.isDirectory = false ∧ node.children = [] ∧
        ∀ device, node.value ≠ .special .socket device)) :
    copyTreeEntry tree = .ok tree := by
  induction tree using Trie.induct with
  | h tree ih =>
    obtain ⟨hsorted, hbelow⟩ := hordered
    apply copy_self_iff.mpr
    rcases (h [] tree rfl).2 with hvalue | hvalue
    · refine .inl ⟨hvalue, fun e he => ?_⟩
      have hfind : ∀ path, tree.find compare (e.1 :: path) = e.2.find compare path := by
        intro path
        rw [Trie.find, OrderedMap.get_of_mem hsorted he, Option.bind_some]
      refine ⟨(h [e.1] e.2 (hfind [])).1 e.1 (by simp), ih e he (hbelow e he) fun path node hnode => ?_⟩
      obtain ⟨hnames, hplain⟩ := h (e.1 :: path) node ((hfind path).trans hnode)
      exact ⟨fun name hname => hnames name (List.mem_cons_of_mem _ hname), hplain⟩
    · exact .inr hvalue

end Copy

section Assembled

variable {m' : ModuleRecord} {d' : EntryDecision} {probe : Names → Probe}

theorem stagedEntry_plain (hmatch : FilesMatch files s) (htype : s.fileType ≠ .directory)
    (h : stagedEntry files s = some entry) :
    entry.isDirectory = false ∧ ∀ device, entry ≠ .special .socket device := by
  unfold stagedEntry at h
  unfold FilesMatch at hmatch
  cases hs : s.fileType with
  | directory => exact absurd hs htype
  | regularFile =>
    simp only [hs] at h hmatch
    obtain ⟨content, -, hcontent⟩ := hmatch
    rw [hcontent] at h
    cases h
    exact ⟨rfl, by simp⟩
  | symlink =>
    simp only [hs] at h hmatch
    obtain ⟨target, htarget⟩ := hmatch
    rw [htarget] at h
    cases h
    exact ⟨rfl, by simp⟩
  | whiteout =>
    simp only [hs] at h
    cases h
    exact ⟨rfl, by simp⟩

theorem labelled_directory (h : planModules input = .ok builder)
    (hclosed : ∀ m ∈ input.modules, ParentClosed m.entries)
    (hd : OverlayLabelled input m d) (hd' : OverlayLabelled input m d')
    (hpre : d.entry.relative <+: d'.entry.relative)
    (hne : d.entry.relative ≠ d'.entry.relative) : d.entry.fileType = .directory := by
  have hclosed := hclosed m (mem_planned.mp hd.module).1 d'.entry (mem_decisions.mp hd'.decision).1
    d.entry.relative
    (decision_mapped h hd.module hd.decision).1 hpre hne
  exact hclosed.2 d.entry (mem_decisions.mp hd.decision).1 rfl

theorem labelled_of_copied (hfind : staged.find compare [m.id] = some tree)
    (hcopied : copyTreeEntry tree = .ok tree)
    (hentry : stagedEntry files (sourceOf m d) = some entry)
    (hvalue : staged.valueAt compare (m.id :: d.entry.relative) = some entry) :
    ¬(d.entry.fileType = .directory ∧ d.entry.replace = true) ∧ ∀ name ∈ d.entry.relative,
    isReplaceMarker name = false := by
  have hsplit : staged.find compare (m.id :: d.entry.relative) = tree.find compare d.entry.relative := by
    rw [← List.singleton_append, Trie.find_append, hfind, Option.bind_some]
  rw [Trie.valueAt, hsplit] at hvalue
  obtain ⟨node, hnode, rfl⟩ := Option.map_eq_some_iff.mp hvalue
  obtain ⟨hself, hnames⟩ := copy_self_find hcopied hnode
  refine ⟨fun hreplaced => ?_, hnames⟩
  obtain ⟨htype, hreplace⟩ := hreplaced
  have hmarked : node.value = .directory true := by
    simpa [stagedEntry, sourceOf, htype, hreplace, eq_comm] using hentry
  rcases copy_self_iff.mp hself with ⟨hplain, -⟩ | ⟨hother, -⟩
  · simp [hmarked] at hplain
  · simp [hmarked, FsEntry.isDirectory] at hother

theorem copied_of_labelled (h : planModules input = .ok builder) (hscan : Scanned input.modules)
    (hclosed : ∀ m ∈ input.modules, ParentClosed m.entries)
    (hfiles : ∀ m d, OverlayLabelled input m d → FilesMatch files (sourceOf m d))
    (hwritten : StagedFrom files builder.tree destination staged)
    (hplain : ∀ m d, OverlayLabelled input m d →
      ¬(d.entry.fileType = .directory ∧ d.entry.replace = true) ∧ ∀ name ∈ d.entry.relative,
        isReplaceMarker name = false)
    (hd : OverlayLabelled input m d) (hfind : staged.find compare (m.id :: path) = some node) :
    copyTreeEntry node = .ok node := by
  refine copy_of_plain (hwritten.ordered.find hfind) fun rest below hbelow => ?_
  have hwhole : staged.find compare (m.id :: (path ++ rest)) = some below := by
    rw [← List.cons_append, Trie.find_append, hfind, Option.bind_some, hbelow]
  have hvalue : staged.valueAt compare (m.id :: (path ++ rest)) = some below.value := by
    rw [Trie.valueAt, hwhole, Option.map_some]
  obtain ⟨d', hd', hplace⟩ := staged_only h hscan hclosed hd hwritten hvalue
  obtain ⟨hreplaced, hnames⟩ := hplain m d' hd'
  have hpre : path ++ rest <+: d'.entry.relative := by
    rcases hplace with hself | ⟨hpre, -⟩
    · exact hself ▸ List.prefix_refl _
    · exact hpre
  refine ⟨fun name hname => hnames name (hpre.subset (List.mem_append_right _ hname)), ?_⟩
  rcases hplace with hself | ⟨-, hparent⟩
  · obtain ⟨entry, hentry, hat⟩ := hwritten.materialised _ ((mem_stagedSources h).mpr ⟨m, d', hd', rfl⟩)
    obtain rfl : below.value = entry := by
      rw [stagedPath, sourceOf, hself, hvalue] at hat
      exact Option.some.inj hat
    by_cases htype : d'.entry.fileType = .directory
    · have hreplace : d'.entry.replace = false := by simpa [htype] using hreplaced
      exact .inl (by simpa [stagedEntry, sourceOf, htype, hreplace, eq_comm] using hentry)
    · obtain ⟨hother, hsocket⟩ := stagedEntry_plain (hfiles m d' hd') htype hentry
      refine .inr ⟨hother, ?_, hsocket⟩
      -- Something below it would be an entry below what is no directory.
      by_contra hchildren
      obtain ⟨e, others, hcons⟩ := List.exists_cons_of_ne_nil hchildren
      have hchild : staged.valueAt compare (m.id :: (path ++ rest ++ [e.1])) = some e.2.value := by
        rw [Trie.valueAt, ← List.cons_append, Trie.find_append, hwhole, Option.bind_some]
        simp [Trie.find, hcons, OrderedMap.get, Std.ReflCmp.compare_self]
      obtain ⟨d'', hd'', hplace⟩ := staged_only h hscan hclosed hd hwritten hchild
      have hbelow : path ++ rest ++ [e.1] <+: d''.entry.relative := by
        rcases hplace with hself' | ⟨hpre', -⟩
        · exact hself' ▸ List.prefix_refl _
        · exact hpre'
      refine htype (labelled_directory h hclosed hd' hd'' ?_ fun heq => ?_)
      · exact hself ▸ (List.prefix_append _ _).trans hbelow
      · have hlen := hbelow.length_le
        rw [← heq, hself, List.length_append, List.length_singleton] at hlen
        omega
  · exact .inl hparent

/-- With all system calls succeeding, staging is faithful if and only if no overlay directory is
replaced and no name on the way to an overlay entry is taken for a replace marker. -/
theorem staging_faithful_iff (h : buildPlan input = .ok plan) (hscan : Scanned input.modules)
    (hclosed : ∀ m ∈ input.modules, ParentClosed m.entries)
    (hexecution : buildOverlayExecutionPlan probe plan = .ok execution)
    (hfiles : ∀ m d, OverlayLabelled input m d → FilesMatch files (sourceOf m d))
    (hordered : destination.Ordered compare)
    (hstage : stageOverlayTree files plan.tree destination = .ok staged) :
    FaithfulStaging files input plan execution destination staged ↔ ∀ m d, OverlayLabelled input m d →
      ¬(d.entry.fileType = .directory ∧ d.entry.replace = true) ∧ ∀ name ∈ d.entry.relative,
        isReplaceMarker name = false := by
  obtain ⟨builder, hmodules, htree, -⟩ := buildPlan_ok h
  rw [htree] at hstage
  have hwritten := staged_written hmodules hscan hclosed hfiles hordered hstage
  have hmaterialised : ∀ m d, OverlayLabelled input m d → ∃ entry, stagedEntry files (sourceOf m d) = some entry ∧
      staged.valueAt compare (m.id :: d.entry.relative) = some entry := fun m d hd =>
    hwritten.materialised _ ((mem_stagedSources hmodules).mpr ⟨m, d, hd, rfl⟩)
  constructor
  · intro hfaithful m d hd
    obtain ⟨entry, hentry, hvalue⟩ := hmaterialised m d hd
    have hsome : ∃ tree, staged.find compare [m.id] = some tree := by
      rw [Trie.valueAt, ← List.singleton_append, Trie.find_append] at hvalue
      cases hfind : staged.find compare [m.id] with
      | none => simp [hfind] at hvalue
      | some tree => exact ⟨tree, rfl⟩
    obtain ⟨tree, hfind⟩ := hsome
    exact labelled_of_copied hfind (hfaithful.copied m d hd [] tree hfind) hentry hvalue
  · intro hplain
    refine ⟨hmaterialised, fun m d d' hd hd' => (staged_inj hmodules hscan hclosed hd hd' rfl).2,
      fun m d hd path entry => staged_only hmodules hscan hclosed hd hwritten,
        fun path => staged_others hmodules hwritten, ?_, ?_⟩
    · intro source hsource
      obtain ⟨m, d, hd, rfl⟩ := prepared_entry h hscan hclosed hexecution hsource
      obtain ⟨entry, -, hvalue⟩ := hmaterialised m d hd
      exact ⟨_, staged_path_of hscan (mem_planned.mp hd.module).1, by simp [hvalue]⟩
    · exact fun m d hd path node => copied_of_labelled hmodules hscan hclosed hfiles hwritten hplain hd

end Assembled

/-- Icons for a directory which the device lacks, with dark ones that replace all others. -/
def iconsModule : ModuleRecord where
  id := "icons"
  sourcePath := ["modules", "icons"]
  entries := [{ relative := ["product", "icons"], fileType := .directory },
    { relative := ["product", "icons", "dark"], fileType := .directory, replace := true },
    { relative := ["product", "icons", "dark", "a.png"], fileType := .regularFile }]

def iconsInput : PlanInput where
  modules := [iconsModule]
  config := { defaultMode := .overlay, rules := [], moduleBlacklist := [] }
  layout := { roots := [("product", ["product"])], errors := [], mountPoints := [["product"]] }
  vfsAvailable := true

def withoutIcons (path : Names) : Probe := if path = ["product", "icons"] then .missing else .directory

def iconsFiles : ModuleFiles where
  metadata path := if path.getLast? = some "a.png" then some (.file "dark") else some (.directory false)
  contents _ := some "dark"

def emptyStorage : FileTree := ⟨.directory false, []⟩

theorem icons_labelled :
    OverlayLabelled iconsInput iconsModule
    ⟨{ relative := ["product", "icons"], fileType := .directory }, .overlay⟩ := by
  have hboth : iconsModule ∈ iconsInput.planned ∧
      ⟨{ relative := ["product", "icons"], fileType := .directory }, .overlay⟩ ∈
      decisions iconsModule (iconsInput.rulesOf iconsModule) iconsInput.layout := by decide +kernel
  exact ⟨⟨hboth.1, hboth.2⟩, rfl⟩

theorem icons_files {m : ModuleRecord} {d : EntryDecision} (hd : OverlayLabelled iconsInput m d) :
    FilesMatch iconsFiles (sourceOf m d) := by
  obtain rfl : m = iconsModule := List.mem_singleton.mp (mem_planned.mp hd.module).1
  obtain ⟨hentry, -⟩ := mem_decisions.mp hd.decision
  obtain ⟨entry, mode⟩ := d
  simp only [iconsModule, List.mem_cons, List.not_mem_nil, or_false] at hentry
  rcases hentry with rfl | rfl | rfl
  · exact ⟨false, rfl⟩
  · exact ⟨false, rfl⟩
  · exact ⟨"dark", rfl, rfl⟩

theorem icons_unmarked : ∃ plan execution staged node copied, buildPlan iconsInput = .ok plan ∧
    buildOverlayExecutionPlan withoutIcons plan = .ok execution ∧
    stageOverlayTree iconsFiles plan.tree emptyStorage = .ok staged ∧
    execution.shallow.entries = [(["product"], [⟨["modules", "icons", "product", "icons"], ["icons"]⟩])] ∧
    stagedOverlayPath ["modules", "icons", "product", "icons"] iconsInput.modules = .ok
      ["icons", "product", "icons"] ∧
    staged.find compare ["icons", "product", "icons"] = some node ∧ copyTreeEntry node = .ok copied ∧
    node.valueAt compare ["dark"] = some (.directory true) ∧ copied.valueAt compare ["dark"] = some
      (.directory false) ∧
    ¬FaithfulStaging iconsFiles iconsInput plan execution emptyStorage staged := by
  have hview : (buildPlan iconsInput).toOption.map (fun plan =>
      ((buildOverlayExecutionPlan withoutIcons plan).toOption.map fun execution =>
          decide (execution.shallow.entries =
            [(["product"], [⟨["modules", "icons", "product", "icons"], ["icons"]⟩])]),
        (stageOverlayTree iconsFiles plan.tree emptyStorage).toOption.bind fun staged =>
          (staged.find compare ["icons", "product", "icons"]).bind fun node =>
              (copyTreeEntry node).toOption.map fun copied =>
            (node.valueAt compare ["dark"], copied.valueAt compare ["dark"]))) =
      some (some true, some (some (.directory true), some (.directory false))) := by decide +kernel
  obtain ⟨plan, hplan, hseen⟩ := buildPlan_of_view hview
  simp only [Prod.mk.injEq] at hseen
  obtain ⟨execution, hexecution, hshallow⟩ := Option.map_eq_some_iff.mp hseen.1
  obtain ⟨staged, hstaged, hnodes⟩ := Option.bind_eq_some_iff.mp hseen.2
  obtain ⟨node, hnode, hcopies⟩ := Option.bind_eq_some_iff.mp hnodes
  obtain ⟨copied, hcopied, hvalues⟩ := Option.map_eq_some_iff.mp hcopies
  simp only [Prod.mk.injEq] at hvalues
  refine ⟨plan, execution, staged, node, copied, hplan, Fallible.ok_of_toOption hexecution,
    Fallible.ok_of_toOption hstaged,
    of_decide_eq_true hshallow, by decide +kernel, hnode, Fallible.ok_of_toOption hcopied, hvalues.1,
      hvalues.2, fun hfaithful => ?_⟩
  have hsame : copied = node := by
    have hself := hfaithful.copied _ _ icons_labelled ["product", "icons"] node hnode
    rw [Fallible.ok_of_toOption hcopied] at hself
    exact Except.ok.inj hself
  rw [hsame, hvalues.1] at hvalues
  simp at hvalues

/-- The dark icons without the mark. -/
def plainIcons : ModuleRecord :=
    { iconsModule with entries := iconsModule.entries.map fun entry => { entry with replace := false } }

def plainIconsInput : PlanInput := { iconsInput with modules := [plainIcons] }

theorem plainIcons_entry {m : ModuleRecord} {d : EntryDecision} (hd : OverlayLabelled plainIconsInput m d) :
    FilesMatch iconsFiles (sourceOf m d) ∧ ¬(d.entry.fileType = .directory ∧ d.entry.replace = true) ∧
      ∀ name ∈ d.entry.relative, isReplaceMarker name = false := by
  obtain rfl : m = plainIcons := List.mem_singleton.mp (mem_planned.mp hd.module).1
  obtain ⟨hentry, -⟩ := mem_decisions.mp hd.decision
  have hplain : ∀ entry ∈ plainIcons.entries, ¬(entry.fileType = .directory ∧ entry.replace = true) ∧
      ∀ name ∈ entry.relative, isReplaceMarker name = false := by decide
  refine ⟨?_, hplain d.entry hentry⟩
  obtain ⟨entry, mode⟩ := d
  simp only [plainIcons, iconsModule, List.map_cons, List.map_nil, List.mem_cons, List.not_mem_nil, or_false]
    at hentry
  rcases hentry with rfl | rfl | rfl
  · exact ⟨false, rfl⟩
  · exact ⟨false, rfl⟩
  · exact ⟨"dark", rfl, rfl⟩

theorem staged_of_view {input : PlanInput} (hview : (buildPlan input).toOption.map (fun plan =>
      ((buildOverlayExecutionPlan withoutIcons plan).toOption.isSome,
        (stageOverlayTree iconsFiles plan.tree emptyStorage).toOption.isSome)) =
    some (true, true)) :
    ∃ plan execution staged, buildPlan input = .ok plan ∧ buildOverlayExecutionPlan withoutIcons plan =
    .ok execution ∧
      stageOverlayTree iconsFiles plan.tree emptyStorage = .ok staged := by
  obtain ⟨plan, hplan, hseen⟩ := buildPlan_of_view hview
  simp only [Prod.mk.injEq] at hseen
  obtain ⟨execution, hexecution⟩ := Option.isSome_iff_exists.mp hseen.1
  obtain ⟨staged, hstaged⟩ := Option.isSome_iff_exists.mp hseen.2
  exact ⟨plan, execution, staged, hplan, Fallible.ok_of_toOption hexecution, Fallible.ok_of_toOption hstaged⟩

theorem icons_faithful_iff :
    (∃ plan execution staged, buildPlan iconsInput = .ok plan ∧ buildOverlayExecutionPlan withoutIcons plan =
      .ok execution ∧
      stageOverlayTree iconsFiles plan.tree emptyStorage = .ok staged ∧
      (FaithfulStaging iconsFiles iconsInput plan execution emptyStorage staged ↔
        ∀ m d, OverlayLabelled iconsInput m d →
        ¬(d.entry.fileType = .directory ∧ d.entry.replace = true) ∧ ∀ name ∈ d.entry.relative,
          isReplaceMarker name = false)) ∧
    ∃ plan execution staged, buildPlan plainIconsInput = .ok plan ∧
    buildOverlayExecutionPlan withoutIcons plan = .ok execution ∧
      stageOverlayTree iconsFiles plan.tree emptyStorage = .ok staged ∧
      FaithfulStaging iconsFiles plainIconsInput plan execution emptyStorage staged := by
  have hempty : emptyStorage.Ordered compare := .intro .nil (by simp [emptyStorage])
  constructor
  · obtain ⟨plan, execution, staged, hplan, hexecution, hstaged⟩ :=
      @staged_of_view iconsInput (by decide +kernel)
    have hscan : Scanned iconsInput.modules := ⟨by decide, ⟨["modules"], by decide⟩, by decide⟩
    exact ⟨plan, execution, staged, hplan, hexecution, hstaged,
      staging_faithful_iff hplan hscan (by decide +kernel) hexecution (fun m d hd => icons_files hd)
        hempty hstaged⟩
  · obtain ⟨plan, execution, staged, hplan, hexecution, hstaged⟩ :=
      @staged_of_view plainIconsInput (by decide +kernel)
    have hscan : Scanned plainIconsInput.modules := ⟨by decide, ⟨["modules"], by decide⟩, by decide⟩
    refine ⟨plan, execution, staged, hplan, hexecution, hstaged, ?_⟩
    exact (staging_faithful_iff hplan hscan (by decide +kernel) hexecution
      (fun m d hd => (plainIcons_entry hd).1) hempty hstaged).mpr
      fun m d hd => (plainIcons_entry hd).2

end HybridMount.Plan
