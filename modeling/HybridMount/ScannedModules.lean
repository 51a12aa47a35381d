import HybridMount.ScannedEntries

/-! The list of the installed modules: it has every module once, with well formed entries, which is
what the planner is promised. -/

namespace HybridMount.Scanner

open Plan

variable {resolves : Names → Bool} {moduleDir : Names} {dir tree : FileTree}
  {children : List (String × FileTree)} {dirName : String}
  {extraPartitions : List PartitionName} {modules : List InstalledModule} {m : InstalledModule}

theorem readModule_record (h : readModule resolves moduleDir extraPartitions dirName dir = some m) :
    m.id = dirName ∧ m.sourcePath = moduleDir ++ [dirName] ∧
    m.entries = moduleEntries resolves dir extraPartitions := by
  simp only [readModule, Option.bind_eq_bind, Option.bind_eq_some_iff, Option.guard_eq_some'] at h
  obtain ⟨-, -, content, -, id, -, name, -, version, -, author, -, description, -, -, -, -, rfl, hm⟩ := h
  cases hm
  exact ⟨rfl, rfl, rfl⟩

theorem addModule_ok {entry : String × FileTree} (hfresh : ∀ m ∈ modules, m.id ≠ entry.1) :
    addModule resolves moduleDir extraPartitions modules entry = .ok (modules ++
      (readModule (below resolves entry.1) moduleDir extraPartitions entry.1 entry.2).toList) := by
  rw [addModule]
  cases hread : readModule (below resolves entry.1) moduleDir extraPartitions entry.1 entry.2 with
  | none =>
    rw [Option.toList_none, List.append_nil]
  | some module =>
    have hnone : modules.find? (fun m => m.id = module.id) = none := by
      refine List.find?_eq_none.mpr fun m hm => ?_
      rw [decide_eq_true_eq, (readModule_record hread).1]
      exact hfresh m hm
    simp only [hnone, Option.toList_some]

/-- No two directories have one name, so that no id is declared twice. -/
theorem addModules_ok (resolves : Names → Bool) (moduleDir : Names) (extraPartitions : List PartitionName)
    (modules : List InstalledModule) (hnodup : (children.map Prod.fst).Nodup)
    (hfresh : ∀ m ∈ modules, m.id ∉ children.map Prod.fst) :
    children.foldlM (addModule resolves moduleDir extraPartitions) modules = .ok
      (modules ++ children.flatMap fun entry =>
      (readModule (below resolves entry.1) moduleDir extraPartitions entry.1 entry.2).toList) := by
  induction children generalizing modules with
  | nil =>
    rw [List.flatMap_nil, List.append_nil]
    rfl
  | cons entry rest ih =>
    rw [List.map_cons, List.nodup_cons] at hnodup
    have hnow : ∀ m ∈ modules, m.id ≠ entry.1 := fun m hm heq => hfresh m hm (heq ▸ List.mem_cons_self)
    rw [List.foldlM_cons, addModule_ok hnow]
    refine (ih _ hnodup.2 fun m hm => ?_).trans ?_
    · rcases List.mem_append.mp hm with hm | hm
      · exact fun hmem => hfresh m hm (List.mem_cons_of_mem _ hmem)
      · rw [(readModule_record (Option.mem_toList.mp hm)).1]
        exact hnodup.1
    · rw [List.flatMap_cons, List.append_assoc]

theorem listModules_ok (resolves : Names → Bool) (moduleDir : Names) (extraPartitions : List PartitionName)
    (h : Lawful tree) (hdir : tree.value.isDirectory = true) :
    listModules resolves moduleDir tree extraPartitions = .ok ((tree.children.flatMap fun entry =>
      (readModule (below resolves entry.1) moduleDir extraPartitions entry.1 entry.2).toList).insertionSort
          fun left right =>
        compare left.id right.id ≠ .gt) := by
  have hadd := addModules_ok resolves moduleDir extraPartitions [] h.nodup fun m hm =>
    absurd hm List.not_mem_nil
  rw [listModules, hdir, if_neg (show ¬ (!true) = true by decide), hadd]
  rfl

theorem directory_of_listModules (hlist : listModules resolves moduleDir tree extraPartitions = .ok modules) :
    tree.value.isDirectory = true := by
  cases hdir : tree.value.isDirectory with
  | true => rfl
  | false =>
    rw [listModules, hdir, if_pos (show (!false) = true by decide)] at hlist
    cases hlist

theorem mem_of_listModules (h : Lawful tree)
    (hlist : listModules resolves moduleDir tree extraPartitions = .ok modules) :
    m ∈ modules ↔ ∃ dir, (m.id, dir) ∈ tree.children ∧
    readModule (below resolves m.id) moduleDir extraPartitions m.id dir = some m := by
  rw [listModules_ok _ _ _ h (directory_of_listModules hlist), Except.ok.injEq] at hlist
  rw [← hlist, List.mem_insertionSort, List.mem_flatMap]
  constructor
  · intro hh
    obtain ⟨entry, hentry, hm⟩ := hh
    have hread := Option.mem_toList.mp hm
    have hid := (readModule_record hread).1
    rw [hid]
    exact ⟨entry.2, hentry, hread⟩
  · intro hh
    obtain ⟨dir, hentry, hread⟩ := hh
    exact ⟨(m.id, dir), hentry, Option.mem_toList.mpr hread⟩

/-- Whatever the trees of the installed modules look like and in whichever order their directories are
read, the entries of every listed module are well formed. -/
theorem listed_entries_wellFormed (resolves : Names → Bool) (moduleDir : Names) (tree : FileTree)
    (extraPartitions : List PartitionName) (hlawful : Lawful tree) (hdir : tree.value.isDirectory = true) :
    ∃ modules, listModules resolves moduleDir tree extraPartitions = .ok modules ∧ ∀ m ∈ modules, ∃ dir,
      (m.id, dir) ∈ tree.children ∧ WellFormed (below resolves m.id) dir (partitionNames extraPartitions)
        m.entries := by
  have hlist := listModules_ok resolves moduleDir extraPartitions hlawful hdir
  refine ⟨_, hlist, fun m hm => ?_⟩
  obtain ⟨dir, hentry, hread⟩ := (mem_of_listModules hlawful hlist).mp hm
  refine ⟨dir, hentry, ?_⟩
  rw [(readModule_record hread).2.2]
  exact wellFormed_moduleEntries (hlawful.child hentry)

theorem parentClosed_of_wellFormed {resolves : Names → Bool} {dir : FileTree} {partitions : List String}
    {entries : List ModuleEntry}
    (h : WellFormed resolves dir partitions entries) : ParentClosed entries := by
  intro e he above hnil hpre hne
  refine ⟨fun hlen => h.closed e he above hpre hne hlen, fun parent hparent hrel => ?_⟩
  obtain ⟨⟨marked, hdir⟩, hkept⟩ := h.entered e he above hpre hne hnil
  obtain ⟨entry, hentry, hkind, -⟩ := (h.meaning parent hparent).kind
  rw [hrel] at hentry hkind
  rw [hdir, Option.some.injEq] at hentry
  have hclass := hkind fun hh => hkept hh.2
  rw [← hentry] at hclass
  exact (Option.some.inj hclass).symm

theorem ids_sublist (resolves : Names → Bool) (moduleDir : Names) (extraPartitions : List PartitionName)
    (children : List (String × FileTree)) :
    ((children.flatMap fun entry =>
      (readModule (below resolves entry.1) moduleDir extraPartitions entry.1 entry.2).toList).map
      fun m => m.id).Sublist (children.map Prod.fst) := by
  induction children with
  | nil => exact List.Sublist.refl _
  | cons entry rest ih =>
    rw [List.flatMap_cons, List.map_append, List.map_cons]
    cases hread : readModule (below resolves entry.1) moduleDir extraPartitions entry.1 entry.2 with
    | none => exact ih.cons _
    | some m =>
      have hid := (readModule_record hread).1
      exact hid ▸ ih.cons_cons _

theorem nodup_ids (h : Lawful tree)
    (hlist : listModules resolves moduleDir tree extraPartitions = .ok modules) :
    (modules.map fun m => m.id).Nodup := by
  rw [listModules_ok _ _ _ h (directory_of_listModules hlist), Except.ok.injEq] at hlist
  rw [← hlist, ((List.perm_insertionSort _ _).map _).nodup_iff]
  exact (ids_sublist resolves moduleDir extraPartitions tree.children).nodup h.nodup

/-- What the planner is promised about the modules and their entries holds of every scan. -/
theorem listModules_scanned (h : Lawful tree)
    (hlist : listModules resolves moduleDir tree extraPartitions = .ok modules) :
    Plan.Scanned (modules.map InstalledModule.toModuleRecord) ∧
      ∀ m ∈ modules.map InstalledModule.toModuleRecord, ParentClosed m.entries := by
  have hrecord : ∀ m ∈ modules, ∃ dir, Lawful dir ∧ m.sourcePath = moduleDir ++ [m.id] ∧
      m.entries = moduleEntries (below resolves m.id) dir extraPartitions := by
    intro m hm
    obtain ⟨dir, hentry, hread⟩ := (mem_of_listModules h hlist).mp hm
    obtain ⟨-, hpath, hentries⟩ := readModule_record hread
    exact ⟨dir, h.child hentry, hpath, hentries⟩
  refine ⟨⟨?_, ⟨moduleDir, fun r hr => ?_⟩, fun r hr => ?_⟩, fun r hr => ?_⟩
  · rw [List.map_map]
    exact nodup_ids h hlist
  · obtain ⟨m, hm, rfl⟩ := List.mem_map.mp hr
    obtain ⟨dir, -, hpath, -⟩ := hrecord m hm
    exact hpath
  · obtain ⟨m, hm, rfl⟩ := List.mem_map.mp hr
    obtain ⟨dir, hlawful, -, hentries⟩ := hrecord m hm
    rw [hentries]
    exact nodup_moduleEntries _ _ hlawful
  · obtain ⟨m, hm, rfl⟩ := List.mem_map.mp hr
    obtain ⟨dir, hlawful, -, hentries⟩ := hrecord m hm
    rw [hentries]
    exact parentClosed_of_wellFormed (wellFormed_moduleEntries hlawful)

/-- A module with a marker which is a directory and holds a file. -/
def markerModule : FileTree := ⟨.directory false,
  [("module.prop", ⟨.file "id=m\nname=M\nversion=1\nauthor=A\ndescription=D\n", []⟩),
    ("system", ⟨.directory false,
      [(".replace", ⟨.directory false, [("a", ⟨.file "", []⟩)]⟩), ("b", ⟨.directory false, []⟩)]⟩)]⟩

def markerTree : FileTree := ⟨.directory false, [("m", markerModule)]⟩

/-- A module whose only directory has the name of a marker and is removed. -/
def markerPartition : FileTree := ⟨.directory false, [("m", ⟨.directory false,
  [("module.prop", ⟨.file "id=m\nname=M\nversion=1\nauthor=A\ndescription=D\n", []⟩),
    (".replace", ⟨.directory false, [(".remove", ⟨.file "", []⟩)]⟩)]⟩)]⟩

theorem lawful_childless (entry : FsEntry) : Lawful ⟨entry, []⟩ :=
  .intro List.nodup_nil (fun _ he => absurd he List.not_mem_nil) fun _ he => absurd he List.not_mem_nil

theorem lawful_markerTree : Lawful markerTree := by
  have hreplace : Lawful ⟨.directory false, [("a", ⟨.file "", []⟩)]⟩ :=
    .intro (by decide) (by decide +kernel)
      (List.forall_mem_cons.mpr ⟨lawful_childless _, fun _ he => absurd he List.not_mem_nil⟩)
  have hsystem : Lawful ⟨.directory false,
      [(".replace", ⟨.directory false, [("a", ⟨.file "", []⟩)]⟩), ("b", ⟨.directory false, []⟩)]⟩ :=
    .intro (by decide) (by decide +kernel) (List.forall_mem_cons.mpr ⟨hreplace, List.forall_mem_cons.mpr
      ⟨lawful_childless _, fun _ he => absurd he List.not_mem_nil⟩⟩)
  have hmodule : Lawful markerModule := .intro (by decide) (by decide +kernel) (List.forall_mem_cons.mpr
    ⟨lawful_childless _, List.forall_mem_cons.mpr ⟨hsystem, fun _ he => absurd he List.not_mem_nil⟩⟩)
  exact .intro (by decide) (by decide +kernel)
    (List.forall_mem_cons.mpr ⟨hmodule, fun _ he => absurd he List.not_mem_nil⟩)

theorem listModules_markerTree :
    ((listModules (fun _ => true) ["modules"] markerTree []).toOption.map fun modules =>
    modules.map fun m => (m.id, m.entries.map ModuleEntry.relative)) = some [("m", [["system", "b"]])] := by
  decide +kernel

/-- The module has one entry beside its marker. -/
theorem listed_entries_wellFormed_marker :
    ∃ modules, listModules (fun _ => true) ["modules"] markerTree [] = .ok modules ∧
    modules.map (fun m => m.entries.map ModuleEntry.relative) = [[["system", "b"]]] ∧ ∀ m ∈ modules, ∃ dir,
      (m.id, dir) ∈ markerTree.children ∧ WellFormed (below (fun _ => true) m.id) dir (partitionNames [])
        m.entries := by
  obtain ⟨modules, hlist, hall⟩ :=
    listed_entries_wellFormed (fun _ => true) ["modules"] markerTree [] lawful_markerTree (by decide)
  have hvalue := listModules_markerTree
  rw [hlist, Except.toOption, Option.map_some, Option.some.injEq] at hvalue
  refine ⟨modules, hlist, ?_, hall⟩
  have hentries := congrArg (List.map Prod.snd) hvalue
  rw [List.map_map] at hentries
  exact hentries

/-- What lies inside of a marker is not listed, although it is no marker itself, and a partition may
have the name of a marker. -/
theorem marker_contents_unlisted :
    (¬ ∀ resolves moduleDir (tree : FileTree) extraPartitions modules, Lawful tree →
    listModules resolves moduleDir tree extraPartitions = .ok modules →
    ∀ m ∈ modules, ∀ dir, (m.id, dir) ∈ tree.children →
    ∀ partition ∈ partitionNames extraPartitions, ∀ rest name entry, entryAt dir
      (partition :: rest ++ [name]) = some entry →
    (classifyFileType entry).isSome = true → isMarker name = false →
    (∀ above, above <+: partition :: rest → above ≠ [] → Entered dir above) →
    ∃ e ∈ m.entries, e.relative = partition :: rest ++ [name]) ∧
    (listModules (fun _ => true) ["modules"] markerPartition [⟨".replace", by decide +kernel⟩]).toOption.map
    (fun modules =>
      modules.map fun m => m.entries.map ModuleEntry.relative) = some [[[".replace"]]] := by
  refine ⟨fun hclaim => ?_, by decide +kernel⟩
  obtain ⟨modules, hlist, hmodules⟩ := Option.map_eq_some_iff.mp listModules_markerTree
  have hok : listModules (fun _ => true) ["modules"] markerTree [] = .ok modules := by
    cases hr : listModules (fun _ => true) ["modules"] markerTree [] with
    | ok found => rw [hr] at hlist; cases hlist; rfl
    | error _ => rw [hr] at hlist; cases hlist
  cases modules with
  | nil => cases hmodules
  | cons m others =>
    rw [List.map_cons, List.cons.injEq, Prod.mk.injEq] at hmodules
    obtain ⟨⟨hid, hentries⟩, -⟩ := hmodules
    have hopen : ∀ above, above <+: ["system", ".replace"] → above ≠ [] → Entered markerModule above := by
      intro above hpre hne
      have hcases : above ∈ ["system", ".replace"].inits := (List.mem_inits _ _).mpr hpre
      simp only [List.inits, List.map_cons, List.map_nil, List.mem_cons, List.not_mem_nil, or_false] at hcases
      rcases hcases with rfl | rfl | rfl
      · exact absurd rfl hne
      · refine ⟨⟨false, by decide +kernel⟩, fun hr => ?_⟩
        obtain ⟨content, hr⟩ := hr
        rw [show entryAt markerModule (["system"] ++ [REMOVE_DIR_FILE_NAME]) = none by decide +kernel] at hr
        cases hr
      · refine ⟨⟨false, by decide +kernel⟩, fun hr => ?_⟩
        obtain ⟨content, hr⟩ := hr
        rw [show entryAt markerModule (["system", ".replace"] ++ [REMOVE_DIR_FILE_NAME]) =
          none by decide +kernel] at hr
        cases hr
    obtain ⟨e, he, hrel⟩ := hclaim (fun _ => true) ["modules"] markerTree [] _ lawful_markerTree hok m
      List.mem_cons_self markerModule
      (by rw [hid]; exact List.mem_singleton_self _) "system" (by decide +kernel) [".replace"] "a" (.file "")
      (by decide +kernel) rfl
      (by decide +kernel) hopen
    have hmem : e.relative ∈ m.entries.map ModuleEntry.relative := List.mem_map_of_mem he
    rw [hentries, hrel] at hmem
    exact absurd hmem (by decide +kernel)

end HybridMount.Scanner
