import HybridMount.MagicStaging

/-! What Magic Mount mounts makes the merge visible, and changes nothing elsewhere. -/

namespace HybridMount.Plan.Magic

open Fallible
open FsTree (Straight WellNamed)

/-- A directory which is rebuilt if no directory above it is. -/
def isRebuilt (real : Files) (node : MountNode) (path : Names) : Bool :=
    replaces node || childNeedsTmpfs (realTree real) path node

/-- The places where files are bound and directories are moved. -/
inductive Covers (real : Files) : MountNode → Names → Names → Prop
  | file {node : MountNode} {path : Names} (htype : MountNode.fileTypeFor node .magic = some .regularFile) :
      Covers real node path path
  | rebuilt {node : MountNode} {path : Names} (htype : MountNode.fileTypeFor node .magic = some .directory)
      (hrebuilt : isRebuilt real node path = true) : Covers real node path path
  | child {node child : MountNode} {path place : Names} {name : String}
      (htype : MountNode.fileTypeFor node .magic = some .directory)
      (hkept : isRebuilt real node path = false) (hchild : magicChild node name = some child)
      (hrest : Covers real child (path ++ [name]) place) : Covers real node path place

/-- What is mounted elsewhere does not change where the paths of the directories lead. -/
def Unaliased (real : Files) (tree : MountNode) : Prop := ∀ path n, Reaches tree path n → ∀ live : Files,
  FsTree.Covered (fun place => Covers real tree [] place ∧ FsTree.Apart place path) real live →
    stat live path = stat real path

/-- The type of a node in place is that of the real entry, which is thus no link. -/
inductive Fits (real : Files) (node : MountNode) (path : Names) : Prop
  | file (content : String) (htype : MountNode.fileTypeFor node .magic = some .regularFile)
      (hfind : real.find path = some (.file content))
  | directory (entries : List (String × Files)) (htype : MountNode.fileTypeFor node .magic = some .directory)
      (hfind : real.find path = some (.dir entries))
  | absent (htype : MountNode.fileTypeFor node .magic = some .whiteout) (hfind : real.find path = none)

/-- The walk comes to a node of a directory which is used in place. -/
structure Turn (real : Files) (tree node : MountNode) (path : Names) (run : MagicRun) : Prop where
  ordered : node.Ordered compare
  reaches : ∀ rest n, Reaches node rest n → Reaches tree (path ++ rest) n
  covers : ∀ place, Covers real node path place → Covers real tree [] place
  straight : Straight real path
  fits : Fits real node path
  root : isRebuilt real node path = true → path ≠ []
  covered : FsTree.Covered (fun place => Covers real tree [] place ∧ FsTree.Apart place path) real run.files

/-- A node has been mounted. -/
structure Shows (setting : Setting) (real : Files) (node : MountNode) (path : Names)
    (run run' : MagicRun) : Prop where
  covered : FsTree.Covered (Covers real node path) run.files run'.files
  shows : ∀ rest, seen (run'.files.find (path ++ rest)) = merged setting real node path rest
  stands : AllStand real node path
  grows : run.stats.activeMounts ⊆ run'.stats.activeMounts
  active : ∀ place, Covers real node path place → place ∈ run'.stats.activeMounts

variable {setting : Setting} {real : Files} {tree node child n : MountNode} {path rest place q : Names}
  {name : String}
  {entries : List (String × Files)} {entry : Files} {run run' : MagicRun} {fileType : NodeFileType}

theorem covers_below (h : Covers real node path place) : path <+: place := by
  induction h with
  | file htype => exact List.prefix_refl _
  | rebuilt htype hrebuilt => exact List.prefix_refl _
  | child htype hkept hchild hrest ih => exact (List.prefix_append _ _).trans ih

/-- Where no link is on the way, nothing that is mounted elsewhere matters. -/
theorem unaliased_of_straight (h : ∀ path n, Reaches tree path n → Straight real path) :
    Unaliased real tree :=
  fun path n hreach _ hcovered => FsTree.Covered.stat hcovered (h path n hreach) fun _ hplace => hplace.2

section Entries

/-- What the file system says about an entry of a directory which is reached without links. -/
theorem metadata_child (hs : Straight real path) (hdir : real.find path = some (.dir entries)) :
    (realTree real).symlinkMetadata (path ++ [name]) = realEntry
    (((entries.lookup name).map FsTree.shown).elim (.error .notFound) .ok) := by
  have hlstat : FsTree.lstat linkSteps real (path ++ [name]) = ((entries.lookup name).map FsTree.shown).elim
      (.error .notFound) .ok :=
    FsTree.lstat_child hs hdir
  exact congrArg realEntry hlstat

theorem needsTmpfs_congr {tree tree' : RealTree}
    (h : tree.symlinkMetadata path = tree'.symlinkMetadata path) :
    needsTmpfs tree path fileType = needsTmpfs tree' path fileType := by
  unfold needsTmpfs
  rw [h]

/-- What can be mounted in place has its own kind there, or is a whiteout of nothing. -/
theorem inPlace_cases {tree : RealTree} (h : needsTmpfs tree path fileType = false) :
    (fileType = .whiteout ∧ tree.symlinkMetadata path = .missing) ∨
    (fileType = .regularFile ∧ tree.symlinkMetadata path = .file) ∨
      (fileType = .directory ∧ tree.symlinkMetadata path = .directory) := by
  unfold needsTmpfs at h
  cases fileType with
  | symlink => simp at h
  | whiteout => exact .inl ⟨rfl, by simpa using h⟩
  | regularFile =>
    refine .inr (.inl ⟨rfl, ?_⟩)
    cases hmetadata : tree.symlinkMetadata path with
    | file => rfl
    | _ => simp [hmetadata, NodeFileType.fromFileType] at h
  | directory =>
    refine .inr (.inr ⟨rfl, ?_⟩)
    cases hmetadata : tree.symlinkMetadata path with
    | directory => rfl
    | _ => simp [hmetadata, NodeFileType.fromFileType] at h

theorem fits_child (hs : Straight real path) (hdir : real.find path = some (.dir entries))
    (htype : MountNode.fileTypeFor child .magic = some fileType)
    (h : needsTmpfs (realTree real) (path ++ [name]) fileType = false) :
    Fits real child (path ++ [name]) := by
  have hfind : real.find (path ++ [name]) = entries.lookup name := by
    rw [FsTree.find_child, hdir]
    rfl
  have hcases := inPlace_cases h
  rw [metadata_child hs hdir] at hcases
  cases hlookup : entries.lookup name with
  | none =>
    rw [hlookup] at hfind hcases
    rcases hcases with ⟨rfl, -⟩ | ⟨-, hfile⟩ | ⟨-, hdirectory⟩
    · exact .absent htype hfind
    · cases hfile
    · cases hdirectory
  | some entry =>
    rw [hlookup] at hfind hcases
    rcases hcases with ⟨-, hmissing⟩ | ⟨rfl, hfile⟩ | ⟨rfl, hdirectory⟩
    · cases entry with
      | _ => cases hmissing
    · cases entry with
      | file content => exact .file content htype hfind
      | _ => cases hfile
    · cases entry with
      | dir below => exact .directory below htype hfind
      | _ => cases hdirectory

end Entries

section Turns

theorem Turn.find (h : Turn real tree node path run) : run.files.find path = real.find path :=
  FsTree.Covered.find h.covered fun _ hplace => hplace.2

theorem Turn.look (h : Turn real tree node path run) (hq : q <+: path) : run.files.look q = real.look q :=
  FsTree.Covered.look h.covered fun _ hplace hpre => hplace.2.1 (hpre.trans hq)

theorem Turn.live (h : Turn real tree node path run) : Straight run.files path := by
  intro q hq text
  rw [h.look hq]
  exact h.straight q hq text

theorem Turn.stat (h : Turn real tree node path run) (halias : Unaliased real tree) {rest : Names}
    (hreach : Reaches node rest n) :
    stat run.files (path ++ rest) = stat real (path ++ rest) :=
  halias _ n (h.reaches rest n hreach) _
    (FsTree.Covered.mono h.covered fun _ hplace => ⟨hplace.1, hplace.2.below rest⟩)

/-- The directory is in place, so its need is that found before anything was mounted. -/
theorem Turn.needs (h : Turn real tree node path run) (hdir : real.find path = some (.dir entries)) :
    needsOwnTmpfs node run.files path false = .ok (isRebuilt real node path) := by
  have hlive : run.files.find path = some (.dir entries) := h.find.trans hdir
  have hsame : childNeedsTmpfs (realTree run.files) path node = childNeedsTmpfs (realTree real)
      path node := by
    have hchild : ∀ (name : String) (fileType : NodeFileType),
        needsTmpfs (realTree run.files) (path ++ [name]) fileType = needsTmpfs (realTree real)
          (path ++ [name]) fileType :=
      fun name fileType => needsTmpfs_congr
        ((metadata_child h.live hlive).trans (metadata_child h.straight hdir).symm)
    unfold childNeedsTmpfs
    simp only [hchild]
  have hexists : (realTree run.files).pathExists path = true := by
    have hstat : FsTree.stat linkSteps run.files path = .ok (.dir entries) := FsTree.stat_found h.live hlive
    change (FsTree.stat linkSteps run.files path).isOk = true
    rw [hstat]
    rfl
  unfold needsOwnTmpfs isRebuilt
  rw [hsame, hexists]
  cases replaces node with
  | true => rfl
  | false =>
    cases childNeedsTmpfs (realTree real) path node with
    | true => simp
    | false => rfl

end Turns

section Leaves

theorem mountRegularFile_shows (h : Turn real tree node path run)
    (htype : MountNode.fileTypeFor node .magic = some .regularFile)
    {content : String} (hfind : real.find path = some (.file content)) :
    Ends (mountRegularFile setting node path false run) (fun r => Shows setting real node path run r.1)
      (¬ AllStand real node path) := by
  obtain ⟨source, hsource⟩ := sourceFor_of_type htype (by decide)
  have hnot : MountNode.fileTypeFor node .magic ≠ some .directory := by simp [htype]
  have hlive : run.files.find path = some (.file content) := h.find.trans hfind
  have hresolve : FsTree.resolve linkSteps run.files path = .ok path := FsTree.resolve_found h.live hlive
  unfold mountRegularFile
  simp only [modulePathFor_own hsource, hresolve, hlive, Bool.false_eq_true, if_false]
  refine Ends.ok ⟨FsTree.Covered.mount _ .refl (.file htype), fun rest => ?_, allStand_of_type hnot, ?_,
    fun place hplace => ?_⟩
  · change seen ((run.files.mount path (.file (setting.content (modulePath node)))).find (path ++ rest)) = _
    rw [FsTree.find_mount_self hlive]
    cases rest with
    | nil => simp [merged, ownEntry, htype, seen, FsTree.shown]
    | cons name rest =>
      rw [merged_of_type hnot]
      rfl
  · rw [activeMounts_boundFile]
    exact List.subset_append_left _ _
  · rw [activeMounts_boundFile]
    cases hplace with
    | file htype' => exact List.mem_append_right _ List.mem_cons_self
    | rebuilt htype' hrebuilt => exact absurd htype' hnot
    | child htype' hkept hchild hrest => exact absurd htype' hnot

theorem whiteout_shows (h : Turn real tree node path run)
    (htype : MountNode.fileTypeFor node .magic = some .whiteout)
    (hfind : real.find path = none) : Shows setting real node path run (run.ignored node) := by
  have hnot : MountNode.fileTypeFor node .magic ≠ some .directory := by simp [htype]
  refine ⟨.refl, fun rest => ?_, allStand_of_type hnot, ?_, fun place hplace => ?_⟩
  · have hnone : (run.ignored node).files.find (path ++ rest) = none := by
      change run.files.find (path ++ rest) = none
      rw [FsTree.find_append, h.find, hfind]
      rfl
    rw [hnone]
    cases rest with
    | nil => simp [merged, ownEntry, htype, seen]
    | cons name rest =>
      rw [merged_of_type hnot]
      rfl
  · simp only [MagicRun.ignored, activeMounts_recordModuleSuccess]
    exact List.Subset.refl _
  · cases hplace with
    | file htype' => simp [htype] at htype'
    | rebuilt htype' hrebuilt => exact absurd htype' hnot
    | child htype' hkept hchild hrest => exact absurd htype' hnot

end Leaves

section Rebuilt

theorem activeMounts_movedDirectory {live : Files} :
    (run.movedDirectory setting node path live).stats.activeMounts = run.stats.activeMounts ++ [path] := by
  simp only [MagicRun.movedDirectory, MagicRun.recordMountTarget, MagicRun.sendUnmountable,
    activeMounts_recordModuleSuccess]

/-- A rebuilt directory shows what was staged for it. -/
theorem rebuilt_shows (hnamed : WellNamed real) (halias : Unaliased real tree)
    (h : Turn real tree node path run)
    (htype : MountNode.fileTypeFor node .magic = some .directory)
    (hdir : real.find path = some (.dir entries))
    (hrebuilt : isRebuilt real node path = true) :
    Ends (mountDirectory setting node (childMounts setting node.children) path false run)
      (fun r => Shows setting real node path run r.1)
      (¬ AllStand real node path) := by
  have hstages : Stages setting real node path run := by
    intro name child hchild run' hfiles
    refine doMount_staged hnamed (ordered_child h.ordered hchild) (fun rest n hreach => ?_)
      (magicChild_mem hchild).2
    have hh := h.stat halias (.child htype hchild hreach)
    rw [hfiles, List.append_assoc]
    exact hh
  have hstat : stat run.files path = stat real path := by
    have hh := h.stat halias (.here htype)
    rw [List.append_nil] at hh
    exact hh
  unfold mountDirectory
  rw [h.needs hdir, hrebuilt]
  refine Ends.bind (R := fun tmpfs => tmpfs = true) (Ends.ok rfl) fun tmpfs htmpfs => ?_
  subst htmpfs
  simp only [Bool.false_eq_true, if_false, if_true]
  refine Ends.bind (stageDirectory_staged h.ordered hnamed htype hstages hstat) fun progress hstaged => ?_
  have hlive : progress.run.files.find path = some (.dir entries) := by rw [hstaged.files, h.find, hdir]
  have hresolve : FsTree.resolve linkSteps progress.run.files path = .ok path := by
    rw [hstaged.files]
    exact FsTree.resolve_found h.live (h.find.trans hdir)
  have hmove : moveOver setting progress.run.files path (.dir progress.staged) =
      .ok (progress.run.files.mount path (.dir progress.staged)) := by
    unfold moveOver
    simp only [hresolve, hlive, h.root hrebuilt, if_false]
  rw [hmove]
  refine Ends.ok ⟨?_, fun rest => ?_, hstaged.stands, ?_, fun place hplace => ?_⟩
  · have hcover : FsTree.Covered (Covers real node path) progress.run.files
        (progress.run.files.mount path (.dir progress.staged)) :=
      .mount _ .refl (.rebuilt htype hrebuilt)
    rw [← hstaged.files]
    exact hcover
  · have hfind : (progress.run.files.mount path (.dir progress.staged)).find (path ++ rest) =
        (FsTree.dir progress.staged : Files).find rest :=
      FsTree.find_mount_self hlive
    have hshows := hstaged.shows rest
    rw [Option.bind_some, ← hfind] at hshows
    exact hshows
  · rw [activeMounts_movedDirectory]
    exact List.Subset.trans hstaged.grows (List.subset_append_left _ _)
  · rw [activeMounts_movedDirectory]
    cases hplace with
    | file htype' => exact List.mem_append_right _ List.mem_cons_self
    | rebuilt htype' hrebuilt' => exact List.mem_append_right _ List.mem_cons_self
    | child htype' hkept hchild hrest =>
      rw [hrebuilt] at hkept
      cases hkept

end Rebuilt

section Kept

/-- What has been mounted for the names of a directory which is used in place. -/
structure Done (setting : Setting) (real : Files) (node : MountNode) (path : Names) (run : MagicRun)
    (names : List String)
    (progress : Progress) : Prop where
  covered : FsTree.Covered (fun place => ∃ name child, name ∈ names ∧ magicChild node name = some child ∧
    Covers real child (path ++ [name]) place) run.files progress.run.files
  grows : run.stats.activeMounts ⊆ progress.run.stats.activeMounts
  shows : ∀ name child, name ∈ names → magicChild node name = some child → ∀ rest,
    seen (progress.run.files.find (path ++ name :: rest)) = merged setting real child (path ++ [name]) rest
  stands : ∀ name child, name ∈ names → magicChild node name = some child →
    AllStand real child (path ++ [name])
  active : ∀ name child, name ∈ names → magicChild node name = some child →
    ∀ place, Covers real child (path ++ [name]) place →
    place ∈ progress.run.stats.activeMounts

variable {progress : Progress} {names : List String}

theorem fits_of_kept (hs : Straight real path) (hdir : real.find path = some (.dir entries))
    (hkept : isRebuilt real node path = false)
    (hchild : magicChild node name = some child) : Fits real child (path ++ [name]) := by
  obtain ⟨hmem, hmagic⟩ := magicChild_mem hchild
  obtain ⟨fileType, htype⟩ := typed_of_hasBackend hmagic
  refine fits_child hs hdir htype ?_
  have hnone : childNeedsTmpfs (realTree real) path node = false := (Bool.or_eq_false_iff.mp hkept).2
  rw [childNeedsTmpfs, List.any_eq_false] at hnone
  have hh := hnone _ hmem
  simpa [htype, hmagic] using hh

theorem straight_child (hs : Straight real path) (hfits : Fits real child (path ++ [name])) :
    Straight real (path ++ [name]) := by
  intro q hq text
  rcases List.prefix_concat_iff.mp hq with rfl | habove
  · rw [FsTree.look]
    cases hfits with
    | file content htype hfind => simp [hfind, FsTree.shown]
    | directory entries htype hfind => simp [hfind, FsTree.shown]
    | absent htype hfind => simp [hfind]
  · exact hs q habove text

theorem Done.turn (hdone : Done setting real node path run names progress) (h : Turn real tree node path run)
    (htype : MountNode.fileTypeFor node .magic = some .directory) (hkept : isRebuilt real node path = false)
    (hdir : real.find path = some (.dir entries)) (hchild : magicChild node name = some child)
    (hname : name ∉ names) :
    Turn real tree child (path ++ [name]) progress.run where
  ordered := ordered_child h.ordered hchild
  reaches rest n hreach := by
    rw [List.append_assoc]
    exact h.reaches (name :: rest) n (.child htype hchild hreach)
  covers place hplace := h.covers place (.child htype hkept hchild hplace)
  straight := straight_child h.straight (fits_of_kept h.straight hdir hkept hchild)
  fits := fits_of_kept h.straight hdir hkept hchild
  root _ := by simp
  covered := by
    refine FsTree.Covered.trans
      (FsTree.Covered.mono h.covered fun place hplace => ⟨hplace.1, hplace.2.below [name]⟩)
      (FsTree.Covered.mono hdone.covered fun place hplace => ?_)
    obtain ⟨name', child', hname', hchild', hcover⟩ := hplace
    have hne : name' ≠ name := fun heq => hname (heq ▸ hname')
    exact ⟨h.covers place (.child htype hkept hchild' hcover),
      FsTree.apart_siblings hne (covers_below hcover) []⟩

theorem Done.step (hdone : Done setting real node path run names progress)
    (hchild : magicChild node name = some child) (hname : name ∉ names)
    (hshows : Shows setting real child (path ++ [name]) progress.run run') {staged : List (String × Files)}
    {processed : List String} :
    Done setting real node path run (names ++ [name]) ⟨run', staged, processed⟩ := by
  have hnew : ∀ key other, key ∈ names ++ [name] → magicChild node key = some other → key ∉ names →
      key = name ∧ other = child := by
    intro key other hkey hother hold
    obtain rfl := List.mem_singleton.mp ((List.mem_append.mp hkey).resolve_left hold)
    rw [hchild] at hother
    cases hother
    exact ⟨rfl, rfl⟩
  refine ⟨?_, List.Subset.trans hdone.grows hshows.grows, fun key other hkey hother rest => ?_,
    fun key other hkey hother => ?_,
    fun key other hkey hother place hplace => ?_⟩
  · refine FsTree.Covered.trans (FsTree.Covered.mono hdone.covered fun place hplace => ?_)
      (FsTree.Covered.mono hshows.covered fun place hplace =>
        ⟨name, child, List.mem_append_right _ List.mem_cons_self, hchild, hplace⟩)
    obtain ⟨key, other, hkey, hother, hcover⟩ := hplace
    exact ⟨key, other, List.mem_append_left _ hkey, hother, hcover⟩
  · by_cases hold : key ∈ names
    · have hsame : run'.files.find (path ++ key :: rest) = progress.run.files.find (path ++ key :: rest) :=
        FsTree.Covered.find hshows.covered fun place hplace =>
          FsTree.apart_siblings (fun heq : name = key => hname (heq ▸ hold)) (covers_below hplace) rest
      change seen (run'.files.find (path ++ key :: rest)) = _
      rw [hsame]
      exact hdone.shows key other hold hother rest
    · obtain ⟨rfl, rfl⟩ := hnew key other hkey hother hold
      have hh := hshows.shows rest
      rw [List.append_assoc] at hh
      exact hh
  · by_cases hold : key ∈ names
    · exact hdone.stands key other hold hother
    · obtain ⟨rfl, rfl⟩ := hnew key other hkey hother hold
      exact hshows.stands
  · by_cases hold : key ∈ names
    · exact hshows.grows (hdone.active key other hold hother place hplace)
    · obtain ⟨rfl, rfl⟩ := hnew key other hkey hother hold
      exact hshows.active place hplace

theorem merged_nil : merged setting real node path [] = ownEntry setting node := by rw [merged]

theorem done_nil : Done setting real node path run [] ⟨run, [], []⟩ :=
  ⟨.refl, List.Subset.refl _, fun _ _ hmem => absurd hmem List.not_mem_nil,
    fun _ _ hmem => absurd hmem List.not_mem_nil,
    fun _ _ hmem => absurd hmem List.not_mem_nil⟩

/-- A real entry which Magic has nothing at stays as it is. -/
theorem Done.other (hdone : Done setting real node path run names progress)
    (hnone : magicChild node name = none) :
    Done setting real node path run (names ++ [name]) progress := by
  have hold : ∀ key child, key ∈ names ++ [name] → magicChild node key = some child → key ∈ names := by
    intro key child hkey hsome
    refine (List.mem_append.mp hkey).resolve_right fun hlast => ?_
    rw [List.mem_singleton.mp hlast, hnone] at hsome
    cases hsome
  refine ⟨FsTree.Covered.mono hdone.covered fun place hplace => ?_, hdone.grows,
    fun key child hkey hsome => ?_,
    fun key child hkey hsome => ?_, fun key child hkey hsome => ?_⟩
  · obtain ⟨key, child, hkey, hsome, hcover⟩ := hplace
    exact ⟨key, child, List.mem_append_left _ hkey, hsome, hcover⟩
  · exact hdone.shows key child (hold key child hkey hsome) hsome
  · exact hdone.stands key child (hold key child hkey hsome) hsome
  · exact hdone.active key child (hold key child hkey hsome) hsome

theorem Done.below (hdone : Done setting real node path run names progress)
    (htype : MountNode.fileTypeFor node .magic = some .directory)
    (hkept : isRebuilt real node path = false) :
    FsTree.Covered (fun place => Covers real node path place ∧ ∃ name, magicChild node name ≠ none ∧
      path ++ [name] <+: place)
      run.files progress.run.files := by
  refine FsTree.Covered.mono hdone.covered fun place hplace => ?_
  obtain ⟨name, child, -, hchild, hcover⟩ := hplace
  exact ⟨.child htype hkept hchild hcover, name, by simp [hchild], covers_below hcover⟩

theorem Done.look_kept (hdone : Done setting real node path run names progress)
    (h : Turn real tree node path run)
    (htype : MountNode.fileTypeFor node .magic = some .directory) (hkept : isRebuilt real node path = false)
    (hdir : real.find path = some (.dir entries)) : progress.run.files.look path = some .directory := by
  have hlook : progress.run.files.look path = run.files.look path :=
    FsTree.Covered.look (hdone.below htype hkept) fun place hplace hpre => by
      obtain ⟨-, name, -, hplace⟩ := hplace
      have hlength := (hplace.trans hpre).length_le
      simp at hlength
  rw [hlook, FsTree.look, h.find, hdir]
  rfl

theorem Done.find_other (hdone : Done setting real node path run names progress)
    (htype : MountNode.fileTypeFor node .magic = some .directory)
    (hkept : isRebuilt real node path = false) (hnone : magicChild node name = none) (rest : Names) :
    progress.run.files.find (path ++ name :: rest) = run.files.find (path ++ name :: rest) :=
  FsTree.Covered.find (hdone.below htype hkept) fun place hplace => by
    obtain ⟨-, key, hkey, hpre⟩ := hplace
    exact FsTree.apart_siblings (fun heq : key = name => hkey (heq ▸ hnone)) hpre rest

theorem replaceFor_of_kept (hkept : isRebuilt real node path = false) :
    node.value.replaceFor .magic = false := by
  rw [← replaces_eq]
  exact (Bool.or_eq_false_iff.mp hkept).1

/-- Once all names are handled, the directory shows its children among the real entries. -/
theorem Done.complete (hdone : Done setting real node path run names progress)
    (h : Turn real tree node path run)
    (htype : MountNode.fileTypeFor node .magic = some .directory) (hkept : isRebuilt real node path = false)
    (hdir : real.find path = some (.dir entries))
    (hall : ∀ name child, magicChild node name = some child → name ∈ names) :
    Shows setting real node path run progress.run := by
  have hstat : FsTree.stat linkSteps real path = .ok (.dir entries) := FsTree.stat_found h.straight hdir
  refine ⟨FsTree.Covered.mono (hdone.below htype hkept) fun place hplace => hplace.1, fun rest => ?_, ?_,
    hdone.grows, fun place hplace => ?_⟩
  · cases rest with
    | nil =>
      have hshown : (progress.run.files.find path).map FsTree.shown = some .directory :=
        hdone.look_kept h htype hkept hdir
      rw [List.append_nil, merged_nil, seen, hshown]
      simp [ownEntry, htype]
    | cons name rest =>
      cases hchild : magicChild node name with
      | some child =>
        rw [merged_child htype hchild]
        exact hdone.shows name child (hall name child hchild) hchild rest
      | none =>
        have hlisting : listing real node path = entries := by
          unfold listing stat
          simp [replaceFor_of_kept hkept, hstat]
        rw [hdone.find_other htype hkept hchild, merged_listing htype hchild, hlisting, FsTree.find_append,
          h.find, hdir, Option.bind_some,
          FsTree.find]
  · refine allStand_of (.inl ⟨entries, hstat⟩) fun name child hchild => ?_
    exact hdone.stands name child (hall name child hchild) hchild
  · cases hplace with
    | file htype' =>
      rw [htype] at htype'
      cases htype'
    | rebuilt htype' hrebuilt =>
      rw [hkept] at hrebuilt
      cases hrebuilt
    | child htype' hkept' hchild hrest => exact hdone.active _ _ (hall _ _ hchild) hchild place hrest

theorem takeOver_kept (hstat : FsTree.stat linkSteps run.files path = .ok (.dir entries))
    (hreplace : node.value.replaceFor .magic = false) :
    takeOver setting node (childMounts setting node.children) path false run =
      entries.foldlM (mountEntry setting (childMounts setting node.children) path false) ⟨run, [], []⟩ := by
  have hexists : (realTree run.files).pathExists path = true := by
    change (FsTree.stat linkSteps run.files path).isOk = true
    rw [hstat]
    rfl
  have hmount : mountPath setting (childMounts setting node.children) path false run =
      entries.foldlM (mountEntry setting (childMounts setting node.children) path false) ⟨run, [], []⟩ := by
    unfold mountPath stat
    rw [hstat]
  simp only [takeOver, hexists, hreplace, Bool.not_false, Bool.and_true, if_true, hmount]

/-- A directory which is used in place shows its children among the real entries. -/
theorem kept_shows (hnamed : WellNamed real) (h : Turn real tree node path run)
    (htype : MountNode.fileTypeFor node .magic = some .directory)
    (hdir : real.find path = some (.dir entries))
    (hkept : isRebuilt real node path = false)
    (hchildren : ∀ name child, magicChild node name = some child →
      ∀ run', Turn real tree child (path ++ [name]) run' →
      Ends (doMount setting child (path ++ [name]) false run')
        (fun r => Shows setting real child (path ++ [name]) run' r.1)
        (¬ AllStand real child (path ++ [name]))) :
    Ends (mountDirectory setting node (childMounts setting node.children) path false run)
      (fun r => Shows setting real node path run r.1)
      (¬ AllStand real node path) := by
  have hhandles : Handles setting node path false entries (Done setting real node path run)
      (¬ AllStand real node path) := by
    constructor
    · intro names progress name child hchild hname hdone
      refine (hchildren name child hchild progress.run (hdone.turn h htype hkept hdir hchild hname)).imp ?_
        (child_fails htype hchild)
      exact fun r hshows processed => hdone.step hchild hname hshows
    · intro names progress name entry hmem hchild hname hdone
      exact hdone.other hchild
  have hlive : FsTree.stat linkSteps run.files path = .ok (.dir entries) :=
    FsTree.stat_found h.live (h.find.trans hdir)
  unfold mountDirectory mountEntries
  rw [h.needs hdir, hkept]
  refine Ends.bind (R := fun tmpfs => tmpfs = false) (Ends.ok rfl) fun tmpfs htmpfs => ?_
  subst htmpfs
  simp only [Bool.false_eq_true, if_false]
  rw [takeOver_kept hlive (replaceFor_of_kept hkept), checkReplace_ok]
  refine Ends.bind (R := fun progress => ∃ names, Done setting real node path run names progress ∧
    ∀ name child, magicChild node name = some child → name ∈ names) ?_ fun progress hprogress => ?_
  · refine Ends.bind (hhandles.all (hnamed path entries hdir) done_nil) fun progress hprogress => ?_
    refine (hhandles.missing h.ordered hprogress.1 hprogress.2).imp (fun p hp => ?_) id
    obtain ⟨late, hdone, hall⟩ := hp
    exact ⟨_, hdone, hall⟩
  · obtain ⟨names, hdone, hall⟩ := hprogress
    exact Ends.ok (hdone.complete h htype hkept hdir hall)

end Kept

/-- A node of a directory which is used in place shows its merge, or a directory cannot stand. -/
theorem doMount_shows (hnamed : WellNamed real) (halias : Unaliased real tree)
    (h : Turn real tree node path run) :
    Ends (doMount setting node path false run) (fun r => Shows setting real node path run r.1)
      (¬ AllStand real node path) := by
  induction node using Trie.induct generalizing path run with
  | h node ih =>
    cases h.fits with
    | file content htype hfind =>
      rw [doMount_regularFile htype]
      exact mountRegularFile_shows h htype hfind
    | absent htype hfind =>
      rw [doMount_whiteout htype]
      exact Ends.ok (whiteout_shows h htype hfind)
    | directory entries htype hdir =>
      rw [doMount_directory htype]
      cases hkept : isRebuilt real node path with
      | true => exact rebuilt_shows hnamed halias h htype hdir hkept
      | false =>
        refine kept_shows hnamed h htype hdir hkept fun name child hchild run' hturn => ?_
        exact ih (name, child) (magicChild_mem hchild).1 hturn

/-- A file system as it is found: the root is a directory, and no directory has two entries of one name. -/
structure FoundTree where
  entries : List (String × Files)
  named : WellNamed (.dir entries : Files)

def FoundTree.files (found : FoundTree) : Files := .dir found.entries

section Root

variable {found : FoundTree}

theorem root_typed (h : (visitDirectory (realTree real) .inPlace [] node).2 = .inPlace) :
    MountNode.fileTypeFor node .magic = some .directory := by
  by_contra hnot
  simp [visitDirectory, hnot] at h

theorem root_kept (h : (visitDirectory (realTree real) .inPlace [] node).2 = .inPlace) :
    isRebuilt real node [] = false := by
  have htype := root_typed h
  unfold visitDirectory at h
  rw [isRebuilt, Bool.or_eq_false_iff]
  cases hreplaces : replaces node with
  | true => simp [htype, hreplaces] at h
  | false =>
    cases hchild : childNeedsTmpfs (realTree real) [] node with
    | false => exact ⟨rfl, rfl⟩
    | true =>
      simp only [htype, hreplaces, hchild, reduceCtorEq, ne_eq, not_true_eq_false, or_self, if_false, if_true,
        Bool.false_eq_true] at h
      split at h
      · cases h
      · cases h

theorem turn_root (hordered : node.Ordered compare)
    (htype : MountNode.fileTypeFor node .magic = some .directory)
    (hkept : isRebuilt found.files node [] = false) :
    Turn found.files node node [] { files := found.files } := by
  refine ⟨hordered, fun _ _ h => h, fun _ h => h, ?_,
    .directory found.entries htype FsTree.find_nil, ?_, .refl⟩
  · intro q hq text hlook
    rw [List.prefix_nil.mp hq] at hlook
    cases hlook
  · intro hrebuilt
    rw [hkept] at hrebuilt
    cases hrebuilt

end Root

/-- If the root can be used in place, a run succeeds just where the directories of Magic can stand, and
then the declared merge is seen. Outside of the mounts which it reports nothing changes. -/
theorem magic_mount_merges {input : PlanInput} {plan : MountPlan} {found : FoundTree}
    (hplan : buildPlan input = .ok plan)
    (hroot : (visitDirectory (realTree found.files) .inPlace [] plan.tree).2 = .inPlace)
    (halias : Unaliased found.files plan.tree) :
    ((∃ run, magicMount setting plan.tree found.files = .ok run) ↔ ∀ path n, Reaches plan.tree path n →
      Stands found.files n path) ∧
      ∀ run, magicMount setting plan.tree found.files = .ok run →
        (∀ path, seen (run.files.find path) = merged setting found.files plan.tree [] path) ∧
          FsTree.Covered (fun place => place ∈ run.stats.activeMounts) found.files run.files := by
  obtain ⟨builder, hfinished⟩ := buildPlan_finished hplan
  have hordered : plan.tree.Ordered compare := hfinished.tree ▸ ordered_plan_tree hfinished.modules
  have htype := root_typed hroot
  have hturn : Turn found.files plan.tree plan.tree [] { files := found.files } :=
    turn_root hordered htype (root_kept hroot)
  have hends : Ends (magicMount setting plan.tree found.files)
      (fun run => ((∀ path, seen (run.files.find path) = merged setting found.files plan.tree [] path) ∧
        FsTree.Covered (fun place => place ∈ run.stats.activeMounts) found.files run.files) ∧
          AllStand found.files plan.tree [])
      (¬ AllStand found.files plan.tree []) := by
    unfold magicMount
    rw [if_pos (hasBackend_of_typed htype)]
    refine Ends.bind (doMount_shows found.named halias hturn) fun r hshows =>
      Ends.ok ⟨⟨hshows.shows, ?_⟩, hshows.stands⟩
    exact FsTree.Covered.mono hshows.covered fun place hplace =>
      Pipeline.mem_sortDedup.mpr (hshows.active place hplace)
  exact ⟨hends.succeeds_iff, fun run hok => (hends.of_ok hok).1⟩

/-- A module with a new font and another version of an old one. -/
def fontsInput : PlanInput where
  modules := [{ id := "fonts", sourcePath := ["modules", "fonts"], entries :=
    [⟨["system", "fonts"], .directory, false, none, false, none⟩,
      ⟨["system", "fonts", "New.ttf"], .regularFile, false, none, false, none⟩,
      ⟨["system", "fonts", "Old.ttf"], .regularFile, false, none, false, none⟩] }]
  config := { defaultMode := .magic, rules := [], moduleBlacklist := [] }
  layout := { roots := [("system", ["system"])], errors := [], mountPoints := [] }
  vfsAvailable := false

def fontsSetting : Setting :=
  ⟨fun path => String.intercalate "/" path, fun _ => "", fun _ => false, ["mnt", "work"], true⟩

def fontsFound : FoundTree where
  entries := [("system", .dir [("fonts", .dir [("Old.ttf", .file "old"), ("Kept.ttf", .file "kept")]),
    ("etc", .dir [])])]
  named := FsTree.wellNamed_of_every (by decide)

theorem magic_mount_merges_fonts : ∃ plan, buildPlan fontsInput = .ok plan ∧ ∃ run,
    magicMount fontsSetting plan.tree fontsFound.files = .ok run ∧
      seen (run.files.find ["system", "fonts", "New.ttf"]) =
        some (.file "modules/fonts/system/fonts/New.ttf") ∧
        seen (run.files.find ["system", "fonts", "Kept.ttf"]) = some (.file "kept") := by
  obtain ⟨plan, hplan, hview⟩ := @buildPlan_of_view _ fontsInput
    (fun plan => ((visitDirectory (realTree fontsFound.files) .inPlace [] plan.tree).2,
      (magicMount fontsSetting plan.tree fontsFound.files).toOption.isSome,
      merged fontsSetting fontsFound.files plan.tree [] ["system", "fonts", "New.ttf"],
      merged fontsSetting fontsFound.files plan.tree [] ["system", "fonts", "Kept.ttf"]))
    (.inPlace, true, some (.file "modules/fonts/system/fonts/New.ttf"), some (.file "kept"))
    (by decide +kernel)
  simp only [Prod.mk.injEq] at hview
  obtain ⟨hroot, hok, hnew, hkept⟩ := hview
  obtain ⟨run, hrun⟩ := Option.isSome_iff_exists.mp hok
  have halias : Unaliased fontsFound.files plan.tree := unaliased_of_straight fun _ _ _ =>
    FsTree.straight_of_every (by decide)
  have hmerges := (magic_mount_merges hplan hroot halias).2 run (ok_of_toOption hrun)
  exact ⟨plan, hplan, run, ok_of_toOption hrun, (hmerges.1 _).trans hnew, (hmerges.1 _).trans hkept⟩

end HybridMount.Plan.Magic
