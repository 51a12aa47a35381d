import HybridMount.MagicEntries

/-! What Magic Mount stages for a directory is the merge declared for it, and it fails just where a
directory cannot stand. -/

namespace HybridMount.Plan.Magic

open Fallible
open FsTree (WellNamed)

/-- What has been staged for a node. -/
structure Staged (setting : Setting) (real : Files) (node : MountNode) (path : Names) (run run' : MagicRun)
    (made : Option Files) :
    Prop where
  files : run'.files = run.files
  grows : run.stats.activeMounts ⊆ run'.stats.activeMounts
  shows : ∀ rest, seen (made.bind fun entry => entry.find rest) = merged setting real node path rest
  stands : AllStand real node path

/-- What has been staged for the names of a directory. -/
structure Filled (setting : Setting) (real : Files) (node : MountNode) (path : Names) (run : MagicRun)
    (names : List String)
    (progress : Progress) : Prop where
  files : progress.run.files = run.files
  grows : run.stats.activeMounts ⊆ progress.run.stats.activeMounts
  shows : ∀ name ∈ names, ∀ rest, seen ((progress.staged.lookup name).bind fun entry => entry.find rest) =
    merged setting real node path (name :: rest)
  stands : ∀ name ∈ names, ∀ child, magicChild node name = some child → AllStand real child (path ++ [name])
  fresh : ∀ name, name ∉ names → progress.staged.lookup name = none

variable {setting : Setting} {real : Files} {node child : MountNode} {path : Names} {name key : String}
  {entries : List (String × Files)}
  {entry : Files} {made : Option Files} {run run' : MagicRun} {progress : Progress}
    {names processed : List String}

theorem lookup_stage : (progress.stage name made).staged.lookup key = (progress.staged.lookup key).or
      (if key = name then made else none) := by
  rw [Progress.stage, List.lookup_append]
  congr 1
  cases made with
  | none => simp
  | some entry =>
    by_cases hkey : key = name
    · simp [hkey]
    · have hbeq : (key == name) = false := by simpa using hkey
      simp [List.lookup_cons, hbeq, hkey]

theorem Filled.stage (h : Filled setting real node path run names progress) (hname : name ∉ names)
    (hfiles : run'.files = progress.run.files)
    (hgrows : progress.run.stats.activeMounts ⊆ run'.stats.activeMounts)
    (hshows : ∀ rest, seen (made.bind fun entry => entry.find rest) = merged setting real node path
      (name :: rest))
    (hstands : ∀ child, magicChild node name = some child → AllStand real child (path ++ [name])) :
    Filled setting real node path run (names ++ [name])
      (Progress.stage ⟨run', progress.staged, processed⟩ name made) := by
  have hlookup : ∀ key, (Progress.stage ⟨run', progress.staged, processed⟩ name made).staged.lookup key =
      (progress.staged.lookup key).or (if key = name then made else none) := fun key => lookup_stage
  refine ⟨hfiles.trans h.files, List.Subset.trans h.grows hgrows, fun key hkey rest => ?_,
    fun key hkey child hchild => ?_, fun key hkey => ?_⟩
  · rw [hlookup]
    rcases List.mem_append.mp hkey with hold | hnew
    · have hne : key ≠ name := fun heq => hname (heq ▸ hold)
      rw [if_neg hne, Option.or_none]
      exact h.shows key hold rest
    · obtain rfl := List.mem_singleton.mp hnew
      rw [h.fresh _ hname, if_pos rfl, Option.none_or]
      exact hshows rest
  · rcases List.mem_append.mp hkey with hold | hnew
    · exact h.stands key hold child hchild
    · obtain rfl := List.mem_singleton.mp hnew
      exact hstands child hchild
  · rw [hlookup, h.fresh key fun hold => hkey (List.mem_append_left _ hold), Option.none_or]
    exact if_neg fun heq => hkey (List.mem_append_right _ (List.mem_singleton.mpr heq))

section Leaves

theorem activeMounts_recordModuleSuccess {stats : MagicMountStats} :
    (recordModuleSuccess node stats).activeMounts = stats.activeMounts := by
  unfold recordModuleSuccess
  cases node.value.sourceFor .magic with
  | none => rfl
  | some source => rfl

theorem activeMounts_boundFile {target : Names} {hasTmpfs : Bool} :
    (run.boundFile setting node path target hasTmpfs).stats.activeMounts = run.stats.activeMounts ++ [path] := by
  simp only [MagicRun.boundFile, MagicRun.recordMountTarget, activeMounts_recordModuleSuccess]
  rfl

theorem mountRegularFile_staged (htype : MountNode.fileTypeFor node .magic = some .regularFile) :
    Ends (mountRegularFile setting node path true run) (fun r => Staged setting real node path run r.1 r.2)
      (¬ AllStand real node path) := by
  obtain ⟨source, hsource⟩ := sourceFor_of_type htype (by decide)
  have hnot : MountNode.fileTypeFor node .magic ≠ some .directory := by simp [htype]
  unfold mountRegularFile
  rw [modulePathFor_own hsource]
  refine Ends.ok ⟨rfl, ?_, fun rest => ?_, allStand_of_type hnot⟩
  · rw [activeMounts_boundFile]
    exact List.subset_append_left _ _
  · cases rest with
    | nil => simp [merged, ownEntry, htype, seen, FsTree.shown]
    | cons name rest =>
      rw [merged_of_type hnot]
      rfl

theorem mountSymlink_staged (htype : MountNode.fileTypeFor node .magic = some .symlink) :
    Ends (mountSymlink setting node path true run) (fun r => Staged setting real node path run r.1 r.2)
      (¬ AllStand real node path) := by
  obtain ⟨source, hsource⟩ := sourceFor_of_type htype (by decide)
  have hnot : MountNode.fileTypeFor node .magic ≠ some .directory := by simp [htype]
  unfold mountSymlink
  rw [modulePathFor_own hsource]
  refine Ends.ok ⟨rfl, ?_, fun rest => ?_, allStand_of_type hnot⟩
  · simp only [activeMounts_recordModuleSuccess]
    exact List.Subset.refl _
  · cases rest with
    | nil => simp [merged, ownEntry, htype, seen, FsTree.shown]
    | cons name rest =>
      rw [merged_of_type hnot]
      rfl

end Leaves

section Directories

/-- A child is staged, or a directory in it cannot stand. -/
def Stages (setting : Setting) (real : Files) (node : MountNode) (path : Names) (run : MagicRun) : Prop :=
  ∀ name child, magicChild node name = some child → ∀ run', run'.files = run.files →
    Ends (doMount setting child (path ++ [name]) true run')
      (fun r => Staged setting real child (path ++ [name]) run' r.1 r.2)
      (¬ AllStand real child (path ++ [name]))

theorem child_fails (htype : MountNode.fileTypeFor node .magic = some .directory)
    (hchild : magicChild node name = some child)
    (h : ¬ AllStand real child (path ++ [name])) : ¬ AllStand real node path :=
    fun hall => h (reaches_below hchild htype hall)

theorem filled_handles (hnamed : WellNamed real) (htype : MountNode.fileTypeFor node .magic = some .directory)
    (hstages : Stages setting real node path run) :
    Handles setting node path true (listing real node path) (Filled setting real node path run)
      (¬ AllStand real node path) where
  child names progress name child hchild hname h := by
    refine (hstages name child hchild progress.run h.files).imp (fun r hstaged processed => ?_)
      (child_fails htype hchild)
    refine h.stage hname hstaged.files hstaged.grows (fun rest => ?_) fun child' hsome => ?_
    · rw [merged_child htype hchild]
      exact hstaged.shows rest
    · rw [hchild] at hsome
      cases hsome
      exact hstaged.stands
  other names progress name entry hmem hchild hname h := by
    have hlisted : ((listing real node path).map Prod.fst).Nodup ∧
        ∀ name entry, (name, entry) ∈ listing real node path → WellNamed entry :=
      listing_named hnamed
    refine h.stage hname rfl (List.Subset.refl _) (fun rest => ?_) fun child hsome => ?_
    · rw [merged_listing htype hchild, FsTree.lookup_of_mem hlisted.1 hmem]
      exact seen_mirror (hlisted.2 name entry hmem)
    · rw [hchild] at hsome
      cases hsome

theorem stands_of_all (htype : MountNode.fileTypeFor node .magic = some .directory)
    (h : AllStand real node path) : Stands real node path := by
  have hh := h [] node (.here htype)
  rw [List.append_nil] at hh
  exact hh

theorem skeleton_stands (htype : MountNode.fileTypeFor node .magic = some .directory)
    (hstat : stat run.files path = stat real path) :
    Ends (tmpfsSkeleton run.files path node)
      (fun _ => (∃ entry, stat real path = .ok entry) ∨
        (stat real path = .error .notFound ∧ node.value.modulePathFor .magic ≠ none))
      (¬ AllStand real node path) := by
  have hfails : ¬ Stands real node path → ¬ AllStand real node path :=
    fun h hall => h (stands_of_all htype hall)
  unfold tmpfsSkeleton
  rw [hstat]
  cases hreal : stat real path with
  | ok entry => exact Ends.ok (.inl ⟨entry, rfl⟩)
  | error e =>
    cases e with
    | notFound =>
      cases hmodule : node.value.modulePathFor .magic with
      | none => exact Ends.error (hfails (by simp [Stands, hreal, hmodule]))
      | some modulePath => exact Ends.ok (.inr ⟨rfl, by simp⟩)
    | notDirectory => exact Ends.error (hfails (by simp [Stands, hreal]))
    | loop => exact Ends.error (hfails (by simp [Stands, hreal]))

/-- The names of the real directory are staged, the others are left. -/
structure TakenOver (setting : Setting) (real : Files) (node : MountNode) (path : Names) (run : MagicRun)
    (progress : Progress) : Prop where
  stands : Stands real node path
  filled : Filled setting real node path run ((listing real node path).map Prod.fst) progress
  processed : Processed node ((listing real node path).map Prod.fst) progress

theorem filled_nil : Filled setting real node path run [] ⟨run, [], []⟩ :=
  ⟨rfl, List.Subset.refl _, fun _ h => absurd h List.not_mem_nil, fun _ h => absurd h List.not_mem_nil,
    fun _ _ => rfl⟩

theorem takenOver_nil (hstands : Stands real node path) (hnone : listing real node path = []) :
    TakenOver setting real node path run ⟨run, [], []⟩ := by
  refine ⟨hstands, ?_, fun key => ?_⟩
  · rw [hnone]
    exact filled_nil
  · simp [hnone]

theorem mountPath_staged (hnamed : WellNamed real)
    (htype : MountNode.fileTypeFor node .magic = some .directory)
    (hstages : Stages setting real node path run) (hstat : stat run.files path = stat real path)
    (hkept : node.value.replaceFor .magic = false)
    (hthere : ∃ entry, stat real path = .ok entry) :
    Ends (mountPath setting (childMounts setting node.children) path true run)
      (TakenOver setting real node path run)
      (¬ AllStand real node path) := by
  obtain ⟨above, habove⟩ := hthere
  have hfails : (∀ entries, above ≠ .dir entries) → ¬ AllStand real node path := by
    intro hnot hall
    rcases stands_of_all htype hall with ⟨entries, hdir⟩ | ⟨hreplace, -⟩ | ⟨hnone, -⟩
    · rw [habove] at hdir
      cases hdir
      exact hnot entries rfl
    · rw [hkept] at hreplace
      cases hreplace
    · rw [habove] at hnone
      cases hnone
  unfold mountPath
  rw [hstat, habove]
  cases above with
  | dir entries =>
    have hlisting : listing real node path = entries := by simp [listing, hkept, habove]
    have hhandles : Handles setting node path true entries (Filled setting real node path run)
        (¬ AllStand real node path) :=
      hlisting ▸ filled_handles hnamed htype hstages
    have hnodup : (entries.map Prod.fst).Nodup := hlisting ▸ (listing_named hnamed).1
    refine (hhandles.all hnodup filled_nil).imp (fun p hp => ?_) id
    rw [← hlisting] at hp
    exact ⟨.inl ⟨entries, habove⟩, hp.1, hp.2⟩
  | file content => exact Ends.error (hfails fun _ h => by cases h)
  | symlink text => exact Ends.error (hfails fun _ h => by cases h)
  | special => exact Ends.error (hfails fun _ h => by cases h)

theorem takeOver_staged (hnamed : WellNamed real)
    (htype : MountNode.fileTypeFor node .magic = some .directory)
    (hstages : Stages setting real node path run) (hstat : stat run.files path = stat real path)
    (hskeleton : (∃ entry, stat real path = .ok entry) ∨
      (stat real path = .error .notFound ∧ node.value.modulePathFor .magic ≠ none)) :
    Ends (takeOver setting node (childMounts setting node.children) path true run)
      (TakenOver setting real node path run)
      (¬ AllStand real node path) := by
  unfold takeOver
  have hexists : (realTree run.files).pathExists path = (stat real path).isOk := by rw [← hstat]; rfl
  rw [hexists]
  rcases hskeleton with ⟨entry, hentry⟩ | ⟨hnone, hmodule⟩
  · cases hreplace : node.value.replaceFor .magic with
    | false =>
      simp only [hentry, Except.isOk, Except.toBool, Bool.not_false, Bool.and_true, if_true]
      exact mountPath_staged hnamed htype hstages hstat hreplace ⟨entry, hentry⟩
    | true =>
      simp only [Bool.not_true, Bool.and_false, Bool.false_eq_true, if_false]
      exact Ends.ok (takenOver_nil (.inr (.inl ⟨hreplace, entry, hentry⟩)) (by simp [listing, hreplace]))
  · simp only [hnone, Except.isOk, Except.toBool, Bool.false_and, Bool.false_eq_true, if_false]
    exact Ends.ok (takenOver_nil (.inr (.inr ⟨hnone, hmodule⟩)) (by simp [listing, hnone]))

theorem checkReplace_ok : checkReplace path node = .ok () := by
  unfold checkReplace
  cases hreplace : node.value.replaceFor .magic with
  | false => rfl
  | true =>
    obtain ⟨modulePath, hmodule⟩ := Option.ne_none_iff_exists'.mp (modulePathFor_of_replace hreplace)
    simp [hmodule]

/-- A staged directory shows the merge of its node. -/
theorem stageDirectory_staged (hordered : node.Ordered compare) (hnamed : WellNamed real)
    (htype : MountNode.fileTypeFor node .magic = some .directory)
    (hstages : Stages setting real node path run)
    (hstat : stat run.files path = stat real path) :
    Ends (stageDirectory setting node (childMounts setting node.children) path run)
      (fun p => Staged setting real node path run p.run (some (.dir p.staged)))
      (¬ AllStand real node path) := by
  unfold stageDirectory mountEntries
  refine Ends.bind (skeleton_stands htype hstat) fun _ hskeleton => ?_
  refine Ends.bind (takeOver_staged hnamed htype hstages hstat hskeleton) fun progress htaken => ?_
  rw [checkReplace_ok]
  refine ((filled_handles hnamed htype hstages).missing hordered htaken.filled htaken.processed).imp
    (fun p hp => ?_) id
  obtain ⟨late, hfilled, hchildren⟩ := hp
  refine ⟨hfilled.files, hfilled.grows, fun rest => ?_, ?_⟩
  · cases rest with
    | nil => simp [merged, ownEntry, htype, seen, FsTree.shown]
    | cons name rest =>
      have hfind : (FsTree.dir p.staged).find (name :: rest) = (p.staged.lookup name).bind
          (FsTree.find rest) := by
        rw [FsTree.find]
      simp only [Option.bind_some, hfind]
      by_cases hname : name ∈ (listing real node path).map Prod.fst ++ late
      · exact hfilled.shows name hname rest
      · have hnone : magicChild node name = none := by
          cases hchild : magicChild node name with
          | none => rfl
          | some child => exact absurd (hchildren name child hchild) hname
        have hout : (listing real node path).lookup name = none := FsTree.lookup_eq_none.mpr fun h =>
          hname (List.mem_append_left _ h)
        rw [merged_listing htype hnone, hout, hfilled.fresh name hname]
  · exact allStand_of htaken.stands fun name child hchild =>
      hfilled.stands name (hchildren name child hchild) child hchild

end Directories

/-- In a staged directory the merge of a node is made, and nothing else. -/
theorem doMount_staged (hnamed : WellNamed real) (hordered : node.Ordered compare)
    (hstat : ∀ rest n, Reaches node rest n → stat run.files (path ++ rest) = stat real (path ++ rest))
    (htyped : MountNode.hasBackend node .magic = true) :
    Ends (doMount setting node path true run) (fun r => Staged setting real node path run r.1 r.2)
      (¬ AllStand real node path) := by
  induction node using Trie.induct generalizing path run with
  | h node ih =>
    obtain ⟨fileType, htype⟩ := typed_of_hasBackend htyped
    have hnot : fileType ≠ .directory → MountNode.fileTypeFor node .magic ≠ some .directory := by
      intro hne hdir
      rw [htype] at hdir
      cases hdir
      exact hne rfl
    cases fileType with
    | regularFile =>
      rw [doMount_regularFile htype]
      exact mountRegularFile_staged htype
    | symlink =>
      rw [doMount_symlink htype]
      exact mountSymlink_staged htype
    | whiteout =>
      rw [doMount_whiteout htype]
      refine Ends.ok ⟨rfl, ?_, fun rest => ?_, allStand_of_type (hnot (by decide))⟩
      · simp only [MagicRun.ignored, activeMounts_recordModuleSuccess]
        exact List.Subset.refl _
      · cases rest with
        | nil => simp [merged, ownEntry, htype, seen]
        | cons name rest =>
          rw [merged_of_type (hnot (by decide))]
          rfl
    | directory =>
      have hhere := hstat [] node (.here htype)
      rw [List.append_nil] at hhere
      have hstages : Stages setting real node path run := by
        intro name child hchild run' hfiles
        obtain ⟨hmem, hmagic⟩ := magicChild_mem hchild
        refine ih _ hmem (ordered_child hordered hchild) (fun rest n hreach => ?_) hmagic
        have hh := hstat (name :: rest) n (.child htype hchild hreach)
        rw [hfiles, List.append_assoc]
        exact hh
      rw [doMount_directory htype]
      unfold mountDirectory needsOwnTmpfs
      simp only [if_true]
      exact Ends.bind (R := fun _ => True) (Ends.ok trivial) fun _ _ =>
        Ends.bind (stageDirectory_staged hordered hnamed htype hstages hhere) fun p hp => Ends.ok hp

end HybridMount.Plan.Magic
