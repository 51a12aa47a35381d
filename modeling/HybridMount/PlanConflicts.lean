import HybridMount.PlanCoverage
import HybridMount.PlanTree

/-! Which contributions an accepted plan may hold side by side. Contributions of different backends
share a target only as plain directories, and a whiteout shares neither its target nor what is below it. -/

namespace HybridMount.Plan

/-- A directory that does not replace what is there. -/
def PlainDirectory (fileType : NodeFileType) (replace : Bool) : Prop := fileType = .directory ∧
    replace = false

def Shareable (left right : TargetAssignment) : Prop :=
  left.mode ≠ right.mode → PlainDirectory left.fileType left.replace ∧
    PlainDirectory right.fileType right.replace

def assigned (builder : PlanBuilder) (target : Names) : List TargetAssignment :=
    (builder.assignments.get target).getD []

def Compatible (builder : PlanBuilder) : Prop := ∀ target, (assigned builder target).Pairwise Shareable

def Recorded (builder : PlanBuilder) (layout : PartitionLayout) (d : EntryDecision) : Prop :=
  ∃ x ∈ assigned builder (layout.targetOf d.entry.relative),
    x.mode = d.mode ∧ x.fileType = d.entry.fileType ∧ x.replace = d.entry.replace

/-- What holds of the active contributions of an accepted plan. -/
structure ConflictFree (input : PlanInput) : Prop where
  backends : ∀ m d m' d', Active input m d → Active input m' d' → input.target d = input.target d' →
    d.mode ≠ d'.mode →
    PlainDirectory d.entry.fileType d.entry.replace ∧ PlainDirectory d'.entry.fileType d'.entry.replace
  /-- Contributions below a file or a symlink come from modules whose directory there is not on
  another backend. -/
  files : ∀ m d m' d' above, Active input m d → Active input m' d' → Active input m' above →
    d.entry.fileType = .regularFile ∨ d.entry.fileType = .symlink → input.target d <+: input.target d' →
      input.target above = input.target d → above.entry.fileType = .directory → above.mode = d.mode
  whiteouts : ∀ m d m' d', Active input m d → Active input m' d' → d.entry.fileType = .whiteout →
    input.target d = input.target d' → d'.entry.fileType = .whiteout
  /-- The tree trims a path, so paths which end in white space are left out. -/
  belowWhiteouts : ∀ m d m' d', Active input m d → Active input m' d' → d.entry.fileType = .whiteout →
    targetComponents (input.target d) = input.target d →
      targetComponents (input.target d') = input.target d' →
      input.target d <+: input.target d' → input.target d = input.target d'

variable {input : PlanInput} {plan : MountPlan} {module m m' : ModuleRecord} {layout : PartitionLayout}
  {builder b b' : PlanBuilder} {chosen : List EntryDecision} {decision d d' : EntryDecision}
    {target relative : Names}

section Registration

variable {mode : Mode} {id : String} {fileType : NodeFileType} {replace : Bool}

instance : Std.Symm Shareable := ⟨fun _ _ h hne => (h hne.symm).symm⟩

theorem shareable_of_not_conflicting {existing new : TargetAssignment}
    (h : (decide (existing.mode ≠ new.mode) &&
      !existing.shareableDirectories new.fileType new.replace) = false) :
    Shareable existing new := by
  intro hne
  simp only [hne, ne_eq, not_false_eq_true, decide_true, Bool.true_and, Bool.not_eq_false',
    TargetAssignment.shareableDirectories, Bool.and_eq_true, decide_eq_true_eq, Bool.not_eq_true'] at h
  exact ⟨⟨h.1.1.1, h.1.2⟩, h.1.1.2, h.2⟩

/-- A registration that succeeds adds one assignment, which agrees with those already there. -/
theorem register_assigned (h : b.register target mode id relative fileType replace = .ok b') :
    ∃ new : TargetAssignment, new.mode = mode ∧ new.fileType = fileType ∧ new.replace = replace ∧
      (∀ existing ∈ assigned b target, Shareable existing new) ∧
      ∀ path, assigned b' path = if path = target then assigned b target ++ [new] else assigned b path := by
  unfold PlanBuilder.register at h
  dsimp only at h
  split at h
  · cases h
  · rename_i hnone
    cases h
    refine ⟨⟨mode, describe id relative (if replace then " (.replace)" else ""), fileType, replace⟩, rfl, rfl,
      rfl, ?_, ?_⟩
    · intro existing hmem
      exact shareable_of_not_conflicting (by simpa using List.find?_eq_none.mp hnone existing hmem)
    · intro path
      simp only [assigned, OrderedMap.Map.get_insert]
      split
      · rfl
      · rfl

theorem compatible_register (h : b.register target mode id relative fileType replace = .ok b')
    (hb : Compatible b) : Compatible b' := by
  obtain ⟨new, -, -, -, hagree, hassigned⟩ := register_assigned h
  intro path
  rw [hassigned]
  split
  · refine List.pairwise_append.mpr ⟨hb target, by simp, ?_⟩
    intro existing hmem x hx
    rw [List.mem_singleton.mp hx]
    exact hagree existing hmem
  · exact hb path

theorem recorded_register (h : b.register target mode id relative fileType replace = .ok b')
    (hd : Recorded b layout d) :
    Recorded b' layout d := by
  obtain ⟨new, -, -, -, -, hassigned⟩ := register_assigned h
  obtain ⟨x, hx, hrest⟩ := hd
  refine ⟨x, ?_, hrest⟩
  rw [hassigned]
  split
  · rename_i heq
    exact List.mem_append_left _ (heq ▸ hx)
  · exact hx

end Registration

/-- The step of one entry. -/
theorem registerDecision_keeps (h : registerDecision module layout b d = .ok b') (hb : Compatible b) :
    Compatible b' ∧ (∀ d', Recorded b layout d' → Recorded b' layout d') ∧
    (d.mode ≠ .ignore → Recorded b' layout d) := by
  obtain ⟨⟨partition, target⟩, hmap, hok⟩ := Fallible.bind_ok h
  obtain ⟨-, -, -, rfl, -⟩ := PartitionLayout.mapTarget_ok hmap
  dsimp only at hok
  split at hok
  · rename_i hignore
    cases hok
    exact ⟨hb, fun _ hd => hd, fun hactive => absurd hignore hactive⟩
  · refine ⟨compatible_register hok hb, fun _ hd => recorded_register hok hd, fun _ => ?_⟩
    obtain ⟨new, hmode, htype, hreplace, -, hassigned⟩ := register_assigned hok
    refine ⟨new, ?_, hmode, htype, hreplace⟩
    rw [hassigned, if_pos rfl]
    simp

/-- The run over the entries of one module. -/
theorem registerDecisions_keep (h : chosen.foldlM (registerDecision module layout) b = .ok b')
    (hb : Compatible b) :
    Compatible b' ∧ (∀ d, Recorded b layout d → Recorded b' layout d) ∧
      ∀ d ∈ chosen, d.mode ≠ .ignore → Recorded b' layout d := by
  refine Fallible.foldlM_invariant
    (fun done now => Compatible now ∧ (∀ d, Recorded b layout d → Recorded now layout d) ∧
    ∀ d ∈ done, d.mode ≠ .ignore → Recorded now layout d) ?_ h ⟨hb, fun _ hd => hd, by simp⟩
  intro done d now next ⟨hnow, hkept, hdone⟩ hstep
  obtain ⟨hnext, hold, hnew⟩ := registerDecision_keeps hstep hnow
  refine ⟨hnext, fun x hx => hold x (hkept x hx), ?_⟩
  intro x hx hactive
  rcases List.mem_append.mp hx with hx | hx
  · exact hold x (hdone x hx hactive)
  · rw [List.mem_singleton.mp hx] at hactive ⊢
    exact hnew hactive

theorem planModules_recorded (h : planModules input = .ok builder) :
    Compatible builder ∧ ∀ m d, Active input m d → Recorded builder input.layout d := by
  suffices hrun : Compatible builder ∧ ∀ m ∈ input.planned, ∀ d ∈ decisions m (input.rulesOf m) input.layout,
      d.mode ≠ .ignore → Recorded builder input.layout d from
    ⟨hrun.1, fun m d hd => hrun.2 m hd.module d hd.decision hd.mode⟩
  refine Fallible.foldlM_invariant (fun done now => Compatible now ∧ ∀ m ∈ done,
    ∀ d ∈ decisions m (input.rulesOf m) input.layout, d.mode ≠ .ignore → Recorded now input.layout d) ?_ h
      ⟨fun _ => .nil, by simp⟩
  intro done m now next ⟨hnow, hdone⟩ hstep
  obtain ⟨start, last, hstart, hlast, hfold⟩ := processModule_registry hstep
  have hassigned : start.assignments = now.assignments := congrArg Prod.snd hstart
  have hassigned' : next.assignments = last.assignments := congrArg Prod.snd hlast
  have hcompatible : Compatible start := fun target => by simpa only [assigned, hassigned] using hnow target
  obtain ⟨hlastOk, hkept, hnew⟩ := registerDecisions_keep hfold hcompatible
  have hrecorded : ∀ d, Recorded last input.layout d → Recorded next input.layout d := by
    intro d hd
    simpa only [Recorded, assigned, hassigned'] using hd
  refine ⟨fun target => by simpa only [assigned, hassigned'] using hlastOk target, ?_⟩
  intro x hx d hd hactive
  rcases List.mem_append.mp hx with hx | hx
  · refine hrecorded d (hkept d ?_)
    simpa only [Recorded, assigned, hassigned] using hdone x hx d hd hactive
  · rw [List.mem_singleton.mp hx] at hd
    exact hrecorded d (hnew d hd hactive)

theorem active_backends (h : planModules input = .ok builder) (hd : Active input m d)
    (hd' : Active input m' d')
    (htarget : input.target d = input.target d') (hmode : d.mode ≠ d'.mode) :
    PlainDirectory d.entry.fileType d.entry.replace ∧ PlainDirectory d'.entry.fileType d'.entry.replace := by
  obtain ⟨hcompatible, hrecorded⟩ := planModules_recorded h
  obtain ⟨x, hx, hxmode, hxtype, hxreplace⟩ := hrecorded m d hd
  obtain ⟨y, hy, hymode, hytype, hyreplace⟩ := hrecorded m' d' hd'
  have hne : x.mode ≠ y.mode := by rwa [hxmode, hymode]
  have hy' : y ∈ assigned builder (input.layout.targetOf d.entry.relative) := by
    rw [show input.layout.targetOf d.entry.relative = input.layout.targetOf d'.entry.relative from htarget]
    exact hy
  have hshare := (hcompatible _).forall hx hy' (fun heq => hne (heq ▸ rfl)) hne
  rwa [hxtype, hxreplace, hytype, hyreplace] at hshare

theorem source_find (h : planModules input = .ok builder) (hd : Active input m d) :
    ∃ node, builder.tree.find compare (targetComponents (input.target d)) = some node ∧
    sourceOf m d ∈ node.value.sources :=
  mem_sourcesAt_find.mp ((mem_plan_tree h).mpr ⟨m, d, hd.toPlanned, rfl, rfl⟩)

/-- An accepted plan holds no conflicting contributions. -/
theorem accepted_conflict_free (h : buildPlan input = .ok plan) : ConflictFree input := by
  obtain ⟨builder, hfinished⟩ := buildPlan_finished h
  have hmodules := hfinished.modules
  have hwhiteout := hfinished.whiteoutExclusive
  refine ⟨?_, ?_, ?_, ?_⟩
  · intro m d m' d' hd hd' htarget hmode
    exact active_backends hmodules hd hd' htarget hmode
  · intro m d m' d' above hd _ habove htype _ htarget _
    by_contra hmode
    have hplain := (active_backends hmodules hd habove htarget.symm fun heq => hmode heq.symm).1.1
    rcases htype with htype | htype
    · rw [htype] at hplain
      cases hplain
    · rw [htype] at hplain
      cases hplain
  · intro m d m' d' hd hd' htype htarget
    obtain ⟨node, hnode, hsource⟩ := source_find hmodules hd
    obtain ⟨node', hnode', hsource'⟩ := source_find hmodules hd'
    rw [← htarget, hnode, Option.some.injEq] at hnode'
    exact (whiteout_exclusive hwhiteout hnode hsource htype hd.mode).1 _ (hnode' ▸ hsource') hd'.mode
  · intro m d m' d' hd hd' htype hplain hplain' hpre
    by_contra hne
    obtain ⟨node, hnode, hsource⟩ := source_find hmodules hd
    obtain ⟨node', hnode', hsource'⟩ := source_find hmodules hd'
    obtain ⟨rest, hrest⟩ := hpre
    have hrest' : rest ≠ [] := by
      intro hnil
      rw [hnil, List.append_nil] at hrest
      exact hne hrest
    rw [hplain] at hnode
    rw [hplain', ← hrest, Trie.find_append, hnode, Option.bind_some] at hnode'
    exact hd'.mode ((whiteout_exclusive hwhiteout hnode hsource htype hd.mode).2 node' rest hnode'
      hrest' _ hsource')

theorem exists_plan (h : (buildPlan input).toOption.isSome = true) : ∃ plan, buildPlan input = .ok plan := by
  obtain ⟨plan, hplan⟩ := Option.isSome_iff_exists.mp h
  obtain ⟨plan, hplan, -⟩ := buildPlan_of_view
    (show (buildPlan input).toOption.map id = some plan by rw [hplan]; rfl)
  exact ⟨plan, hplan⟩

/-- No target carries a directory of one module and something else of another. -/
def DirectoriesApart (input : PlanInput) : Prop :=
  ∀ m d m' d', Active input m d → Active input m' d' → m.id ≠ m'.id → input.target d = input.target d' →
    (d.entry.fileType = .directory ↔ d'.entry.fileType = .directory)

/-- Nothing of another module stands strictly below what is no directory, for the pairs in question. -/
def NothingBelow (input : PlanInput) (pair : EntryDecision → EntryDecision → Prop) : Prop :=
  ∀ m d m' d', Active input m d → Active input m' d' → m.id ≠ m'.id →
    d.entry.fileType ≠ .directory → pair d d' →
    input.target d <+: input.target d' → input.target d = input.target d'

def etcEntry : ModuleEntry := { relative := ["system", "etc"], fileType := .directory }

def namedModule (id : String) (entries : List ModuleEntry) : ModuleRecord :=
  { id, sourcePath := ["modules", id], entries := etcEntry :: entries }

def tools (name : String) (fileType : NodeFileType) : ModuleEntry :=
  { relative := ["system", "etc", name], fileType }

def toolsChild (name : String) : ModuleEntry :=
  { relative := ["system", "etc", name, "x"], fileType := .regularFile }

/-- One module has an entry where the other has a directory with a file in it. -/
def opposed (name : String) (fileType : NodeFileType) (defaultMode : Mode)
    (rules : List (String × ModuleRule)) : PlanInput where
  modules := [namedModule "a" [tools name fileType], namedModule "b" [tools name .directory, toolsChild name]]
  config := { defaultMode, rules, moduleBlacklist := [] }
  layout := { roots := [("system", ["system"])], errors := [], mountPoints := [] }
  vfsAvailable := true

def sameBackend : PlanInput := opposed "tools" .regularFile .overlay []

/-- The directory is ignored, and the file in it goes to another backend. -/
def ignoredDirectory : PlanInput :=
  opposed "tools" .regularFile .magic
    [("b", ⟨none, [("system/etc/tools", .ignore), ("system/etc/tools/x", .overlay)]⟩)]

/-- The name of the whiteout ends in a blank. -/
def blankName : PlanInput :=
  opposed "tools " .whiteout .overlay
    [("b", ⟨none, [("system/etc", .ignore), ("system/etc/tools /x", .overlay)]⟩)]

theorem opposed_scanned (name : String) (fileType : NodeFileType) (mode : Mode)
    (rules : List (String × ModuleRule)) :
    Scanned (opposed name fileType mode rules).modules where
  ids := by simp [opposed, namedModule]
  paths := ⟨["modules"], by simp [opposed, namedModule]⟩
  entries := by simp [opposed, namedModule, etcEntry, tools, toolsChild]

/-- Two backends share a directory, in which two modules delete the same file. -/
def sharedDirectory : PlanInput where
  modules := [namedModule "a" [tools "hosts" .regularFile, tools "tools" .whiteout],
    namedModule "b" [tools "fonts.xml" .regularFile],
    namedModule "c" [tools "tools" .whiteout]]
  config := { defaultMode := .overlay, rules := [("b", ⟨some .magic, []⟩)], moduleBlacklist := [] }
  layout := { roots := [("system", ["system"])], errors := [], mountPoints := [] }
  vfsAvailable := true

theorem conflict_free_sharedDirectory : (∃ plan, buildPlan sharedDirectory = .ok plan) ∧
    ConflictFree sharedDirectory ∧
    (∃ m d m' d', Active sharedDirectory m d ∧ Active sharedDirectory m' d' ∧
      sharedDirectory.target d = sharedDirectory.target d' ∧
      d.mode ≠ d'.mode) ∧
    ∃ m d m' d', Active sharedDirectory m d ∧ Active sharedDirectory m' d' ∧ m.id ≠ m'.id ∧
    d.entry.fileType = .whiteout ∧
      sharedDirectory.target d = sharedDirectory.target d' := by
  obtain ⟨plan, hplan⟩ := exists_plan
    (show (buildPlan sharedDirectory).toOption.isSome = true by decide +kernel)
  refine ⟨⟨plan, hplan⟩, accepted_conflict_free hplan, ?_, ?_⟩
  · exact ⟨namedModule "a" [tools "hosts" .regularFile, tools "tools" .whiteout], ⟨etcEntry, .overlay⟩,
      namedModule "b" [tools "fonts.xml" .regularFile], ⟨etcEntry, .magic⟩,
        ⟨⟨by decide +kernel, by decide +kernel⟩, by decide⟩,
      ⟨⟨by decide +kernel, by decide +kernel⟩, by decide⟩, by decide +kernel, by decide⟩
  · exact ⟨namedModule "a" [tools "hosts" .regularFile, tools "tools" .whiteout],
      ⟨tools "tools" .whiteout, .overlay⟩,
      namedModule "c" [tools "tools" .whiteout], ⟨tools "tools" .whiteout, .overlay⟩,
        ⟨⟨by decide +kernel, by decide +kernel⟩, by decide⟩,
      ⟨⟨by decide +kernel, by decide +kernel⟩, by decide⟩, by decide, by decide, by decide +kernel⟩

/-- Refused are neither a file and a directory on one backend, nor a file of one backend above a file
of another, nor a whiteout whose name ends in a blank above a file. -/
theorem conflicts_accepted :
    (¬∀ (input : PlanInput) (plan : MountPlan), buildPlan input = .ok plan → Scanned input.modules →
      (∀ m ∈ input.modules, ParentClosed m.entries) → DirectoriesApart input ∧
        NothingBelow input fun _ _ => True) ∧
    (¬∀ (input : PlanInput) (plan : MountPlan), buildPlan input = .ok plan → Scanned input.modules →
      (∀ m ∈ input.modules, ParentClosed m.entries) → DirectoriesApart input) ∧
    (¬∀ (input : PlanInput) (plan : MountPlan), buildPlan input = .ok plan → Scanned input.modules →
      (∀ m ∈ input.modules, ParentClosed m.entries) → NothingBelow input fun d d' => d.mode ≠ d'.mode) ∧
    ¬∀ (input : PlanInput) (plan : MountPlan), buildPlan input = .ok plan → Scanned input.modules →
      (∀ m ∈ input.modules, ParentClosed m.entries) → NothingBelow input fun d _ =>
        d.entry.fileType = .whiteout := by
  have hsame : ¬DirectoriesApart sameBackend := by
    intro hall
    have hh := hall (namedModule "a" [tools "tools" .regularFile]) ⟨tools "tools" .regularFile, .overlay⟩
      (namedModule "b" [tools "tools" .directory, toolsChild "tools"]) ⟨tools "tools" .directory, .overlay⟩
      ⟨⟨by decide +kernel, by decide +kernel⟩, by decide⟩ ⟨⟨by decide +kernel, by decide +kernel⟩, by decide⟩
      (by decide) (by decide +kernel)
    exact absurd hh (by decide)
  refine ⟨?_, ?_, ?_, ?_⟩
  · intro hall
    obtain ⟨plan, hplan⟩ := exists_plan
      (show (buildPlan sameBackend).toOption.isSome = true by decide +kernel)
    exact hsame (hall _ _ hplan (opposed_scanned _ _ _ _) (by decide +kernel)).1
  · intro hall
    obtain ⟨plan, hplan⟩ := exists_plan
      (show (buildPlan sameBackend).toOption.isSome = true by decide +kernel)
    exact hsame (hall _ _ hplan (opposed_scanned _ _ _ _) (by decide +kernel))
  · intro hall
    obtain ⟨plan, hplan⟩ := exists_plan
      (show (buildPlan ignoredDirectory).toOption.isSome = true by decide +kernel)
    have hh := hall _ _ hplan (opposed_scanned _ _ _ _) (by decide +kernel)
      (namedModule "a" [tools "tools" .regularFile]) ⟨tools "tools" .regularFile, .magic⟩
      (namedModule "b" [tools "tools" .directory, toolsChild "tools"]) ⟨toolsChild "tools", .overlay⟩
      ⟨⟨by decide +kernel, by decide +kernel⟩, by decide⟩ ⟨⟨by decide +kernel, by decide +kernel⟩, by decide⟩
      (by decide) (by decide) (by decide) (by decide +kernel)
    exact absurd hh (by decide +kernel)
  · intro hall
    obtain ⟨plan, hplan⟩ := exists_plan (show (buildPlan blankName).toOption.isSome = true by decide +kernel)
    have hh := hall _ _ hplan (opposed_scanned _ _ _ _) (by decide +kernel)
      (namedModule "a" [tools "tools " .whiteout]) ⟨tools "tools " .whiteout, .overlay⟩
      (namedModule "b" [tools "tools " .directory, toolsChild "tools "]) ⟨toolsChild "tools ", .overlay⟩
      ⟨⟨by decide +kernel, by decide +kernel⟩, by decide⟩ ⟨⟨by decide +kernel, by decide +kernel⟩, by decide⟩
      (by decide) (by decide) (by decide) (by decide +kernel)
    exact absurd hh (by decide +kernel)

end HybridMount.Plan
